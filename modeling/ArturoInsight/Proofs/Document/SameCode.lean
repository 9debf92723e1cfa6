import ArturoInsight.Proofs.Overview.Folding
import ArturoInsight.Proofs.Symbol.SameCode
import ArturoInsight.Proofs.Text.Lines

/-! Documents with the same code on every line: what stands in their strings and comments is in none of their
symbols and changes none of their folds, but for the lines that their strings span. -/

namespace ArturoInsight

open Text Lexical

/-- Documents that have the same symbols but for their values, and that differ in folds only by their strings. -/
structure Unleaked (left right : List Char) : Prop where
  symbols : (Symbols.ofText left).change Symbol.placed = (Symbols.ofText right).change Symbol.placed
  quasi : Quasi.ofScans (scanText left) = Quasi.ofScans (scanText right)
  brackets : Fold.ofBrackets (scanText left) = Fold.ofBrackets (scanText right)
  strings : Fold.ofScans (scanText left) = Fold.ofScans (scanText right) ↔
    Fold.ofStrings (scanText left) = Fold.ofStrings (scanText right)
  ends : (scanText left).map (·.carryOut.inString) = (scanText right).map (·.carryOut.inString) →
    Fold.ofScans (scanText left) = Fold.ofScans (scanText right)

theorem map_inString_scanFrom {carry following : Carry} (starts : carry.inString = following.inString)
    {lefts rights : List (List Char)} (ends : (scanFrom carry lefts).map (·.carryOut.inString) =
      (scanFrom following rights).map (·.carryOut.inString)) :
    (scanFrom carry lefts).map (fun scan => (scan.carryIn.inString, scan.carryOut.inString)) =
      (scanFrom following rights).map fun scan => (scan.carryIn.inString, scan.carryOut.inString) := by
  induction lefts generalizing carry following rights with
  | nil =>
    cases rights with
    | nil => rfl
    | cons right rights => contradiction
  | cons left lefts ih =>
    cases rights with
    | nil => contradiction
    | cons right rights =>
      obtain ⟨here, later⟩ := List.cons.inj ends
      exact congrArg₂ List.cons (Prod.ext starts here) (ih here later)

theorem map_eq_of_sameCode {α : Type} {view : Scan → α}
    (alike : ∀ left right, SameCode left right → view left = view right) {lefts rights : List Scan}
    (same : List.Forall₂ SameCode lefts rights) : lefts.map view = rights.map view := map_eq_of_forall₂ alike same

/-- Strings and comments leak into no symbol, and into folds only by the lines that they span. -/
theorem unleaked_of_sameCode {left right : List Char} (same : List.Forall₂ SameCode (scanText left) (scanText right)) :
    Unleaked left right := by
  have brackets : Fold.ofBrackets (scanText left) = Fold.ofBrackets (scanText right) := by
    rw [Fold.ofBrackets, Fold.ofBrackets,
      Fold.Progress.bracketsFrom_congr (map_eq_of_sameCode (fun _ _ => SameCode.brackets) same)]
  refine ⟨Symbols.placed_ofText same, ?_, brackets, Fold.ofScans_eq_iff brackets, fun ends => ?_⟩
  · exact Quasi.ofScans_congr (map_eq_of_sameCode (fun _ _ alike => alike.codeText [' ']) same)
  · have spans := Fold.Progress.stringsFrom_congr (map_inString_scanFrom rfl ends)
    exact (Fold.ofScans_eq_iff brackets).2 (congrArg (fun found => found.folds.mergeSort Fold.before) (spans _ 0))

theorem unleaked_of_quoted :
    List.Forall₂ SameCode (scanText "a: \"b: 1\" ; c: 2".toList) (scanText "a: \"x] 2\" ; [:]x".toList) ∧
      Unleaked "a: \"b: 1\" ; c: 2".toList "a: \"x] 2\" ; [:]x".toList :=
  ⟨by decide +kernel, unleaked_of_sameCode (by decide +kernel)⟩

/-- The strings of two documents with one tag everywhere may end on different lines. -/
theorem folds_of_spanning :
    List.Forall₂ SameCode (scanText "\x7b!a\x7d\n\x7b!b\x7d".toList) (scanText "\x7b!ab\nccc\x7d".toList) ∧
      Fold.ofScans (scanText "\x7b!a\x7d\n\x7b!b\x7d".toList) ≠ Fold.ofScans (scanText "\x7b!ab\nccc\x7d".toList) := by
  constructor
  · decide +kernel
  · decide +kernel

end ArturoInsight
