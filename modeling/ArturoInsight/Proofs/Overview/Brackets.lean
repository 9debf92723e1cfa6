import ArturoInsight.Proofs.Overview.Pairs

/-! The folds of brackets: the lines of the open brackets and the folds so far are those of the brackets that a
pairing of the whole brackets has. So every matched pair on two lines folds them, and nothing else does. -/

namespace ArturoInsight

open Lexical

/-- From the line of an opening bracket to the line of its partner. -/
def Fold.ofPair (pair : Bracket × Bracket) : Fold := ⟨pair.1.place.line, pair.2.place.line⟩

namespace Bracket

variable {brackets : List Bracket} {opener closer : Bracket}

theorem Matched.before (ordered : brackets.Pairwise Before) (pair : Matched brackets opener closer) :
    opener.Before closer := by
  obtain ⟨front, inner, back, rfl, -⟩ := pair
  obtain ⟨-, behind, -⟩ := List.pairwise_append.1 ordered
  exact (List.pairwise_cons.1 behind).1 closer (by simp)

theorem Matched.line_lt_iff (ordered : brackets.Pairwise Before) (pair : Matched brackets opener closer) :
    opener.place.line < closer.place.line ↔ opener.place.line ≠ closer.place.line := by
  have before := pair.before ordered
  unfold Before at before
  omega

end Bracket

namespace Pairing

/-- A pair of brackets on two lines. -/
def folds (pair : Bracket × Bracket) : Bool := pair.1.place.line < pair.2.place.line

def progress (pairing : Pairing) : Fold.Progress :=
  ⟨pairing.openers.map (·.place.line), none, (pairing.pairs.filter folds).map Fold.ofPair⟩

theorem progress_add (pairing : Pairing) (bracket : Bracket) :
    (pairing.add bracket).progress = pairing.progress.addBracket bracket.place.line bracket.sign := by
  obtain ⟨openers, pairs⟩ := pairing
  unfold add Fold.Progress.addBracket
  by_cases opens : bracket.sign = '['
  · rw [if_pos opens, if_pos opens]
    rfl
  · rw [if_neg opens, if_neg opens]
    cases openers with
    | nil => rfl
    | cons opener rest =>
      by_cases lines : opener.place.line < bracket.place.line <;> simp [progress, folds, Fold.ofPair, lines]

theorem progress_foldl {line : Nat} {brackets : List Bracket} (pairing : Pairing)
    (held : ∀ bracket ∈ brackets, bracket.place.line = line) : (brackets.foldl add pairing).progress =
      (brackets.map Bracket.sign).foldl (Fold.Progress.addBracket line) pairing.progress := by
  induction brackets generalizing pairing with
  | nil => rfl
  | cons bracket rest ih =>
    rw [List.map_cons, List.foldl_cons, List.foldl_cons, ← held bracket List.mem_cons_self, ← progress_add,
      held bracket List.mem_cons_self]
    exact ih _ fun other member => held other (List.mem_cons_of_mem _ member)

theorem progress_foldl_ofLines (pairing : Pairing) (line : Nat) (scans : List Scan) :
    ((Bracket.ofLines line scans).foldl add pairing).progress = pairing.progress.bracketsFrom line scans := by
  induction scans generalizing pairing line with
  | nil => rfl
  | cons scan rest ih =>
    rw [Bracket.ofLines, List.foldl_append, ih, progress_foldl _ fun _ => Bracket.line_of_mem_ofLine,
      Bracket.map_sign_ofLine]
    rfl

end Pairing

namespace Fold

/-- Pairs of brackets on two lines, all that match and every one once. -/
structure Pairs (brackets : List Bracket) (pairs : List (Bracket × Bracket)) : Prop where
  nodup : pairs.Nodup
  mem : ∀ opener closer, (opener, closer) ∈ pairs ↔
    Bracket.Matched brackets opener closer ∧ opener.place.line ≠ closer.place.line

theorem exists_pairs (scans : List Scan) :
    ∃ pairs, Pairs (Bracket.ofScans scans) pairs ∧ (ofBrackets scans).Perm (pairs.map ofPair) := by
  have ordered := Bracket.pairwise_ofLines 0 scans
  have finds : Pairing.Finds (Bracket.ofScans scans) _ :=
    Pairing.finds_ofBrackets (Bracket.nodup_ofLines 0 scans) fun _ => Bracket.sign_of_mem
  have same := Pairing.progress_foldl_ofLines ⟨[], []⟩ 0 scans
  refine ⟨(Pairing.ofBrackets (Bracket.ofScans scans)).pairs.filter Pairing.folds,
    ⟨finds.nodup.filter _, fun opener closer => ?_⟩, ?_⟩
  · rw [List.mem_filter, finds.mem]
    refine and_congr_right fun pair => ?_
    rw [← pair.line_lt_iff ordered]
    exact decide_eq_true_iff
  · exact (List.mergeSort_perm _ before).trans (congrArg Progress.folds same.symm ▸ .refl _)

theorem mem_ofBrackets {scans : List Scan} {fold : Fold} : fold ∈ ofBrackets scans ↔ ∃ opener closer,
    Bracket.Matched (Bracket.ofScans scans) opener closer ∧ opener.place.line ≠ closer.place.line ∧
      fold = ofPair (opener, closer) := by
  obtain ⟨pairs, held, perm⟩ := exists_pairs scans
  rw [perm.mem_iff, List.mem_map]
  constructor
  · rintro ⟨⟨opener, closer⟩, member, rfl⟩
    obtain ⟨pair, lines⟩ := (held.mem opener closer).1 member
    exact ⟨opener, closer, pair, lines, rfl⟩
  · rintro ⟨opener, closer, pair, lines, rfl⟩
    exact ⟨(opener, closer), (held.mem opener closer).2 ⟨pair, lines⟩, rfl⟩

/-- The second starts within the first one and ends behind it. -/
def Crosses (left right : Fold) : Prop := left.first < right.first ∧ right.first < left.last ∧ left.last < right.last

theorem not_crosses_of_mem_ofBrackets {scans : List Scan} {left right : Fold} (first : left ∈ ofBrackets scans)
    (second : right ∈ ofBrackets scans) : ¬ left.Crosses right := by
  obtain ⟨_, last, outer, -, rfl⟩ := mem_ofBrackets.1 first
  obtain ⟨opener, _, inner, -, rfl⟩ := mem_ofBrackets.1 second
  rintro ⟨starts, inside, ends⟩
  exact outer.not_crossing (Bracket.pairwise_ofLines 0 scans) inner (.inl starts) (.inl inside) (.inl ends)

theorem ofStrings_of_single {scans : List Scan} (single : ∀ scan ∈ scans, scan.carryOut.inString = false) :
    ofStrings scans = [] := by
  have none (line : Nat) : (Progress.mk [] none []).stringsFrom line scans = ⟨[], none, []⟩ := by
    induction scans generalizing line with
    | nil => rfl
    | cons scan rest ih =>
      have outside := single scan List.mem_cons_self
      have here : (Progress.mk [] none []).addString line scan = ⟨[], none, []⟩ := by
        rw [Progress.addString, outside]
        cases scan.carryIn.inString <;> rfl
      rw [Progress.stringsFrom, here]
      exact ih (fun other member => single other (List.mem_cons_of_mem _ member)) (line + 1)
  rw [ofStrings, none]
  exact List.mergeSort_nil

end Fold

/-- Where every line ends outside of strings, the folds are the lines of the matched pairs of brackets on two lines, one
fold a pair, in order of position; and no two of them cross. -/
theorem folds_of_matched_pairs (uri : String) (text : List Char) (linter : Linter) (version : Option Int)
    (single : ∀ scan ∈ scanText text, scan.carryOut.inString = false) :
    let analysis := Analysis.ofText uri text linter version
    (∃ pairs, Fold.Pairs (Bracket.ofScans analysis.scans) pairs ∧ analysis.folds.Perm (pairs.map Fold.ofPair)) ∧
      analysis.folds.Pairwise (fun left right => left.before right = true) ∧
      ∀ left ∈ analysis.folds, ∀ right ∈ analysis.folds, ¬ left.Crosses right := by
  intro analysis
  have strings : Fold.ofStrings analysis.scans = [] := Fold.ofStrings_of_single single
  have perm : analysis.folds.Perm (Fold.ofBrackets analysis.scans) := by
    rw [Analysis.folds, Fold.ofScans_eq, strings, List.append_nil]
    exact List.mergeSort_perm _ _
  obtain ⟨pairs, held, lines⟩ := Fold.exists_pairs analysis.scans
  exact ⟨⟨pairs, held, perm.trans lines⟩, Fold.pairwise_mergeSort _, fun left first right second =>
    Fold.not_crosses_of_mem_ofBrackets (perm.mem_iff.1 first) (perm.mem_iff.1 second)⟩

/-- One list that closes on the line of the other, a third on one line only, and brackets without partners. -/
theorem folds_of_matched_pairs_nested :
    let text := "] x: [\n[1 2\n] [3]] [\n".toList
    let analysis := Analysis.ofText "" text .default none
    (∀ scan ∈ scanText text, scan.carryOut.inString = false) ∧ analysis.folds = [⟨0, 2⟩, ⟨1, 2⟩] ∧
      (∃ pairs, Fold.Pairs (Bracket.ofScans analysis.scans) pairs ∧ analysis.folds.Perm (pairs.map Fold.ofPair)) ∧
      ∀ left ∈ analysis.folds, ∀ right ∈ analysis.folds, ¬ left.Crosses right := by
  intro text analysis
  have single : ∀ scan ∈ scanText text, scan.carryOut.inString = false := by decide +kernel
  have found : ((Fold.Progress.mk [] none []).addFrom 0 analysis.scans).folds = [⟨0, 2⟩, ⟨1, 2⟩] := by decide +kernel
  have folds : analysis.folds = [⟨0, 2⟩, ⟨1, 2⟩] := by
    rw [Analysis.folds, Fold.ofScans, found]
    exact List.mergeSort_of_pairwise (by decide)
  obtain ⟨pairs, -, apart⟩ := folds_of_matched_pairs "" text .default none single
  exact ⟨single, folds, pairs, apart⟩

end ArturoInsight
