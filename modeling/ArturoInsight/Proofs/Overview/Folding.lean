import ArturoInsight.Overview.Folding
import Mathlib.Data.List.Perm.Basic
import Mathlib.Data.List.Sort

/-! Brackets and strings fold lines independently of each other: the folds of a document are those of its brackets
and those of its strings, in order of position. -/

namespace ArturoInsight.Fold

open Lexical

section Order

variable {left middle right : Fold}

theorem before_trans (first : left.before middle = true) (second : middle.before right = true) :
    left.before right = true := by
  simp only [before, Bool.or_eq_true, Bool.and_eq_true, decide_eq_true_eq, beq_iff_eq] at first second ⊢
  omega

theorem before_total (left right : Fold) : (left.before right || right.before left) = true := by
  simp only [before, Bool.or_eq_true, Bool.and_eq_true, decide_eq_true_eq, beq_iff_eq]
  omega

theorem before_antisymm (first : left.before right = true) (second : right.before left = true) : left = right := by
  simp only [before, Bool.or_eq_true, Bool.and_eq_true, decide_eq_true_eq, beq_iff_eq] at first second
  have lines : left.first = right.first ∧ left.last = right.last := by omega
  cases left
  cases right
  simpa using lines

theorem pairwise_mergeSort (folds : List Fold) :
    (folds.mergeSort before).Pairwise fun left right => left.before right = true := by
  apply List.pairwise_mergeSort
  · exact fun _ _ _ => before_trans
  · exact before_total

theorem mergeSort_eq_iff {first second : List Fold} :
    first.mergeSort before = second.mergeSort before ↔ first.Perm second := by
  constructor
  · intro same
    have sorted := List.mergeSort_perm first before
    rw [same] at sorted
    exact sorted.symm.trans (List.mergeSort_perm second before)
  · intro perm
    have sorted := (List.mergeSort_perm first before).trans (perm.trans (List.mergeSort_perm second before).symm)
    exact sorted.eq_of_pairwise (fun _ _ _ _ => before_antisymm) (pairwise_mergeSort first) (pairwise_mergeSort second)

end Order

namespace Progress

def bracketsFrom (progress : Progress) (line : Nat) : List Scan → Progress
  | [] => progress
  | scan :: rest => bracketsFrom (scan.brackets.foldl (addBracket line) progress) (line + 1) rest

def stringsFrom (progress : Progress) (line : Nat) : List Scan → Progress
  | [] => progress
  | scan :: rest => stringsFrom (progress.addString line scan) (line + 1) rest

/-- The progress of some lines is that of their brackets and that of their strings. -/
structure Splits (whole brackets strings : Progress) : Prop where
  openers : whole.openers = brackets.openers
  string : whole.string = strings.string
  folds : whole.folds.Perm (brackets.folds ++ strings.folds)

namespace Splits

variable {whole brackets strings : Progress} (splits : Splits whole brackets strings)

include splits

theorem addBracket (line : Nat) (bracket : Char) :
    Splits (whole.addBracket line bracket) (brackets.addBracket line bracket) strings := by
  unfold Progress.addBracket
  rw [splits.openers]
  split_ifs
  · exact ⟨rfl, splits.string, splits.folds⟩
  · cases brackets.openers with
    | nil => exact splits
    | cons opener rest =>
      refine ⟨rfl, splits.string, ?_⟩
      dsimp only
      split_ifs
      · exact splits.folds.cons _
      · exact splits.folds

theorem addBrackets (line : Nat) (found : List Char) :
    Splits (found.foldl (Progress.addBracket line) whole) (found.foldl (Progress.addBracket line) brackets) strings := by
  induction found generalizing whole brackets with
  | nil => exact splits
  | cons bracket found ih => exact ih (splits.addBracket line bracket)

theorem addString (line : Nat) (scan : Scan) :
    Splits (whole.addString line scan) brackets (strings.addString line scan) := by
  unfold Progress.addString
  cases scan.carryIn.inString <;> cases scan.carryOut.inString
  case false.true => exact ⟨splits.openers, rfl, splits.folds⟩
  case true.false =>
    refine ⟨splits.openers, rfl, ?_⟩
    rw [splits.string]
    cases strings.string with
    | none => exact splits.folds
    | some opener =>
      dsimp only
      split_ifs
      · exact (splits.folds.cons _).trans List.perm_middle.symm
      · exact splits.folds
  all_goals exact splits

theorem addFrom (line : Nat) (scans : List Scan) :
    Splits (whole.addFrom line scans) (brackets.bracketsFrom line scans) (strings.stringsFrom line scans) := by
  induction scans generalizing whole brackets strings line with
  | nil => exact splits
  | cons scan rest ih => exact ih ((splits.addBrackets line scan.brackets).addString line scan) (line + 1)

end Splits

theorem bracketsFrom_congr {lefts rights : List Scan} (same : lefts.map Scan.brackets = rights.map Scan.brackets)
    (progress : Progress) (line : Nat) : progress.bracketsFrom line lefts = progress.bracketsFrom line rights := by
  induction lefts generalizing rights progress line with
  | nil => rw [List.map_eq_nil_iff.1 same.symm]
  | cons left lefts ih =>
    obtain ⟨right, rights, rfl, brackets, rest⟩ := List.map_eq_cons_iff.1 same.symm
    rw [bracketsFrom, bracketsFrom, brackets]
    exact ih rest.symm _ _

theorem stringsFrom_congr {lefts rights : List Scan}
    (same : lefts.map (fun scan => (scan.carryIn.inString, scan.carryOut.inString)) =
      rights.map fun scan => (scan.carryIn.inString, scan.carryOut.inString))
    (progress : Progress) (line : Nat) : progress.stringsFrom line lefts = progress.stringsFrom line rights := by
  induction lefts generalizing rights progress line with
  | nil => rw [List.map_eq_nil_iff.1 same.symm]
  | cons left lefts ih =>
    obtain ⟨right, rights, rfl, ends, rest⟩ := List.map_eq_cons_iff.1 same.symm
    obtain ⟨starts, stops⟩ := Prod.mk.inj ends
    have here : progress.addString line left = progress.addString line right := by
      rw [addString, addString, starts, stops]
    rw [stringsFrom, stringsFrom, here]
    exact ih rest.symm _ _

end Progress

def ofBrackets (scans : List Scan) : List Fold :=
  ((Progress.mk [] none []).bracketsFrom 0 scans).folds.mergeSort before

def ofStrings (scans : List Scan) : List Fold :=
  ((Progress.mk [] none []).stringsFrom 0 scans).folds.mergeSort before

theorem ofScans_perm (scans : List Scan) :
    ((Progress.mk [] none []).addFrom 0 scans).folds.Perm (ofBrackets scans ++ ofStrings scans) := by
  have start : Progress.Splits ⟨[], none, []⟩ ⟨[], none, []⟩ ⟨[], none, []⟩ := ⟨rfl, rfl, .nil⟩
  exact (start.addFrom 0 scans).folds.trans
    ((List.mergeSort_perm _ before).symm.append (List.mergeSort_perm _ before).symm)

/-- The folds of a document are those of its brackets and those of its strings, in order. -/
theorem ofScans_eq (scans : List Scan) : ofScans scans = (ofBrackets scans ++ ofStrings scans).mergeSort before :=
  mergeSort_eq_iff.2 (ofScans_perm scans)

theorem ofScans_eq_iff {lefts rights : List Scan} (brackets : ofBrackets lefts = ofBrackets rights) :
    ofScans lefts = ofScans rights ↔ ofStrings lefts = ofStrings rights := by
  rw [ofScans_eq, ofScans_eq, brackets, mergeSort_eq_iff, List.perm_append_left_iff]
  constructor
  · intro perm
    exact perm.eq_of_pairwise (fun _ _ _ _ => before_antisymm) (pairwise_mergeSort _) (pairwise_mergeSort _)
  · intro same
    rw [same]

end ArturoInsight.Fold
