import ArturoInsight.Layout.Lines
import Mathlib.Tactic.SplitIfs

/-! The layout of a document where every indentation can be written. One that cannot be written at the depth of
some line keeps the whole document from its layout. -/

namespace ArturoInsight.Layout

open Text Lexical

def padding (options : Options) (depth : Nat) : List Char :=
  (List.replicate (options.size * depth).toNat options.unit).flatten

def laidLine (options : Options) (depth : Nat) (scan : Scan) : List Char :=
  if isKept scan then scan.text
  else padding options (depth - leadingClosers scan.cells) ++ content scan

def laidLinesFrom (options : Options) (depth : Nat) : List Scan → List (List Char)
  | [] => []
  | scan :: rest => laidLine options depth scan :: laidLinesFrom options (depth + nesting scan).toNat rest

def laidLines (options : Options) (texts : List (List Char)) : List (List Char) :=
  laidLinesFrom options 0 (scanLines texts)

/-- The depths that the lines are indented to, without those of the lines that are kept. -/
def depthsFrom (depth : Nat) : List Scan → List Nat
  | [] => []
  | scan :: rest =>
    (if isKept scan then [] else [depth - leadingClosers scan.cells]) ++
      depthsFrom (depth + nesting scan).toNat rest

def depths (texts : List (List Char)) : List Nat := depthsFrom 0 (scanLines texts)

section Checked

variable (options : Options) (depth : Nat)

theorem linesFrom_eq (scans : List Scan) :
    linesFrom options depth scans = match (depthsFrom depth scans).findSome? options.excess? with
      | some excess => .error excess
      | none => .ok (laidLinesFrom options depth scans) := by
  induction scans generalizing depth with
  | nil => rfl
  | cons scan rest ih =>
    rw [linesFrom, depthsFrom, laidLinesFrom, ih]
    cases kept : isKept scan with
    | true =>
      simp only [line, laidLine, kept, if_true, List.nil_append]
      cases (depthsFrom (depth + nesting scan).toNat rest).findSome? options.excess? <;> rfl
    | false =>
      simp only [line, laidLine, indentation, padding, kept, Bool.false_eq_true, if_false, List.cons_append,
        List.nil_append, List.findSome?_cons]
      cases options.excess? (depth - leadingClosers scan.cells) with
      | some excess => rfl
      | none => cases (depthsFrom (depth + nesting scan).toNat rest).findSome? options.excess? <;> rfl

theorem lines_eq (texts : List (List Char)) :
    lines options texts = match (depths texts).findSome? options.excess? with
      | some excess => .error excess
      | none => .ok (laidLines options texts) := linesFrom_eq options 0 (scanLines texts)

end Checked

variable {options : Options} {texts : List (List Char)}

theorem lines_eq_ok {news : List (List Char)} :
    lines options texts = .ok news ↔
      (∀ depth ∈ depths texts, options.excess? depth = none) ∧ news = laidLines options texts := by
  rw [lines_eq, ← List.findSome?_eq_none_iff]
  cases (depths texts).findSome? options.excess? <;> simp [eq_comm]

theorem exists_depth_of_lines_eq_error {excess : Excess} (failed : lines options texts = .error excess) :
    ∃ depth ∈ depths texts, options.excess? depth = some excess := by
  rw [lines_eq] at failed
  cases found : (depths texts).findSome? options.excess? with
  | none => simp [found] at failed
  | some first =>
    obtain rfl : first = excess := by simpa [found] using failed
    exact List.exists_of_findSome?_eq_some found

end ArturoInsight.Layout
