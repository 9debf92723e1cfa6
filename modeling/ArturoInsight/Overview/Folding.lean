import ArturoInsight.Document.Analysis

/-! Stretches of lines that can be folded away: pairs of square brackets and strings over several
lines. -/

namespace ArturoInsight

open Lexical

structure Fold where
  first : Nat
  last : Nat
deriving DecidableEq, Repr

namespace Fold

def before (left right : Fold) : Bool :=
  left.first < right.first || (left.first == right.first && left.last ≤ right.last)

/-- Lines of the brackets still open, the line of the open string, and the folds so far. -/
structure Progress where
  openers : List Nat
  string : Option Nat
  folds : List Fold
deriving DecidableEq, Repr

namespace Progress

def addBracket (line : Nat) (progress : Progress) (bracket : Char) : Progress :=
  if bracket = '[' then { progress with openers := line :: progress.openers }
  else match progress.openers with
    | [] => progress
    | opener :: rest =>
      { progress with
        openers := rest
        folds := if opener < line then ⟨opener, line⟩ :: progress.folds else progress.folds }

/-- A string opens on a line that only ends inside one, and closes on a line that only starts so. -/
def addString (line : Nat) (scan : Scan) (progress : Progress) : Progress :=
  match scan.carryIn.inString, scan.carryOut.inString with
  | false, true => { progress with string := some line }
  | true, false =>
    { progress with
      string := none
      folds := match progress.string with
        | some opener => if opener < line then ⟨opener, line⟩ :: progress.folds else progress.folds
        | none => progress.folds }
  | _, _ => progress

def addLine (progress : Progress) (line : Nat) (scan : Scan) : Progress :=
  addString line scan (scan.brackets.foldl (addBracket line) progress)

def addFrom (progress : Progress) (line : Nat) : List Scan → Progress
  | [] => progress
  | scan :: rest => (progress.addLine line scan).addFrom (line + 1) rest

end Progress

def ofScans (scans : List Scan) : List Fold :=
  ((Progress.mk [] none []).addFrom 0 scans).folds.mergeSort before

end Fold

def Analysis.folds (analysis : Analysis) : List Fold := Fold.ofScans analysis.scans

end ArturoInsight
