import ArturoInsight.Document.Position
import ArturoInsight.Lint.Linter

/-! Everything derived from one version of a document. -/

namespace ArturoInsight

open Lexical

structure Analysis where
  uri : String
  version : Option Int
  text : List Char
  scans : List Scan
  symbols : Symbols
  quasi : Quasi
  issues : List Issue
deriving DecidableEq, Repr

namespace Analysis

def ofText (uri : String) (text : List Char) (linter : Linter) (version : Option Int) : Analysis :=
  let scans := scanText text
  let source := Source.ofScans scans uri Catalog.shipped
  { uri, version, text, scans
    symbols := source.symbols
    quasi := source.quasi
    issues := linter.issues source }

def lines (analysis : Analysis) : List (List Char) := analysis.scans.map (·.text)

def line? (analysis : Analysis) (line : Nat) : Option (List Char) :=
  (analysis.scans[line]?).map (·.text)

def lineText (analysis : Analysis) (line : Int) : List Char :=
  if line < 0 then [] else (analysis.line? line.toNat).getD []

def scan? (analysis : Analysis) (line : Int) : Option Scan :=
  if line < 0 then none else analysis.scans[line.toNat]?

def contextAt (analysis : Analysis) (line character : Int) : Carry :=
  match analysis.scan? line with
  | some scan => .ofTag (scan.tagAt character)
  | none => .none

def isCodeAt (analysis : Analysis) (line character : Int) : Bool :=
  (analysis.scan? line).any fun scan => (scan.tagAt character).isCode

end Analysis

end ArturoInsight
