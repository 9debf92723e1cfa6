import ArturoInsight.Catalog.Shipped
import ArturoInsight.Lint.Issue
import ArturoInsight.Symbol.Quasi
import ArturoInsight.Symbol.Table

/-! A rule looks at everything known of a document and gives its issues, or fails. -/

namespace ArturoInsight

open Lexical

structure Source where
  scans : List Scan
  symbols : Symbols
  quasi : Quasi
  catalog : Catalog
  file : String
deriving DecidableEq, Repr

namespace Source

def ofScans (scans : List Scan) (file : String) (catalog : Catalog) : Source where
  scans := scans
  symbols := .ofScans scans
  quasi := .ofScans scans
  catalog := catalog
  file := file

def skips (scan : Scan) : Bool :=
  (Text.trim scan.text).head? == some ';' || scan.carryOut.inString

end Source

structure Rule where
  code : String
  severity : Severity
  /-- Without a result where the rule fails on the document. -/
  check : Source → Option (List Issue)

def Source.issue (source : Source) (severity : Severity) (code message : String) (line : Nat)
    (scan : Scan) (column stop : Nat) : Issue where
  severity := severity
  code := code
  message := message
  file := source.file
  line := line
  column := column
  endLine := line
  endColumn := stop
  context := scan.text

def Rule.byLine (code : String) (severity : Severity)
    (find : Source → Nat → Scan → List Issue) : Rule where
  code := code
  severity := severity
  check source := some <| source.scans.zipIdx.flatMap fun (scan, line) =>
    if Source.skips scan then [] else find source line scan

end ArturoInsight
