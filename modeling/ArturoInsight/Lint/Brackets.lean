import ArturoInsight.Lint.Rule

/-! Square brackets of the whole document that do not balance. -/

namespace ArturoInsight.Brackets

open Lexical

def balance (brackets : List Char) : Int := (brackets.count '[' : Int) - brackets.count ']'

def check (source : Source) : List Issue :=
  match source.scans.getLast? with
  | none => []
  | some last =>
    if Source.skips last || balance (source.scans.flatMap Scan.brackets) == 0 ||
        last.brackets.isEmpty then []
    else [source.issue .error "E002" "Unmatched brackets in file" (source.scans.length - 1) last 0
      last.text.length]

def rule : Rule where
  code := "E002"
  severity := .error
  check source := some (check source)

end ArturoInsight.Brackets
