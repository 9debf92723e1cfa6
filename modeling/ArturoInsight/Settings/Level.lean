import ArturoInsight.Text.Class

/-! Names of log levels. They are read in capitals, and a name that means nothing is let pass. Two
names mean something that is no level. -/

namespace ArturoInsight

inductive LevelError where
  | text
  | table
deriving DecidableEq, Repr

def levelError? (level : String) : Option LevelError :=
  match String.ofList (level.toList.flatMap Text.upper) with
  | "BASIC_FORMAT" => some .text
  | "_STYLES" => some .table
  | _ => none

end ArturoInsight
