import ArturoInsight.Text.Cut

/-! Issues: what a rule has to say about a stretch of a document. Lines and columns start at zero. -/

namespace ArturoInsight

inductive Severity where
  | error | warning | info | hint
deriving DecidableEq, Repr, Inhabited

namespace Severity

def name : Severity → String
  | error => "error"
  | warning => "warning"
  | info => "info"
  | hint => "hint"

def label : Severity → String
  | error => "[ERROR]"
  | warning => "[WARNING]"
  | info => "[INFO]"
  | hint => "[HINT]"

def rank : Severity → Nat
  | error => 0
  | warning => 1
  | info => 2
  | hint => 3

def all : List Severity := [error, warning, info, hint]

def ofName? (name : String) : Option Severity := all.find? fun severity => severity.name == name

theorem ofName?_name (severity : Severity) : ofName? severity.name = some severity := by
  cases severity <;> rfl

end Severity

structure Issue where
  severity : Severity
  code : String
  message : String
  file : String
  line : Nat
  column : Nat
  endLine : Nat
  endColumn : Nat
  context : List Char
deriving DecidableEq, Repr

namespace Issue

def before (left right : Issue) : Bool :=
  left.line < right.line || (left.line == right.line &&
    (left.column < right.column || (left.column == right.column &&
      left.severity.rank ≤ right.severity.rank)))

def text (issue : Issue) : String :=
  let head := issue.severity.label ++ " " ++ issue.code ++ " " ++ issue.file ++ ":" ++
    toString (issue.line + 1) ++ ":" ++ toString (issue.column + 1) ++ ": " ++ issue.message
  if issue.context.isEmpty then head
  else head ++ "\n    " ++ String.ofList (Text.trim issue.context)

end Issue

end ArturoInsight
