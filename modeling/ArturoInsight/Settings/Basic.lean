/-! The settings that users can tune. Values out of bounds have no settings. -/

namespace ArturoInsight

structure DiagnosticsSettings where
  enabled : Bool := true
  undefinedIdentifiers : Bool := true
  typeChecks : Bool := true
  bracketBalance : Bool := true
  maxProblems : Nat := 1000
deriving DecidableEq, Repr

/-- Blanks for one level of nesting, from one to sixteen. -/
structure IndentSize where
  val : Nat
  pos : 1 ≤ val := by omega
  le : val ≤ 16 := by omega
deriving DecidableEq, Repr

structure FormattingSettings where
  indentSize : IndentSize := { val := 4 }
deriving DecidableEq, Repr

structure HintSettings where
  parameterNames : Bool := true
  types : Bool := true
deriving DecidableEq, Repr

structure LoggingSettings where
  level : String := "INFO"
  file : Option String := none
deriving DecidableEq, Repr

structure Settings where
  diagnostics : DiagnosticsSettings := {}
  formatting : FormattingSettings := {}
  hints : HintSettings := {}
  logging : LoggingSettings := {}
deriving DecidableEq, Repr

def Settings.default : Settings := {}

end ArturoInsight
