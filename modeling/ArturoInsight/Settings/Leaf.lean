import ArturoInsight.Raw.Checked
import ArturoInsight.Settings.Basic

/-! The settings one by one: where each stands, what it is written as, and what reads it. -/

namespace ArturoInsight.Settings

inductive Leaf where
  | enabled | undefinedIdentifiers | typeChecks | bracketBalance | maxProblems | indentSize
  | parameterNames | typeNames | level | file
deriving DecidableEq, Repr

namespace Leaf

abbrev Value : Leaf → Type
  | enabled | undefinedIdentifiers | typeChecks | bracketBalance | parameterNames | typeNames => Bool
  | maxProblems => Nat
  | indentSize => IndentSize
  | level => String
  | file => Option String

def owner : Leaf → String
  | enabled | undefinedIdentifiers | typeChecks | bracketBalance | maxProblems => "diagnostics"
  | indentSize => "formatting"
  | parameterNames | typeNames => "inlay_hints"
  | level | file => "logging"

def key : Leaf → String
  | enabled => "enabled"
  | undefinedIdentifiers => "undefined_identifiers"
  | typeChecks => "type_checks"
  | bracketBalance => "bracket_balance"
  | maxProblems => "max_problems"
  | indentSize => "indent_size"
  | parameterNames => "parameter_names"
  | typeNames => "types"
  | level => "level"
  | file => "file"

def get (settings : Settings) : (leaf : Leaf) → leaf.Value
  | enabled => settings.diagnostics.enabled
  | undefinedIdentifiers => settings.diagnostics.undefinedIdentifiers
  | typeChecks => settings.diagnostics.typeChecks
  | bracketBalance => settings.diagnostics.bracketBalance
  | maxProblems => settings.diagnostics.maxProblems
  | indentSize => settings.formatting.indentSize
  | parameterNames => settings.hints.parameterNames
  | typeNames => settings.hints.types
  | level => settings.logging.level
  | file => settings.logging.file

def write : (leaf : Leaf) → leaf.Value → Raw
  | enabled | undefinedIdentifiers | typeChecks | bracketBalance | parameterNames | typeNames => .bool
  | maxProblems => fun number => .int number
  | indentSize => fun size => .int size.val
  | level => .text
  | file => fun name => name.elim .null .text

def sections : List (String × List Leaf) :=
  [("diagnostics", [enabled, undefinedIdentifiers, typeChecks, bracketBalance, maxProblems]),
   ("formatting", [indentSize]),
   ("inlay_hints", [parameterNames, typeNames]),
   ("logging", [level, file])]

end Leaf

/-- What reads the values of leaves out of raw ones. A value as data is read as itself. -/
structure Validator where
  read (leaf : Leaf) : Raw → Except Flaw leaf.Value
  read_write (leaf : Leaf) (value : leaf.Value) : read leaf (leaf.write value) = .ok value

end ArturoInsight.Settings
