import ArturoInsight.Notice
import ArturoInsight.Settings.Leaf
import ArturoInsight.Text.Class

/-! Overrides on top of settings. The settings are written as data, the override is merged into them with its keys in
one spelling, and the whole is read again. It is taken as a whole or not at all. -/

namespace ArturoInsight

def snakeCase (key : String) : String :=
  String.ofList (key.toList.flatMap fun c => if Text.isUpper c then ['_', Text.lower c] else [c])

namespace Raw

mutual

/-- A value with the keys of its maps in small letters and underscores, in lists apart. Of keys that become one the
last counts. -/
def normalise : Raw → Raw
  | .map entries => .map (Table.collect (normaliseEntries entries))
  | raw => raw

def normaliseEntries : List (Key × Raw) → List (Key × Raw)
  | [] => []
  | (key, raw) :: rest => (.text (snakeCase key.shown), normalise raw) :: normaliseEntries rest

end

mutual

def merge (base : Table Key Raw) : List (Key × Raw) → Table Key Raw
  | [] => base
  | (key, raw) :: rest => merge (base.put key (combine (base.get? key) raw)) rest

def combine : Option Raw → Raw → Raw
  | some (.map base), .map entries => .map (merge base entries)
  | _, raw => raw

end

end Raw

namespace Settings

def dump (settings : Settings) : Table Key Raw :=
  Leaf.sections.map fun (owner, leaves) =>
    (.text owner, .map (leaves.map fun leaf => (.text leaf.key, leaf.write (leaf.get settings))))

section Reading

variable (validator : Validator)

/-- One leaf of a section, with the value that it has by default where nothing is said. -/
def field (path : List String) (entries : List (Key × Raw)) (leaf : Leaf) : Checked leaf.Value :=
  match Raw.get? entries leaf.key with
  | none => pure (leaf.get default)
  | some raw => Checked.read (path ++ [leaf.key]) (leaf.get default) (validator.read leaf) raw

def readDiagnostics (path : List String) (entries : List (Key × Raw)) : Checked DiagnosticsSettings := do
  let enabled ← field validator path entries .enabled
  let undefinedIdentifiers ← field validator path entries .undefinedIdentifiers
  let typeChecks ← field validator path entries .typeChecks
  let bracketBalance ← field validator path entries .bracketBalance
  let maxProblems ← field validator path entries .maxProblems
  pure { enabled, undefinedIdentifiers, typeChecks, bracketBalance, maxProblems }

def readFormatting (path : List String) (entries : List (Key × Raw)) : Checked FormattingSettings := do
  let indentSize ← field validator path entries .indentSize
  pure { indentSize }

def readHints (path : List String) (entries : List (Key × Raw)) : Checked HintSettings := do
  let parameterNames ← field validator path entries .parameterNames
  let types ← field validator path entries .typeNames
  pure { parameterNames, types }

def readLogging (path : List String) (entries : List (Key × Raw)) : Checked LoggingSettings := do
  let level ← field validator path entries .level
  let file ← field validator path entries .file
  pure { level, file }

def part (entries : List (Key × Raw)) (owner : String) (default : α)
    (read : List String → List (Key × Raw) → Checked α) : Checked α :=
  match Raw.get? entries owner with
  | none => pure default
  | some (.map inner) => read [owner] inner
  | some _ => Checked.flawed [owner] .notRecord default

def ofEntries (entries : List (Key × Raw)) : Checked Settings := do
  let diagnostics ← part entries "diagnostics" default.diagnostics (readDiagnostics validator)
  let formatting ← part entries "formatting" default.formatting (readFormatting validator)
  let hints ← part entries "inlay_hints" default.hints (readHints validator)
  let logging ← part entries "logging" default.logging (readLogging validator)
  pure { diagnostics, formatting, hints, logging }

end Reading

end Settings

inductive SettingsError where
  | notMap (kind : String)
  | invalid (findings : List Finding)
  /-- A file that cannot be opened or read as data. -/
  | unreadable (path : String)
  /-- A file that holds something other than a map. -/
  | fileNotMap (path : String)
deriving DecidableEq, Repr

def SettingsError.message? : SettingsError → Option String
  | notMap kind => some ("Config error: Settings must be a mapping, got " ++ kind)
  | fileNotMap path => some ("Config error in " ++ path ++ ": expected a mapping at top level")
  | invalid _ | unreadable _ => none

def SettingsError.path? : SettingsError → Option String
  | fileNotMap path | unreadable path => some path
  | notMap _ | invalid _ => none

namespace Settings

/-- The settings with an override on top. A falsy override changes nothing. -/
def merged (validator : Validator) (settings : Settings) (override : Raw) : Except SettingsError Settings :=
  if override.isFalsy then .ok settings
  else match override.normalise with
    | .map entries => ((ofEntries validator (Raw.merge settings.dump entries)).result).mapError .invalid
    | other => .error (.notMap other.kindName)

/-- The settings with an override on top, or as they were where it cannot be used. -/
def apply (validator : Validator) (settings : Settings) (override : Raw) (source : String) :
    Settings × List Notice :=
  match settings.merged validator override with
  | .ok settings => (settings, [])
  | .error _ => (settings, [.settingsIgnored source])

def within (key : String) (entries : List (Key × Raw)) : List (Key × Raw) :=
  match Raw.get? entries key with
  | some (.map inner) => inner
  | _ => entries

def ofClient? : Raw → Option Raw
  | .map entries =>
    let inner := within "arturo" (within "settings" entries)
    if inner.isEmpty then none else some (.map inner)
  | _ => none

def environmentKeys : List (String × String × String) :=
  [("ARTURO_LSP_LOG_LEVEL", "logging", "level"),
   ("ARTURO_LSP_LOG_FILE", "logging", "file"),
   ("ARTURO_LSP_INDENT_SIZE", "formatting", "indent_size")]

def ofEnvironmentPart (environment : List (String × String)) (part : String) : List (Key × Raw) :=
  environmentKeys.filterMap fun (name, owner, key) =>
    if owner == part then (environment.lookup name).map fun value => (.text key, .text value) else none

def ofEnvironment (environment : List (String × String)) : Raw :=
  .map (["logging", "formatting"].filterMap fun part =>
    match ofEnvironmentPart environment part with
    | [] => none
    | entries => some (.text part, .map entries))

end Settings

end ArturoInsight
