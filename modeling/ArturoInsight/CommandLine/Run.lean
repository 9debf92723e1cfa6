import ArturoInsight.CommandLine.Invocation
import ArturoInsight.Layout.Lines
import ArturoInsight.Lint.Linter
import ArturoInsight.Service.Basic
import ArturoInsight.Settings.Level
import ArturoInsight.Settings.Loading
import ArturoInsight.Text.Quoted
import ArturoInsight.Written.Pretty

/-! Running a command on the files that it can see. What it prints, reports and writes is its outcome;
nothing is printed before the whole command has been worked out. -/

namespace ArturoInsight.CommandLine

structure Surroundings where
  files : Files
  environment : List (String × String)
  home : Option String

inductive Fault where
  | undecodable (path : String)
  /-- A settings file that its reader fails on in a way of its own. -/
  | broken (path : String)
  | unopenable (error : FileError) (path : String)
  | level (error : LevelError)
  | threshold
  | layout (excess : Layout.Excess)
deriving DecidableEq, Repr

def Fault.ofObstacle : Settings.Obstacle → Fault
  | .undecodable path => .undecodable path
  | .broken path => .broken path
  | .unopenable error path => .unopenable error path

inductive Ending where
  | status (code : Nat)
  | fault (fault : Fault)
deriving DecidableEq, Repr

structure Outcome where
  ending : Ending
  output : String
  reports : List String
  writes : List (String × String)
  served : Option (Service × Transport)

namespace Outcome

def quiet (ending : Ending) : Outcome := ⟨ending, "", [], [], none⟩

def faulty (fault : Fault) : Outcome := quiet (.fault fault)

def printing (code : Nat) (output : String) : Outcome := ⟨.status code, output, [], [], none⟩

end Outcome

def report? (path : String) (error : FileError) : Option String :=
  error.reason?.map fun (number, reason) =>
    let shown := String.ofList (Text.quoted (Path.ofString path).toString.toList)
    "Error: cannot read " ++ path ++ ": [Errno " ++ toString number ++ "] " ++ reason ++ ": " ++ shown

def readSource (files : Files) (path : String) : Except Fault (Except String (List Char)) :=
  match files.read path with
  | .error error =>
    match report? path error with
    | some report => .ok (.error report)
    | none => .error (.unopenable error path)
  | .ok bytes =>
    match decode? bytes with
    | some text => .ok (.ok text)
    | none => .error (.undecodable path)

/-- The issues of all files that can be read, and a report for each other one. -/
structure Batch where
  issues : List Issue
  reports : List String

/-- A fault ends the batch; the reports before it stay. -/
def lintFiles (files : Files) (linter : Linter) (threshold : Severity) :
    List String → Except (Fault × List String) Batch
  | [] => .ok ⟨[], []⟩
  | path :: rest =>
    match readSource files path with
    | .error fault => .error (fault, [])
    | .ok (.error report) =>
      match lintFiles files linter threshold rest with
      | .ok batch => .ok { batch with reports := report :: batch.reports }
      | .error (fault, reports) => .error (fault, report :: reports)
    | .ok (.ok text) => do
      let batch ← lintFiles files linter threshold rest
      let issues := (linter.lintText text path).filter fun issue =>
        issue.severity.rank ≤ threshold.rank
      .ok { batch with issues := issues ++ batch.issues }

def issueRecord (issue : Issue) : Written.Printable :=
  .record [("severity", .text issue.severity.name), ("code", .text issue.code),
    ("message", .text issue.message), ("file", .text issue.file), ("line", .number issue.line),
    ("column", .number issue.column), ("end_line", .number issue.endLine),
    ("end_column", .number issue.endColumn)]

def issueReport (json : Bool) (issues : List Issue) : String :=
  if json then Written.pretty 0 (.list (issues.map issueRecord)) ++ "\n"
  else if issues.isEmpty then "No issues found\n"
  else String.join (issues.map fun issue => issue.text ++ "\n") ++ "\n" ++
    toString issues.length ++ " issues found\n"

def lint (files : Files) (settings : Settings) (paths : List String) (json : Bool)
    (threshold : Severity) : Outcome :=
  match lintFiles files (.ofSettings settings.diagnostics) threshold paths with
  | .error (fault, reports) => { Outcome.faulty fault with reports }
  | .ok batch =>
    let failed := !batch.reports.isEmpty || batch.issues.any fun issue => issue.severity == .error
    { Outcome.printing (if failed then 1 else 0) (issueReport json batch.issues) with
      reports := batch.reports }

def onSource (files : Files) (path : String) (work : List Char → Outcome) : Outcome :=
  match readSource files path with
  | .error fault => .faulty fault
  | .ok (.error report) => { Outcome.quiet (.status 1) with reports := [report] }
  | .ok (.ok text) => work text

def symbolRecords (table : Table (List Char) Symbol) : Written.Printable :=
  .record (table.map fun (name, symbol) =>
    (String.ofList name, .record [("line", .number symbol.line), ("column", .number symbol.column),
      ("type", .text symbol.type.text)]))

def symbolRecord (symbols : Symbols) : Written.Printable :=
  .record [("functions", symbolRecords symbols.functions), ("variables", symbolRecords symbols.values),
    ("custom_types", .list (symbols.sortedTypes.map fun name => .text (String.ofList name)))]

def symbolLine (symbol : Symbol) : String :=
  toString (symbol.line + 1) ++ ":" ++ toString (symbol.column + 1) ++ "  " ++ symbol.kind.name ++
    "  " ++ String.ofList symbol.name ++ "  " ++ symbol.type.text ++ "\n"

def symbolReport (json : Bool) (symbols : Symbols) : String :=
  if json then Written.pretty 0 (symbolRecord symbols) ++ "\n"
  else String.join (symbols.all.map symbolLine) ++
    String.join (symbols.sortedTypes.map fun name => "-        type      :" ++ String.ofList name ++ "\n")

/-- Without a width of its own, or with none at all, a layout has the width of the settings. -/
def layout (files : Files) (settings : Settings) (path : String) (inPlace : Bool)
    (indent : Option Int) (text : List Char) : Outcome :=
  let options : Layout.Options := ⟨(indent.filter (· != 0)).getD settings.formatting.indentSize.val, [' ']⟩
  match Layout.text options text with
  | .error excess => .faulty (.layout excess)
  | .ok laid =>
    let result := String.ofList laid
    if !inPlace then .printing 0 (result ++ "\n")
    else match files.target path with
      | .error error => .faulty (.unopenable error path)
      | .ok _ =>
        { Outcome.printing 0 ("Formatted: " ++ path ++ "\n") with writes := [(path, result)] }

def execute (files : Files) (settings : Settings) : Command → Outcome
  | .serve transport =>
    let service := (Service.fresh.install settings []).service
    { Outcome.quiet (.status 0) with served := some (service, transport) }
  | .lint _ _ none => .faulty .threshold
  | .lint paths json (some threshold) => lint files settings paths json threshold
  | .symbols path json => onSource files path fun text =>
    .printing 0 (symbolReport json (.ofText text))
  | .layout path inPlace indent =>
    onSource files path (layout files settings path inPlace indent)

def usage : String :=
  "usage: arturo-lsp [-h] [--version] [--config FILE] [--log-level LEVEL] [--log-file FILE] COMMAND\n" ++
  "  serve [--tcp] [--host HOST] [--port PORT]    answer an editor\n" ++
  "  lint [--json] [--severity LEVEL] FILE...     report issues\n" ++
  "  symbols [--json] FILE                        list variables, functions and types\n" ++
  "  format [-i] [--indent WIDTH] FILE            lay a file out\n"

section Run

variable (read : Raw.Reader) (validator : Settings.Validator)

/-- The settings of an invocation, with the files as they are once its log is open. The log is opened
before the level is looked at. -/
def prepare (surroundings : Surroundings) (invocation : Invocation) : Except Fault (Settings × Files) := do
  let files := surroundings.files
  let (settings, _) ← (Settings.load read validator files surroundings.home invocation.config []
    surroundings.environment).mapError Fault.ofObstacle
  let files ← match invocation.logFile.or (nonempty? settings.logging.file) with
    | some path => (files.openLog path).mapError fun error => Fault.unopenable error path
    | none => .ok files
  match levelError? (invocation.level.getD settings.logging.level) with
  | some error => .error (.level error)
  | none => .ok (settings, files)

def run (surroundings : Surroundings) (invocation : Invocation) : Outcome :=
  match prepare read validator surroundings invocation with
  | .error fault => .faulty fault
  | .ok (settings, files) => execute files settings invocation.command

def perform (surroundings : Surroundings) (args : List String) : Outcome :=
  match Invocation.ofArguments args with
  | .ok invocation => run read validator surroundings invocation
  | .error .help => .printing 0 usage
  | .error .version => .printing 0 "arturo-lsp 0.1.0\n"
  | .error .usage => { Outcome.quiet (.status 2) with reports := [usage] }

end Run

end ArturoInsight.CommandLine
