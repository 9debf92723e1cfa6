import ArturoInsight.CommandLine.Arguments
import ArturoInsight.Lint.Issue
import ArturoInsight.Text.Number

/-! What the program is asked to do. -/

namespace ArturoInsight.CommandLine

inductive Transport where
  | stdio
  | tcp (host : Option String) (port : Option Int)
deriving DecidableEq, Repr

inductive Command where
  | serve (transport : Transport)
  /-- A threshold that is left out is found to be none when the files are to be read. -/
  | lint (files : List String) (json : Bool) (threshold : Option Severity)
  | symbols (file : String) (json : Bool)
  | layout (file : String) (inPlace : Bool) (indent : Option Int)
deriving DecidableEq, Repr

structure Invocation where
  config : Option String
  level : Option String
  logFile : Option String
  command : Command
deriving DecidableEq, Repr

def anything (_ : String) : Bool := true

def isNumber (text : String) : Bool := (Text.number? text).isSome

def helpSwitches : List Switch := [⟨"-h", .help⟩, ⟨"--help", .help⟩]

def mainSwitches : List Switch :=
  helpSwitches ++
    [⟨"--version", .version⟩, ⟨"--config", .store "config" anything⟩,
     ⟨"--log-level", .store "level" anything⟩, ⟨"--log-file", .store "log" anything⟩]

def nonempty? (text : Option String) : Option String := text.filter fun text => !text.isEmpty

def Reading.said? (reading : Reading) (name : String) : Option String := (reading.stored? name).join

def Reading.saidOr (reading : Reading) (name standing : String) : Option String :=
  (reading.stored? name).getD (some standing)

def jsonSwitch : Switch := ⟨"--json", .mark "json"⟩

abbrev Build := Reading → Option Command

def command? (name : String) : Option (List Switch × Operands × Build) :=
  match name with
  | "serve" => some
    ([⟨"--tcp", .mark "tcp"⟩, ⟨"--host", .store "host" anything⟩,
      ⟨"--port", .store "port" isNumber⟩], .none, fun reading =>
      let port := (reading.saidOr "port" "2087").bind Text.number?
      some (.serve (if reading.has "tcp" then .tcp (reading.saidOr "host" "127.0.0.1") port
        else .stdio)))
  | "lint" => some
    ([jsonSwitch, ⟨"--severity", .store "severity" fun name => (Severity.ofName? name).isSome⟩],
      .many, fun reading =>
      let threshold := (reading.saidOr "severity" "hint").bind Severity.ofName?
      if reading.operands.isEmpty then none
      else some (.lint reading.operands (reading.has "json") threshold))
  | "symbols" => some
    ([jsonSwitch], .one, fun reading =>
      reading.operands.head?.map fun file => .symbols file (reading.has "json"))
  | "format" => some
    ([⟨"-i", .mark "inplace"⟩, ⟨"--inplace", .mark "inplace"⟩,
      ⟨"--indent", .store "indent" isNumber⟩], .one, fun reading =>
      reading.operands.head?.map fun file =>
        .layout file (reading.has "inplace") ((reading.said? "indent").bind Text.number?))
  | _ => none

def Invocation.ofArguments (args : List String) : Except Stop Invocation := do
  let outer ← Reading.ofArguments mainSwitches .command args
  match outer.operands with
  | [] => .error (if outer.extras.isEmpty then .help else .usage)
  | name :: rest =>
    match command? name with
    | none => .error .usage
    | some (switches, operands, build) => do
      let inner ← Reading.ofArguments (helpSwitches ++ switches) operands rest
      match build inner, outer.extras ++ inner.extras with
      | some command, [] =>
        .ok ⟨nonempty? (outer.said? "config"), nonempty? (outer.said? "level"),
          nonempty? (outer.said? "log"), command⟩
      | _, _ => .error .usage

end ArturoInsight.CommandLine
