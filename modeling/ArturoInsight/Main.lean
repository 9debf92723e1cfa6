import ArturoInsight.CommandLine.Run
import ArturoInsight.Settings.Lax
import ArturoInsight.Written.Reader

/-! The program: looks at the files that its arguments name, works the command out, and hands on what
came of it. -/

namespace ArturoInsight.Main

open CommandLine

/-- What may not be opened is taken to be there, and what else cannot be read as a file for a directory. Nothing asks
for the places below a file or for names that are too long. -/
def entryAt? (path : String) : IO (Option Entry) := do
  if path.toList.contains '\x00' then return none
  try
    return some (.file (← IO.FS.readBinFile path))
  catch
    | .noFileOrDirectory .. => return none
    | .permissionDenied .. => return some (.barred 13 "Permission denied")
    | _ => return some .directory

def stations (path : String) : List Place :=
  let path := Path.ofString path
  (List.range (path.names.length + 1)).map fun count =>
    (path.names.take count).foldl Place.step (.start path.slashes)

def look (paths : List String) : IO Files := do
  let mut entries := []
  for place in (paths.flatMap fun path => Place.ofString path :: stations path).eraseDups do
    if let some entry ← entryAt? place.path.toString then
      entries := (place, entry) :: entries
  return ⟨entries⟩

def named (home : Option String) (invocation : Invocation) (log : Option String) : List String :=
  let sources := match invocation.command with
    | .serve _ => []
    | .lint files _ _ => files
    | .symbols file _ => [file]
    | .layout file _ _ => [file]
  invocation.config.toList ++ Settings.searchPaths home ++ sources ++
    (invocation.logFile.or log).toList.flatMap fun path =>
      [path, (Place.ofString path).up.path.toString]

def environment : IO (List (String × String)) := do
  let mut found := []
  for (name, _, _) in Settings.environmentKeys do
    if let some value ← IO.getEnv name then
      found := (name, value) :: found
  return found

def surroundings (args : List String) : IO Surroundings := do
  let home ← IO.getEnv "HOME"
  let environment ← environment
  match Invocation.ofArguments args with
  | .error _ => return ⟨⟨[]⟩, environment, home⟩
  | .ok invocation =>
    let files ← look (named home invocation none)
    let log := match Settings.load Written.read .lax files home invocation.config [] environment with
      | .ok (settings, _) => settings.logging.file
      | .error _ => none
    return ⟨← look (named home invocation log), environment, home⟩

def explain : Fault → String
  | .undecodable path => "not UTF-8: " ++ path
  | .broken path => "not readable: " ++ path
  | .unopenable error path => ((error.reason?.map (·.2)).getD "Not a path") ++ ": " ++ path
  | .level _ => "not a level"
  | .threshold => "no severity"
  | .layout _ => "too wide"

def handOn (outcome : Outcome) : IO UInt32 := do
  for report in outcome.reports do
    IO.eprintln report
  IO.print outcome.output
  for (path, text) in outcome.writes do
    IO.FS.writeFile path text
  if outcome.served.isSome then
    IO.eprintln "arturo-lsp: no transport is linked to the service"
    return 1
  match outcome.ending with
  | .status code => return UInt32.ofNat code
  | .fault fault =>
    IO.eprintln ("arturo-lsp: " ++ explain fault)
    return 1

end ArturoInsight.Main

def main (args : List String) : IO UInt32 := do
  ArturoInsight.Main.handOn
    (ArturoInsight.CommandLine.perform ArturoInsight.Written.read .lax
      (← ArturoInsight.Main.surroundings args) args)
