import ArturoInsight.Files
import ArturoInsight.Settings.Merge

/-! Settings from files and the environment: the defaults, then the first file that can be used, then
what the environment says. -/

namespace ArturoInsight.Settings

inductive Obstacle where
  | undecodable (path : String)
  /-- The reader fails on a file in a way of its own. -/
  | broken (path : String)
  | unopenable (error : FileError) (path : String)
deriving DecidableEq, Repr

section

variable (read : Raw.Reader) (files : Files)

/-- The map in a settings file; a falsy value counts as an empty one. -/
def ofFile (path : String) : Except Obstacle (Except SettingsError Raw) :=
  let shown := (Path.ofString path).toString
  match files.read path with
  | .error .unnameable => .error (.unopenable .unnameable shown)
  | .error _ => .ok (.error (.unreadable shown))
  | .ok bytes =>
    match read bytes with
    | .error .undecodable => .error (.undecodable shown)
    | .error .broken => .error (.broken shown)
    | .error .refused => .ok (.error (.unreadable shown))
    | .ok (.map entries) => .ok (.ok (.map entries))
    | .ok raw => .ok (if raw.isFalsy then .ok (.map []) else .error (.fileNotMap shown))

/-- The override of the first candidate that exists and holds a map, with its path, and a notice for
each one before it that exists and does not. -/
def firstFile : List String → Except Obstacle (Option (String × Raw) × List Notice)
  | [] => .ok (none, [])
  | path :: rest =>
    match files.find path with
    | .error error => if error.isAbsence then firstFile rest else .error (.unopenable error path)
    | .ok _ => do
      match ← ofFile read files path with
      | .ok raw => .ok (some (path, raw), [])
      | .error _ =>
        let (found, notices) ← firstFile rest
        .ok (found, .settingsUnreadable path :: notices)

end

def searchPaths (home : Option String) : List String :=
  (home.map (· ++ "/.arturo-lsp/config.yaml")).toList ++ [".arturo-lsp.yaml"]

/-- The files that settings may come from: one that is named, or those that are to be searched, or else those of
every search. -/
def candidates (home : Option String) (named : Option String) (search : List String) : List String :=
  match named with
  | some path => [path]
  | none => if search.isEmpty then searchPaths home else search

def load (read : Raw.Reader) (validator : Validator) (files : Files) (home named : Option String) (search : List String)
    (environment : List (String × String)) : Except Obstacle (Settings × List Notice) := do
  let (found, notices) ← firstFile read files (candidates home named search)
  let (settings, fromFile) := match found with
    | some (path, raw) => default.apply validator raw path
    | none => (default, (named.map Notice.settingsMissing).toList)
  let (settings, fromEnvironment) := settings.apply validator (ofEnvironment environment) "environment"
  .ok (settings, notices ++ fromFile ++ fromEnvironment)

end ArturoInsight.Settings
