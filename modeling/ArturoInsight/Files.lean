import ArturoInsight.Text.Cut

/-! The files that a command can see, and what becomes of them when it opens one to write. -/

namespace ArturoInsight

open Text

/-- A path as it is written: the slashes in front that count, and the names after them. -/
structure Path where
  slashes : Nat
  names : List (List Char)
deriving DecidableEq, Repr

namespace Path

def allNames (path : String) : List (List Char) :=
  (pieces (· == '/') path.toList).filter fun name => !name.isEmpty

def leading (path : List Char) : Nat :=
  match (path.takeWhile (· == '/')).length with
  | 0 => 0
  | 2 => 2
  | _ => 1

def ofString (path : String) : Path where
  slashes := leading path.toList
  names := (allNames path).filter (· != ['.'])

def toString (path : Path) : String :=
  if path.slashes = 0 ∧ path.names = [] then "."
  else String.ofList (List.replicate path.slashes '/' ++ ['/'].intercalate path.names)

end Path

inductive Origin where
  | root
  /-- So many directories above the one that the command runs in. -/
  | above (levels : Nat)
deriving DecidableEq, Repr

structure Place where
  origin : Origin
  names : List (List Char)
deriving DecidableEq, Repr

namespace Place

def start (slashes : Nat) : Place := ⟨if slashes = 0 then .above 0 else .root, []⟩

def up (place : Place) : Place :=
  match place.names, place.origin with
  | [], .above levels => ⟨.above (levels + 1), []⟩
  | names, origin => ⟨origin, names.dropLast⟩

def step (place : Place) (name : List Char) : Place :=
  if name = ['.'] then place
  else if name = ['.', '.'] then place.up
  else { place with names := place.names ++ [name] }

def ofString (path : String) : Place :=
  let path := Path.ofString path
  path.names.foldl step (start path.slashes)

def path (place : Place) : Path :=
  match place.origin with
  | .root => ⟨1, place.names⟩
  | .above levels => ⟨0, List.replicate levels ['.', '.'] ++ place.names⟩

end Place

inductive FileError where
  | missing | isDirectory | notDirectory | tooLong
  /-- A null character stands in the path. -/
  | unnameable
  /-- Any other refusal, by its number and its wording. -/
  | refused (number : Nat) (reason : String)
deriving DecidableEq, Repr

namespace FileError

def denied : FileError := .refused 13 "Permission denied"

def reason? : FileError → Option (Nat × String)
  | missing => some (2, "No such file or directory")
  | notDirectory => some (20, "Not a directory")
  | isDirectory => some (21, "Is a directory")
  | tooLong => some (36, "File name too long")
  | refused number reason => some (number, reason)
  | unnameable => none

def absences : List Nat := [2, 9, 20, 40]

/-- A lookup that fails in any other way does not tell whether something is there. -/
def isAbsence (error : FileError) : Bool := error.reason?.all fun (number, _) => absences.contains number

end FileError

inductive Entry where
  | directory
  | file (bytes : ByteArray)
  /-- A directory in which nobody may look anything up. -/
  | sealed
  /-- Something that is there and cannot be opened, with the number and the wording of the refusal. -/
  | barred (number : Nat) (reason : String)
  /-- Something that cannot even be looked up. -/
  | hidden (number : Nat) (reason : String)

/-- Entries by place. What holds an entry is a directory. -/
structure Files where
  entries : List (Place × Entry)

namespace Files

def nameLimit : Nat := 255
def pathLimit : Nat := 4095

def at? (files : Files) (place : Place) : Option Entry :=
  if place.names.isEmpty then some .directory
  else match files.entries.find? fun entry => entry.1 == place with
    | some (_, entry) => some entry
    | none =>
      let holds other := other.origin == place.origin && place.names.isPrefixOf other.names
      if files.entries.any fun entry => holds entry.1 then some .directory else none

def enter (files : Files) (here : Place) (name : List Char) : Except FileError Place :=
  match files.at? here with
  | none => .error .missing
  | some (.file _) | some (.barred ..) => .error .notDirectory
  | some .sealed => .error .denied
  | some (.hidden number reason) => .error (.refused number reason)
  | some .directory =>
    if nameLimit < (String.ofList name).utf8ByteSize then .error .tooLong else .ok (here.step name)

def walk (files : Files) (here : Place) (names : List (List Char)) : Except FileError Place :=
  names.foldlM files.enter here

def checkPath (path : String) : Except FileError Unit :=
  if path.toList.contains '\x00' then .error .unnameable
  else if pathLimit < path.utf8ByteSize then .error .tooLong
  else .ok ()

def find (files : Files) (path : String) : Except FileError Entry := do
  let target := Path.ofString path
  checkPath target.toString
  let place ← files.walk (.start target.slashes) target.names
  match files.at? place with
  | some (.hidden number reason) => .error (.refused number reason)
  | some entry => .ok entry
  | none => .error .missing

def read (files : Files) (path : String) : Except FileError ByteArray := do
  match ← files.find path with
  | .file bytes => .ok bytes
  | .directory | .sealed => .error .isDirectory
  | .barred number reason | .hidden number reason => .error (.refused number reason)

/-- Where a text goes that is written to a path with these names: no directory takes one. -/
def openAt (files : Files) (here : Place) (names : List (List Char)) : Except FileError Place :=
  match names.getLast? with
  | none => .error .isDirectory
  | some last => do
    let place ← files.enter (← files.walk here names.dropLast) last
    match files.at? place with
    | some .directory | some .sealed => .error .isDirectory
    | some (.barred number reason) | some (.hidden number reason) => .error (.refused number reason)
    | some (.file _) | none => .ok place

/-- Where a new text for a path goes. Single points ask for directories too, and with a slash at its
end a path names no file. -/
def target (files : Files) (path : String) : Except FileError Place := do
  checkPath path
  let place ← files.openAt (.start (Path.leading path.toList)) (Path.allNames path)
  if path.toList.getLast? == some '/' then .error .isDirectory else .ok place

/-- The files once a log is open, which is made where there is none. Two points in its path are worked
out before anything is looked up. -/
def openLog (files : Files) (path : String) : Except FileError Files := do
  let resolved := Place.ofString path
  checkPath resolved.path.toString
  let place ← files.openAt ⟨resolved.origin, []⟩ resolved.names
  match files.at? place with
  | some _ => .ok files
  | none => .ok ⟨(place, .file ByteArray.empty) :: files.entries⟩

end Files

def unifyBreaks : List Char → List Char
  | [] => []
  | '\r' :: '\n' :: rest => '\n' :: unifyBreaks rest
  | c :: rest => (if c = '\r' then '\n' else c) :: unifyBreaks rest

def decode? (bytes : ByteArray) : Option (List Char) :=
  (String.fromUTF8? bytes).map fun text => unifyBreaks text.toList

end ArturoInsight
