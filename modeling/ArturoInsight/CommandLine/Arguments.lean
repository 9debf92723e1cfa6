import ArturoInsight.Text.Cut

/-! Reading arguments. Switches may be shortened as long as only one is meant, may carry a value after
an equals sign, and may stand before or after the operands; short ones may share a hyphen. -/

namespace ArturoInsight.CommandLine

inductive Effect where
  | help
  | version
  | mark (name : String)
  | store (name : String) (accepts : String → Bool)

def Effect.takesValue : Effect → Bool
  | store .. => true
  | _ => false

structure Switch where
  spelling : String
  effect : Effect

/-- What a command takes beside switches. After a command's name everything belongs to it. -/
inductive Operands where
  | none | one | many | command
deriving DecidableEq, Repr

inductive Stop where
  | usage | help | version
deriving DecidableEq, Repr

inductive Word where
  | value (text : String)
  | separator
  | switch (known : Option Switch) (attached : Option String) (text : String)

namespace Word

def text : Word → String
  | value text => text
  | separator => "--"
  | switch _ _ text => text

def isSwitch : Word → Bool
  | switch .. => true
  | _ => false

def isSeparator : Word → Bool
  | separator => true
  | _ => false

end Word

def spelled? (switches : List Switch) (spelling : String) : Option Switch :=
  switches.find? fun known => known.spelling == spelling

def splitAttached (arg : String) : String × Option String :=
  match Text.upTo? '=' arg.toList with
  | some (name, value) => (String.ofList name, some (String.ofList value))
  | none => (arg, none)

/-- The switches that an argument may be short for, each with what is attached to it. -/
def candidates (switches : List Switch) (arg : String) : List (Switch × Option String) :=
  if "--".isPrefixOf arg then
    let (name, attached) := splitAttached arg
    (switches.filter fun known => name.isPrefixOf known.spelling).map fun known => (known, attached)
  else switches.filterMap fun known =>
    if known.spelling.toList == arg.toList.take 2 then
      some (known, some (String.ofList (arg.toList.drop 2)))
    else if arg.isPrefixOf known.spelling then some (known, none)
    else none

/-- A hyphen before digits, perhaps with a point among them, and perhaps with a line feed at the end. -/
def isNegativeNumber (arg : List Char) : Bool :=
  match if arg.getLast? == some '\n' then arg.dropLast else arg with
  | '-' :: rest =>
    match Text.upTo? '.' rest with
    | none => !rest.isEmpty && rest.all Text.isDigit
    | some (whole, part) => whole.all Text.isDigit && !part.isEmpty && part.all Text.isDigit
  | _ => false

def word? (switches : List Switch) (arg : String) : Option Word :=
  if arg.toList.head? != some '-' || arg == "-" then some (.value arg)
  else match spelled? switches arg with
    | some known => some (.switch known none arg)
    | none =>
      let (name, attached) := splitAttached arg
      match attached.bind fun _ => spelled? switches name, candidates switches arg with
      | some known, _ => some (.switch known attached arg)
      | none, [(known, attached)] => some (.switch known attached arg)
      | none, _ :: _ :: _ => none
      | none, [] =>
        if isNegativeNumber arg.toList || arg.toList.contains ' ' then some (.value arg)
        else some (.switch none none arg)

def words? (switches : List Switch) : List String → Option (List Word)
  | [] => some []
  | arg :: rest =>
    if arg == "--" then some (.separator :: rest.map .value)
    else do some ((← word? switches arg) :: (← words? switches rest))

structure Reading where
  /-- The switches with a value, the last one first. A value may be left out. -/
  stored : List (String × Option String)
  marks : List String
  waiting : Operands
  operands : List String
  extras : List String

namespace Reading

def start (operands : Operands) : Reading := ⟨[], [], operands, [], []⟩

def valued? (attached : String) : Option String := if attached == "--" then none else some attached

def perform (reading : Reading) (effect : Effect) (value : Option String) : Except Stop Reading :=
  match effect with
  | .help => .error .help
  | .version => .error .version
  | .mark name => .ok { reading with marks := name :: reading.marks }
  | .store name accepts =>
    if value.all accepts then .ok { reading with stored := (name, value) :: reading.stored }
    else .error .usage

def cluster? (switches : List Switch) : List Char → Option (List Effect)
  | [] => some []
  | c :: rest => do
    let known ← spelled? switches (String.ofList ['-', c])
    if known.effect.takesValue then none else some (known.effect :: (← cluster? switches rest))

/-- A switch with the words after it, of which it takes one where it needs a value. -/
def addSwitch (switches : List Switch) (reading : Reading) (known : Switch)
    (attached : Option String) (rest : List Word) : Except Stop (Reading × List Word) :=
  match known.effect.takesValue, attached, rest with
  | true, some value, _ => do .ok (← reading.perform known.effect (valued? value), rest)
  | true, none, .value value :: rest => do .ok (← reading.perform known.effect (some value), rest)
  | true, none, _ => .error .usage
  | false, none, _ => do .ok (← reading.perform known.effect none, rest)
  | false, some more, _ =>
    if "--".isPrefixOf known.spelling || more.isEmpty then .error .usage
    else match cluster? switches more.toList with
      | none => .error .usage
      | some effects => do
        .ok (← (known.effect :: effects).foldlM (fun reading effect => reading.perform effect none)
          reading, rest)

def operands? (waiting : Operands) (words : List Word) : Option (List String × List Word) :=
  match waiting, words.dropWhile Word.isSeparator with
  | .none, _ | _, [] | _, .separator :: _ | _, .switch .. :: _ => none
  | .command, _ => some (words.map Word.text, [])
  | .one, .value text :: rest => some ([text], rest.dropWhile Word.isSeparator)
  | .many, _ =>
    let taken := words.takeWhile fun word => !word.isSwitch
    some ((taken.map Word.text).erase "--", words.dropWhile fun word => !word.isSwitch)

def addWords (switches : List Switch) : Nat → Reading → List Word → Except Stop Reading
  | 0, reading, _ => .ok reading
  | fuel + 1, reading, words =>
    match words with
    | .switch (some known) attached _ :: rest => do
      let (reading, rest) ← addSwitch switches reading known attached rest
      addWords switches fuel reading rest
    | .switch none _ text :: rest =>
      addWords switches fuel { reading with extras := reading.extras ++ [text] } rest
    | _ =>
      match operands? reading.waiting words with
      | some (operands, rest) =>
        addWords switches fuel { reading with waiting := .none, operands } rest
      | none =>
        let skipped := (words.takeWhile fun word => !word.isSwitch).map Word.text
        let reading := { reading with extras := reading.extras ++ skipped }
        match words.dropWhile fun word => !word.isSwitch with
        | [] => .ok reading
        | rest => addWords switches fuel reading rest

def ofArguments (switches : List Switch) (operands : Operands) (args : List String) :
    Except Stop Reading :=
  match words? switches args with
  | none => .error .usage
  | some words => addWords switches (2 * words.length + 2) (start operands) words

def stored? (reading : Reading) (name : String) : Option (Option String) := reading.stored.lookup name

def has (reading : Reading) (name : String) : Bool := reading.marks.contains name

end Reading

end ArturoInsight.CommandLine
