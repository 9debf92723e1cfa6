import ArturoInsight.Catalog.Basic
import ArturoInsight.Files
import ArturoInsight.Raw.Checked

/-! Catalogs from raw data. Falsy parts count as empty; keys that name nothing are passed over. What counts as a text is
for others to say. -/

namespace ArturoInsight

inductive CatalogError where
  | missing (path : String)
  | notMap (kind : String)
  | unreadable
  | undecodable
  /-- A file that its reader fails on in a way of its own. -/
  | broken
  | unopenable (error : FileError)
  | invalid (findings : List Finding)
  /-- The part for functions is something other than a map. -/
  | functionsNotMap
  /-- The entry of one function is something other than a map. -/
  | functionNotMap
deriving DecidableEq, Repr

def CatalogError.message? : CatalogError → Option String
  | missing path => some ("Catalog file not found: " ++ path)
  | notMap kind => some ("Catalog must be a YAML mapping, got <class '" ++ kind ++ "'>")
  | _ => none

namespace Catalog

def part? (entries : List (Key × Raw)) (key : String) : Option Raw :=
  (Raw.get? entries key).filter fun raw => !raw.isFalsy

def functionEntry : Key × Raw → Except CatalogError (Key × List (Key × Raw))
  | (name, .map fields) => .ok (name, fields)
  | (name, raw) => if raw.isFalsy then .ok (name, []) else .error .functionNotMap

def functionEntries (entries : List (Key × Raw)) : Except CatalogError (List (Key × List (Key × Raw))) :=
  match part? entries "functions" with
  | none => .ok []
  | some (.map functions) => functions.mapM functionEntry
  | some _ => .error .functionsNotMap

def items? : Raw → Option (List Raw)
  | .list items | .set items => some items
  | _ => none

def indexed (path : List String) (check : List String → Raw → Checked α) (items : List Raw) :
    Checked (List α) :=
  items.zipIdx.mapM fun (item, index) => check (path ++ [toString index]) item

section Reading

variable (validator : TextValidator)

def textAt (path : List String) (raw : Raw) : Checked String := Checked.read path "" validator.read raw

def keyAt (path : List String) (key : Key) : Checked String := textAt validator (path ++ [key.shown, "[key]"]) key.raw

def readNames (path : List String) (part : Option Raw) : Checked (List String) :=
  match part with
  | none => pure []
  | some raw =>
    match items? raw with
    | some items => do pure (← indexed path (textAt validator) items).eraseDups
    | none => Checked.flawed path .notSet []

def readTypes (path : List String) : Option Raw → Checked (List (String × String))
  | none => pure []
  | some (.map entries) => do
    let types ← entries.mapM fun (key, raw) => do
      pure (← keyAt validator path key, ← textAt validator (path ++ [key.shown]) raw)
    pure (Table.collect types)
  | some _ => Checked.flawed path .notTable []

def required (path : List String) (entries : List (Key × Raw)) (key : String) : Checked String :=
  match Raw.get? entries key with
  | some raw => textAt validator (path ++ [key]) raw
  | none => Checked.flawed (path ++ [key]) .missing ""

def optional (path : List String) (entries : List (Key × Raw)) (key default : String) : Checked String :=
  match Raw.get? entries key with
  | some raw => textAt validator (path ++ [key]) raw
  | none => pure default

def readParameter (path : List String) : Raw → Checked Parameter
  | .map entries => do
    let name ← required validator path entries "name"
    let type ← optional validator path entries "type" ":any"
    pure { name, type }
  | _ => Checked.flawed path .notRecord default

def readParameters (path : List String) (part : Option Raw) : Checked (List Parameter) :=
  match part with
  | none => pure []
  | some raw =>
    match items? raw with
    | some items => indexed path (readParameter validator) items
    | none => Checked.flawed path .notList []

/-- What is known of a function. Its name is the one that its entry stands under, unless it has one of its own. -/
def readSignature (path : List String) (name : Key) (entries : List (Key × Raw)) : Checked Signature := do
  let name ← textAt validator (path ++ ["name"]) ((Raw.get? entries "name").getD name.raw)
  let usage ← required validator path entries "signature"
  let description ← optional validator path entries "description" ""
  let params ← readParameters validator (path ++ ["params"]) (Raw.get? entries "params")
  let returns ← optional validator path entries "returns" ":any"
  pure { name, usage, description, params, returns }

def readParts (entries : List (Key × Raw)) (functions : List (Key × List (Key × Raw))) : Checked Catalog := do
  let names key := readNames validator [key] (part? entries key)
  let types ← readTypes validator ["types"] (part? entries "types")
  let words ← names "builtin_names"
  let attributes ← names "attributes"
  let colors ← names "colors"
  let units ← names "units"
  let functions ← functions.mapM fun (name, fields) => do
    pure (← keyAt validator ["functions"] name, ← readSignature validator ["functions", name.shown] name fields)
  pure { types, words, attributes, colors, units, functions := Table.collect functions }

def ofRaw : Raw → Except CatalogError Catalog
  | .map entries => do
    let functions ← functionEntries entries
    ((readParts validator entries functions).result).mapError .invalid
  | other => .error (.notMap other.kind)

end Reading

end Catalog

end ArturoInsight
