import ArturoInsight.Document.Analysis

/-! What may be written at the cursor: attributes after a point, types after a colon, units after a
backtick, colors after a hash sign, and anywhere else all builtins, types and symbols. -/

namespace ArturoInsight

inductive ItemKind where
  | function | plain | type | attribute | unit | color
deriving DecidableEq, Repr

structure Item where
  label : String
  kind : ItemKind
  detail : String
  documentation : String
deriving DecidableEq, Repr

namespace Item

def attributes (catalog : Catalog) : List Item :=
  (sortedNames catalog.attributes).map fun name =>
    ⟨name, .attribute, "Attribute", "Function attribute: ." ++ name⟩

def units (catalog : Catalog) : List Item :=
  (sortedNames catalog.units).map fun name => ⟨name, .unit, "Unit", "Physical unit: `" ++ name⟩

def colors (catalog : Catalog) : List Item :=
  (sortedNames catalog.colors).map fun name => ⟨name, .color, "Color", "Named color: #" ++ name⟩

def types (catalog : Catalog) (defined : List (List Char)) (mark : String) : List Item :=
  (catalog.types.map fun (name, description) => ⟨mark ++ name, .type, "Type", description⟩) ++
    (Text.sorted defined).map fun name =>
      let name := String.ofList name
      ⟨mark ++ name, .type, "Custom Type", "User-defined type: " ++ name⟩

def builtins (catalog : Catalog) : List Item :=
  catalog.builtins.map fun name =>
    match catalog.functions.lookup name with
    | some signature => ⟨name, .function, signature.usage, signature.description⟩
    | none => ⟨name, .function, "Builtin function", "Arturo builtin function"⟩

def symbols (symbols : Symbols) : List Item :=
  (symbols.values.map fun (name, symbol) =>
    ⟨String.ofList name, .plain, symbol.type.text, "User-defined variable"⟩) ++
  (symbols.functions.map fun (name, symbol) =>
    ⟨String.ofList name, .function, symbol.type.text, "User-defined function"⟩)

def anywhere (catalog : Catalog) (analysis? : Option Analysis) : List Item :=
  let known := (analysis?.map (·.symbols)).getD .empty
  builtins catalog ++ types catalog known.types ":" ++ symbols known

end Item

/-- Inside strings and comments nothing is offered; without a document only what is shipped. -/
def complete (analysis? : Option Analysis) (position : Position) : List Item :=
  let catalog := Catalog.shipped
  match analysis?.bind fun analysis => (analysis.line? position.line).map fun text => (analysis, text) with
  | none => Item.anywhere catalog analysis?
  | some (analysis, text) =>
    if !analysis.isCodeAt position.line position.character then []
    else match (text.take position.character).getLast? with
      | some '.' => Item.attributes catalog
      | some ':' => Item.types catalog analysis.symbols.types ""
      | some '\x60' => Item.units catalog
      | some '#' => Item.colors catalog
      | _ => Item.anywhere catalog analysis?

end ArturoInsight
