import ArturoInsight.Text.Cut

/-! The catalog of what the language brings along: words, function signatures, attributes, types,
units and colors. -/

namespace ArturoInsight

structure Parameter where
  name : String
  type : String
deriving DecidableEq, Repr, Inhabited

structure Signature where
  name : String
  usage : String
  description : String
  params : List Parameter
  returns : String
deriving DecidableEq, Repr, Inhabited

/-- Words outside `functions` are builtin too, but nothing more is known of them. -/
structure Catalog where
  types : List (String × String)
  words : List String
  attributes : List String
  colors : List String
  units : List String
  functions : List (String × Signature)
deriving DecidableEq, Repr, Inhabited

def sortedNames (names : List String) : List String :=
  names.mergeSort fun left right => Text.atMost left.toList right.toList

namespace Catalog

def function? (catalog : Catalog) (word : List Char) : Option Signature :=
  catalog.functions.lookup (String.ofList word)

def type? (catalog : Catalog) (word : List Char) : Option String :=
  catalog.types.lookup (String.ofList word)

def isBuiltin (catalog : Catalog) (word : List Char) : Bool :=
  catalog.words.contains (String.ofList word) || (catalog.function? word).isSome

def isAttribute (catalog : Catalog) (word : List Char) : Bool :=
  catalog.attributes.contains (String.ofList word)

def isColor (catalog : Catalog) (word : List Char) : Bool :=
  catalog.colors.contains (String.ofList word)

def isUnit (catalog : Catalog) (word : List Char) : Bool :=
  catalog.units.contains (String.ofList word)

def builtins (catalog : Catalog) : List String :=
  sortedNames (catalog.words ++ catalog.functions.map (·.1)).eraseDups

end Catalog

end ArturoInsight
