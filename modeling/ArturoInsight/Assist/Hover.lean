import ArturoInsight.Cursor.Word

/-! What to show for the word at the cursor, in Markdown. -/

namespace ArturoInsight

structure Hover where
  text : String
  region : Region
deriving DecidableEq, Repr

namespace Hover

def bold (word : String) : String := "**" ++ word ++ "**"

def ofAttribute (word : String) : String :=
  bold ("." ++ word) ++ " (attribute)\n\nFunction attribute parameter"

def ofSignature (word : String) (signature : Signature) : String :=
  bold word ++ " (builtin)\n\n" ++ signature.description ++ "\n\n```arturo\n" ++ signature.usage ++
    "\n```"

def ofBuiltin (word : String) : String := bold word ++ " (builtin function)"

def ofType (word description : String) : String :=
  bold (":" ++ word) ++ " (type)\n\n" ++ description

def ofSymbol (word : String) (symbol : Symbol) : String :=
  bold word ++ " (" ++ symbol.kind.name ++ ")\n\nType: `" ++ symbol.type.text ++ "`"

/-- Attributes come first, then builtins, shipped types, defined types and symbols. -/
def describe? (catalog : Catalog) (symbols : Symbols) (before : Option Char) (word : List Char) :
    Option String :=
  let name := String.ofList word
  if before == some '.' && catalog.isAttribute word then some (ofAttribute name)
  else if catalog.isBuiltin word then
    some (((catalog.function? word).map (ofSignature name)).getD (ofBuiltin name))
  else
    let type := if before == some ':' then
        (catalog.type? word).or (if symbols.types.contains word then some "User-defined type" else none)
      else none
    (type.map (ofType name)).or ((symbols.lookup? word).map (ofSymbol name))

end Hover

def Analysis.hover? (analysis : Analysis) (position : Position) : Option Hover :=
  if analysis.isCodeAt position.line position.character then do
    let span ← analysis.wordAt position
    let before := span.before? (analysis.lineText position.line)
    let text ← Hover.describe? Catalog.shipped analysis.symbols before span.word
    some ⟨text, span.region⟩
  else none

end ArturoInsight
