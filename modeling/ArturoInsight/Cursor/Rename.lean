import ArturoInsight.Cursor.Word

/-! Giving the word at the cursor a new name. Builtins and types keep theirs; a new name that is a
builtin is allowed with a warning. -/

namespace ArturoInsight

structure RenameError where
  newName : List Char
deriving DecidableEq, Repr

def RenameError.message (error : RenameError) : String :=
  "Invalid identifier: \"" ++ String.ofList error.newName ++
    "\". Must start with letter/underscore and contain only letters, numbers, hyphens, " ++
    "underscores, and optional '?' at end."

structure Renaming where
  uri : String
  edits : List Edit
  warnings : List String
deriving DecidableEq, Repr

namespace Analysis

def renamable? (analysis : Analysis) (position : Position) : Option WordSpan :=
  if analysis.isCodeAt position.line position.character then do
    let span ← analysis.wordAt position
    let before := span.before? (analysis.lineText span.line)
    if Catalog.shipped.isBuiltin span.word || (Catalog.shipped.type? span.word).isSome ||
        before == some ':' then none
    else some span
  else none

def shadowWarning (name : List Char) : String :=
  "Warning: \"" ++ String.ofList name ++ "\" conflicts with a built-in function."

/-- The edits that put a new name in place of every occurrence of the word at the cursor. -/
def rename (analysis : Analysis) (position : Position) (newName : List Char) :
    Except RenameError (Option Renaming) :=
  if Name.isIdentifier newName then
    .ok <| (analysis.renamable? position).map fun span =>
      { uri := analysis.uri
        edits := (analysis.occurrences span.word).map fun found => ⟨found.region, newName⟩
        warnings := if Catalog.shipped.isBuiltin newName then [shadowWarning newName] else [] }
  else .error ⟨newName⟩

end Analysis

end ArturoInsight
