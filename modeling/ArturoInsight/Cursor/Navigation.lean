import ArturoInsight.Cursor.Word

/-! Where the word at the cursor was bound and where it is used. Builtin words have no uses. -/

namespace ArturoInsight.Analysis

/-- The last binding of the word at the cursor, unless the cursor is in a string or a comment. -/
def definition? (analysis : Analysis) (position : Position) : Option Location :=
  if analysis.isCodeAt position.line position.character then do
    let span ← analysis.wordAt position
    let symbol ← analysis.symbols.lookup? span.word
    some ⟨analysis.uri, .onLine symbol.line symbol.column symbol.stop⟩
  else none

def uses (analysis : Analysis) (position : Position) : List Region :=
  match analysis.wordAt position with
  | none => []
  | some span =>
    if Catalog.shipped.isBuiltin span.word then []
    else (analysis.occurrences span.word).map (·.region)

def references (analysis : Analysis) (position : Position) : List Location :=
  (analysis.uses position).map fun region => ⟨analysis.uri, region⟩

end ArturoInsight.Analysis
