import ArturoInsight.Document.Analysis

/-! The symbols of a document as an outline, and the search for symbols over many documents. -/

namespace ArturoInsight

open Text

structure OutlineEntry where
  name : List Char
  detail : String
  kind : SymbolKind
  region : Region
  selection : Region
deriving DecidableEq, Repr

def Analysis.outline (analysis : Analysis) : List OutlineEntry :=
  analysis.symbols.all.map fun symbol =>
    { name := symbol.name
      detail := symbol.type.text
      kind := symbol.kind
      region := .onLine symbol.line 0 (analysis.lineText symbol.line).length
      selection := .onLine symbol.line symbol.column symbol.stop }

structure SearchHit where
  name : List Char
  kind : SymbolKind
  location : Location
  container : String
deriving DecidableEq, Repr

/-- The small form of a character, for names: of the others only the Kelvin sign has a letter. -/
def fold (c : Char) : Char := if c = '\u212a' then 'k' else lower c

def lastPart (uri : String) : String :=
  let trimmed := (uri.toList.reverse.dropWhile (· == '/'))
  String.ofList (trimmed.takeWhile (· != '/')).reverse

def searchSymbols (documents : List Analysis) (query : List Char) : List SearchHit :=
  documents.flatMap fun analysis =>
    (analysis.symbols.all.filter fun symbol =>
        occursIn (query.map fold) (symbol.name.map fold)).map fun symbol =>
      { name := symbol.name
        kind := symbol.kind
        location := ⟨analysis.uri, .onLine symbol.line symbol.column symbol.stop⟩
        container := lastPart analysis.uri }

end ArturoInsight
