import ArturoInsight.Document.Analysis

/-! Semantic tokens: comments, strings and the words of a document that mean something, as five
numbers each. -/

namespace ArturoInsight

open Text Lexical

inductive TokenKind where
  | function | plain | parameter | attribute | keyword | comment | string | number | operator | type
deriving DecidableEq, Repr

def TokenKind.index : TokenKind → Nat
  | function => 0
  | plain => 1
  | parameter => 2
  | .attribute => 3
  | keyword => 4
  | comment => 5
  | string => 6
  | number => 7
  | operator => 8
  | type => 9

structure Token where
  line : Int
  start : Int
  length : Int
  kind : Int
  modifiers : Int
deriving DecidableEq, Repr

namespace Token

/-- Bits for what is declared here, cannot be changed, and belongs to the language. -/
def declared : Nat := 1
def fixed : Nat := 2
def shipped : Nat := 4

def fields (token : Token) : List Int :=
  [token.line, token.start, token.length, token.kind, token.modifiers]

def inOrder : List Int → List Int → Bool
  | left :: lefts, right :: rights => left < right || (left == right && inOrder lefts rights)
  | _, _ => true

def before (left right : Token) : Bool := inOrder left.fields right.fields

def make (line start length : Nat) (kind : TokenKind) (modifiers : Nat) : Token :=
  ⟨line, start, length, kind.index, modifiers⟩

def keywords : List String :=
  ["if", "loop", "while", "until", "when", "unless", "switch", "case", "do", "function", "method",
   "return", "break", "continue"]

def meaning? (analysis : Analysis) (line column : Nat) (before : Option Char) (word : List Char) :
    Option (TokenKind × Nat) :=
  let catalog := Catalog.shipped
  if before == some ':' then
    if (catalog.type? word).isSome || analysis.symbols.types.contains word then some (.type, fixed)
    else none
  else if before == some '.' then
    if catalog.isAttribute word then some (.attribute, 0) else none
  else if keywords.contains (String.ofList word) then some (.keyword, 0)
  else if catalog.isBuiltin word then some (.function, fixed + shipped)
  else match analysis.symbols.lookup? word with
    | some symbol =>
      let here := symbol.line == line && symbol.column == column
      some (if symbol.isFunction then .function else .plain, if here then declared else 0)
    | none =>
      if analysis.quasi.parameters.contains word then some (.parameter, 0)
      else if word.all isAsciiDigit then some (.number, 0)
      else none

def word : Reader (Option Char × List Char) := fun before rest =>
  if before.any isNamePart then none
  else (Name.token? rest).map fun (word, tail) => ((before, word), tail)

def ofSpans (line : Nat) (scan : Scan) : List Token :=
  scan.spans.filterMap fun span =>
    let length := (span.stop - span.start).toNat
    if span.tag = .comment then some (make line span.start.toNat length .comment 0)
    else if span.tag.isString then some (make line span.start.toNat length .string 0)
    else none

def ofWords (analysis : Analysis) (line : Nat) (scan : Scan) : List Token :=
  (finds word scan.text).filterMap fun found =>
    if scan.codeAt found.start then
      (meaning? analysis line found.start found.value.1 found.value.2).map fun (kind, modifiers) =>
        make line found.start found.value.2.length kind modifiers
    else none

def encodeFrom (line start : Int) : List Token → List Int
  | [] => []
  | token :: rest =>
    let column := if token.line = line then token.start - start else token.start
    [token.line - line, column, token.length, token.kind, token.modifiers] ++
      encodeFrom token.line token.start rest

def encode (tokens : List Token) : List Int := encodeFrom 0 0 tokens

end Token

def Analysis.tokens (analysis : Analysis) : List Token :=
  (analysis.scans.zipIdx.flatMap fun (scan, line) =>
    Token.ofSpans line scan ++ Token.ofWords analysis line scan).mergeSort Token.before

end ArturoInsight
