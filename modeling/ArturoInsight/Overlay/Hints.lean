import ArturoInsight.Document.Analysis

/-! Hints between the characters of a line: names of parameters before the arguments of a call, and
types after the colon of an assignment. -/

namespace ArturoInsight

open Text Lexical

inductive HintKind where
  | type | parameter
deriving DecidableEq, Repr

structure Hint where
  position : Position
  label : String
  kind : HintKind
deriving DecidableEq, Repr

namespace Hint

/-- Types keep a distance from the text before them, parameters from the text after them. -/
def padsLeft (hint : Hint) : Bool := hint.kind == .type

def padsRight (hint : Hint) : Bool := hint.kind == .parameter

/-- A word with a block of arguments, and how far the block starts after the word. -/
structure Call where
  name : List Char
  offset : Nat
  arguments : List Char
deriving DecidableEq, Repr

def call : Reader Call := fun _ rest => do
  let (name, tail) ← run? isWord rest
  let (arguments, after) ← bracketed? (trimStart tail)
  if arguments.isEmpty then none
  else some (⟨name, name.length + (tail.takeWhile isBlank).length + 1, arguments⟩, after)

def ofCalls (line : Nat) (scan : Scan) : List Hint :=
  (finds call scan.text).flatMap fun found =>
    let params := ((Catalog.shipped.function? found.value.name).map (·.params)).getD []
    let arguments := finds (fun _ rest => run? (fun c => !isBlank c) rest) found.value.arguments
    if scan.codeAt found.start then
      (params.zip arguments).map fun (param, argument) =>
        ⟨⟨line, found.start + found.value.offset + argument.start⟩, param.name ++ ":", .parameter⟩
    else []

/-- A label with a colon, how far the colon is from its start, and the value. -/
structure Assignment where
  name : List Char
  offset : Nat
  value : List Char
deriving DecidableEq, Repr

/-- The value runs to the next semicolon and has one character or more, a blank if need be. -/
def assignment : Reader Assignment := fun _ rest => do
  let (name, tail) ← Name.label? rest
  let after ← after? [':'] (trimStart tail)
  let offset := name.length + (tail.takeWhile isBlank).length
  match run? (· != ';') (trimStart after) with
  | some (value, rest) => some (⟨name, offset, value⟩, rest)
  | none => if after.head?.any isBlank then some (⟨name, offset, []⟩, trimStart after) else none

/-- Hints for assignments before the first bracket of a line whose variable was last bound there. -/
def ofAssignments (analysis : Analysis) (line : Nat) (scan : Scan) : List Hint :=
  (finds assignment scan.text).filterMap fun found =>
    if (scan.text.take found.start).contains '[' || found.value.value.head? == some ':' ||
        !scan.codeAt found.start then none
    else (analysis.symbols.values.get? found.value.name).bind fun symbol =>
      if symbol.line != line || symbol.type == .any then none
      else some ⟨⟨line, found.start + found.value.offset + 1⟩, symbol.type.text, .type⟩

end Hint

/-- Hints of the wanted kinds on the lines from `first` to `last`, comment lines left out. -/
def Analysis.hints (analysis : Analysis) (lines : Option (Nat × Nat)) (parameters types : Bool) :
    List Hint :=
  analysis.scans.zipIdx.flatMap fun (scan, line) =>
    let outside := lines.any fun (first, last) => line < first || last < line
    if outside || (trim scan.text).head? == some ';' then []
    else (if parameters then Hint.ofCalls line scan else []) ++
      (if types then Hint.ofAssignments analysis line scan else [])

end ArturoInsight
