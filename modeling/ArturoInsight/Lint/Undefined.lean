import ArturoInsight.Literal
import ArturoInsight.Lint.Rule

/-! Words in code that are neither builtin nor literal nor bound anywhere in the document. -/

namespace ArturoInsight.Undefined

open Text Lexical

/-- A word on a line, with the characters on both sides of it. -/
structure Use where
  before : Option Char
  word : List Char
  next : Option Char
deriving DecidableEq, Repr

def use : Reader Use := fun before rest =>
  if before.any isAsciiWord then none
  else (Name.token? rest).map fun (word, tail) => (⟨before, word, tail.head?⟩, tail)

def isKnown (source : Source) (word : List Char) : Bool :=
  Literal.holds word || source.catalog.isBuiltin word || source.symbols.has word ||
    source.quasi.has word

/-- Labels, words outside plain code, quoted words, units, colors, types and known attributes. -/
def isExempt (source : Source) (scan : Scan) (found : Found Use) : Bool :=
  let use := found.value
  use.next == some ':' || scan.tagAt found.start != .code ||
    use.before.any (['\x27', '\x60', '#', ':'].contains ·) ||
    (use.before == some '.' && source.catalog.isAttribute use.word)

def message (word : List Char) : String := "\x27" ++ String.ofList word ++ "\x27 may be undefined"

def ofLine (source : Source) (line : Nat) (scan : Scan) : List Issue :=
  ((finds use scan.uncommented).filter fun found =>
      !isKnown source found.value.word && !isExempt source scan found).map fun found =>
    source.issue .warning "W001" (message found.value.word) line scan found.start found.stop

def rule : Rule := .byLine "W001" .warning ofLine

end ArturoInsight.Undefined
