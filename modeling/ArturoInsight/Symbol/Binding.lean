import ArturoInsight.Lexical.Scan
import ArturoInsight.Symbol.Name

/-! What a line binds: the first label in code with a value after its colon, and the types that it
defines. -/

namespace ArturoInsight

open Text Lexical

structure Binding where
  name : List Char
  column : Nat
  value : List Char
deriving DecidableEq, Repr

namespace Binding

/-- A letter directly after a colon that blanks precede makes a type annotation, not a binding. -/
def annotates (blanks after : List Char) : Bool := !blanks.isEmpty && after.head?.any isLetter

/-- The binding whose name stands at a place of a line. Its name and its colon have to be code. -/
def at? (scan : Scan) (column : Nat) (before : Option Char) (rest : List Char) : Option Binding :=
  if before.any isNamePart then none
  else do
    let (name, tail) ← Name.read? rest
    let blanks := tail.takeWhile isAsciiBlank
    let after ← after? [':'] (tail.dropWhile isAsciiBlank)
    let colon := column + name.length + blanks.length
    let value := trim after
    if scan.codeAt column && scan.codeAt colon && !annotates blanks after && !value.isEmpty then
      some ⟨name, column, value⟩
    else none

def ofLine? (scan : Scan) (line : List Char) : Option Binding := firstPlace (at? scan) line

end Binding

def definition : Reader (List Char) := fun before rest =>
  if before.any isWord then none
  else do
    let tail ← after? "define".toList rest
    let (_, tail) ← run? isBlank tail
    let tail ← after? [':'] tail
    run? isWord tail

def definedTypes (scan : Scan) (line : List Char) : List (List Char) :=
  ((finds definition line).filter fun found => scan.codeAt found.start).map (·.value)

end ArturoInsight
