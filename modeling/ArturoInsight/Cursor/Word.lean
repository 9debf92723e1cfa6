import ArturoInsight.Document.Analysis

/-! The word at a cursor and the places where a word occurs. A word is made of name characters and
may end in a question mark; hyphens in front of it are minus signs. -/

namespace ArturoInsight

open Text Lexical

structure WordSpan where
  word : List Char
  line : Nat
  start : Nat
deriving DecidableEq, Repr

namespace WordSpan

def stop (span : WordSpan) : Nat := span.start + span.word.length

def region (span : WordSpan) : Region := .onLine span.line span.start span.stop

def before? (span : WordSpan) (text : List Char) : Option Char :=
  if span.start = 0 then none else text[span.start - 1]?

end WordSpan

/-- The part of a word at the end of a text, where one line feed after it does not count. -/
def wordBefore (text : List Char) : List Char :=
  let closed := dropFinalFeed text
  let (core, mark) := if closed.getLast? = some '?' then (closed.dropLast, ['?']) else (closed, [])
  match (core.reverse.takeWhile isNamePart).reverse with
  | [] => []
  | part => part ++ mark

def wordAfter (text : List Char) : List Char :=
  text.takeWhile isNamePart ++ (question (text.dropWhile isNamePart)).1

/-- The word that a cursor touches. A question mark before the cursor has closed the word. -/
def wordAt (text : List Char) (character : Int) (line : Nat) : Option WordSpan :=
  let cursor := min character.toNat text.length
  let before := wordBefore (text.take cursor)
  let whole := if before.getLast? = some '?' then before else before ++ wordAfter (text.drop cursor)
  let word := whole.dropWhile (· == '-')
  if word.isEmpty || word == ['?'] then none
  else some ⟨word, line, cursor - before.length + (whole.length - word.length)⟩

namespace Analysis

def wordAt (analysis : Analysis) (position : Position) : Option WordSpan :=
  (analysis.line? position.line).bind fun text =>
    ArturoInsight.wordAt text position.character position.line

end Analysis

/-- A word as a whole: no name character on either side and no question mark after it. -/
def wholeWord (word : List Char) : Reader Unit := fun before rest =>
  if before.any isNamePart then none
  else (after? word rest).bind fun tail =>
    if tail.head?.any fun c => isNamePart c || c == '?' then none else some ((), tail)

def columnsOf (word : List Char) (scan : Scan) : List Nat :=
  ((finds (wholeWord word) scan.text).map (·.start)).filter fun column =>
    scan.codeAt column &&
      !(column != 0 && (scan.text[column - 1]?).any fun c => c == '\x27' || c == '\x60')

def Analysis.occurrences (analysis : Analysis) (word : List Char) : List WordSpan :=
  analysis.scans.zipIdx.flatMap fun (scan, line) =>
    (columnsOf word scan).map fun column => ⟨word, line, column⟩

end ArturoInsight
