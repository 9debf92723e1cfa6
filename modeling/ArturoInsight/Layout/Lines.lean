import ArturoInsight.Document.Position
import ArturoInsight.Layout.Code
import ArturoInsight.Lexical.Scan

/-! The layout of a document, line by line: code in its layout, strings and comments as they are, and
indentation by nesting. Blank lines, comment lines and lines that start inside a string stay. -/

namespace ArturoInsight.Layout

open Text Lexical

structure Options where
  size : Int := 4
  unit : List Char := [' ']
deriving DecidableEq, Repr

def stretches : List (Char × Tag) → List (Tag × List Char)
  | [] => []
  | (c, tag) :: rest =>
    match stretches rest with
    | [] => [(tag, [c])]
    | (next, text) :: more =>
      if next = tag then (tag, c :: text) :: more else (tag, [c]) :: (next, text) :: more

def stretch (atStart : Bool) (part : Tag × List Char) : List Char :=
  if part.1.isCode then code atStart part.2 else part.2

/-- A line without its indentation. Blanks at its end go unless a string is open there. -/
def content (scan : Scan) : List Char :=
  let parts := match stretches (scan.cells.dropWhile fun cell => isBlank cell.1) with
    | [] => []
    | first :: rest => stretch true first ++ rest.flatMap (stretch false)
  let line := trimStart parts
  if scan.endTag.isCode || scan.commentStart.isSome then trimEnd line else line

def isOpener (c : Char) : Bool := c == '[' || c == '('

def isCloser (c : Char) : Bool := c == ']' || c == ')'

def leadingClosers : List (Char × Tag) → Nat
  | [] => 0
  | (c, tag) :: rest =>
    if isBlank c then leadingClosers rest
    else if tag.isCode && isCloser c then leadingClosers rest + 1
    else 0

def nesting (scan : Scan) : Int :=
  let code := scan.cells.filter fun cell => cell.2.isCode
  (code.countP (isOpener ·.1) : Int) - code.countP (isCloser ·.1)

inductive Excess where
  /-- Its length is more than a machine word of 64 bits, sign included, can hold. -/
  | uncountable
  /-- Its length is more than any memory can hold. -/
  | unstorable
deriving DecidableEq, Repr

def wordLimit : Nat := 9223372036854775808
def textLimit : Nat := 68719476736

def excessOf? (unit : List Char) (count : Int) : Option Excess :=
  let length := count.toNat * unit.length
  if count < -wordLimit ∨ (wordLimit : Int) ≤ count ∨ wordLimit ≤ length then some .uncountable
  else if textLimit ≤ length then some .unstorable
  else none

def Options.excess? (options : Options) (depth : Nat) : Option Excess :=
  excessOf? options.unit (options.size * depth)

def indentation (options : Options) (depth : Nat) : Except Excess (List Char) :=
  match options.excess? depth with
  | some excess => .error excess
  | none => .ok (List.replicate (options.size * depth).toNat options.unit).flatten

/-- Lines whose text stays as it is. -/
def isKept (scan : Scan) : Bool :=
  scan.carryIn.inString || isBlankText scan.text || (trim scan.text).head? == some ';'

def line (options : Options) (depth : Nat) (scan : Scan) : Except Excess (List Char) :=
  if isKept scan then .ok scan.text
  else (indentation options (depth - leadingClosers scan.cells)).map (· ++ content scan)

def linesFrom (options : Options) (depth : Nat) : List Scan → Except Excess (List (List Char))
  | [] => .ok []
  | scan :: rest => do
    let first ← line options depth scan
    let later ← linesFrom options (depth + nesting scan).toNat rest
    return first :: later

def lines (options : Options) (texts : List (List Char)) : Except Excess (List (List Char)) :=
  linesFrom options 0 (scanLines texts)

def text (options : Options) (content : List Char) : Except Excess (List Char) :=
  (lines options (Text.lines content)).map joinLines

def changes (olds news : List (List Char)) : List Edit :=
  ((olds.zip news).zipIdx.filter fun ((old, new), _) => old != new).map
    fun ((old, new), line) => ⟨.onLine line 0 old.length, new⟩

def edits (size : Int) (texts : List (List Char)) : Except Excess (List Edit) :=
  (lines { size := size } texts).map (changes texts)

end ArturoInsight.Layout
