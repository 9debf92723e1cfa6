import ArturoInsight.Lexical.Tag
import ArturoInsight.Text.Cut

/-! The scan of a line: one step a character, with a look at the next one. A line starts in the
state that the line before carried over. -/

namespace ArturoInsight.Lexical

inductive Mode where
  | code
  | inside (tag : Tag)
  /-- At the second character of a two-character unit, after which the form stays open or ends. -/
  | second (tag : Tag) (stays : Bool)
  | comment
deriving DecidableEq, Repr

structure State where
  mode : Mode
  depth : Nat
deriving DecidableEq, Repr

namespace State

def codeTag (state : State) : Tag := if state.depth = 0 then .code else .block

def enter (state : State) (mode : Mode) : State := { state with mode := mode }

def stepCode (state : State) (c : Char) (next : Option Char) : Tag × State :=
  if c = ';' then (.comment, state.enter .comment)
  else if c = '\x7b' then
    if next = some '!' then (.embedded, state.enter (.second .embedded true))
    else if next = some ':' then (.verbatim, state.enter (.second .verbatim true))
    else (.curly, state.enter (.inside .curly))
  else if c = '\x22' then (.quoted, state.enter (.inside .quoted))
  else if c = '«' then
    if next = some '«' then (.guillemets, state.enter (.second .guillemets true))
    else (.guillemet, state.enter (.inside .guillemet))
  else if c = '[' then (.block, { state with depth := state.depth + 1 })
  else if c = ']' then (state.codeTag, { state with depth := state.depth - 1 })
  else (state.codeTag, state)

/-- The mode after a character inside a form. Forms that no mark closes run to the end of the line. -/
def insideNext (tag : Tag) (c : Char) (next : Option Char) : Mode :=
  match tag with
  | .quoted =>
    if c = '\\' then .second .quoted true else if c = '\x22' then .code else .inside .quoted
  | .curly => if c = '\x7d' then .code else .inside .curly
  | .embedded => if c = '\x7d' then .code else .inside .embedded
  | .verbatim =>
    if c = ':' ∧ next = some '\x7d' then .second .verbatim false else .inside .verbatim
  | .guillemets =>
    if c = '»' ∧ next = some '»' then .second .guillemets false else .inside .guillemets
  | other => .inside other

def step (state : State) (c : Char) (next : Option Char) : Tag × State :=
  match state.mode with
  | .code => state.stepCode c next
  | .inside tag => (tag, state.enter (insideNext tag c next))
  | .second tag stays => (tag, state.enter (if stays then .inside tag else .code))
  | .comment => (.comment, state)

def run (state : State) : List Char → List Tag × State
  | [] => ([], state)
  | c :: rest =>
    let (tag, next) := state.step c rest.head?
    let (tags, last) := next.run rest
    (tag :: tags, last)

def endTag (state : State) : Tag :=
  match state.mode with
  | .code => state.codeTag
  | .inside tag => tag
  | .second tag stays => if stays then tag else state.codeTag
  | .comment => .comment

def carry (state : State) : Carry :=
  match state.mode with
  | .inside tag => if tag.isMultiline then .within tag else .none
  | .second tag stays => if stays && tag.isMultiline then .within tag else .none
  | .code | .comment => .none

def ofCarry (carry : Carry) : State :=
  match carry.active? with
  | some tag => ⟨.inside tag, 0⟩
  | none => ⟨.code, 0⟩

theorem length_run (state : State) (text : List Char) :
    (state.run text).1.length = text.length := by
  induction text generalizing state with
  | nil => rfl
  | cons c rest ih => simp [run, ih]

end State

structure Scan where
  text : List Char
  carryIn : Carry
  tags : List Tag
  last : State
deriving DecidableEq, Repr

def scanLine (carry : Carry) (text : List Char) : Scan :=
  let (tags, last) := (State.ofCarry carry).run text
  ⟨text, carry, tags, last⟩

namespace Scan

def carryOut (scan : Scan) : Carry := scan.last.carry

def endTag (scan : Scan) : Tag := scan.last.endTag

def depth (scan : Scan) : Nat := scan.last.depth

def cells (scan : Scan) : List (Char × Tag) := scan.text.zip scan.tags

def commentStart (scan : Scan) : Option Nat :=
  if scan.last.mode = .comment then some (scan.tags.takeWhile (· != .comment)).length else none

def uncommented (scan : Scan) : List Char :=
  match scan.commentStart with
  | some start => scan.text.take start
  | none => scan.text

/-- Positions before the line count as its first, positions after it as its end. -/
def tagAt (scan : Scan) (offset : Int) : Tag := scan.tags.getD offset.toNat scan.endTag

def codeAt (scan : Scan) (column : Nat) : Bool := (scan.tags.getD column scan.endTag).isCode

def spansFrom (start column : Nat) (tag : Tag) : List Tag → List Span
  | [] => [⟨start, column, tag⟩]
  | next :: rest =>
    if next = tag then spansFrom start (column + 1) tag rest
    else ⟨start, column, tag⟩ :: spansFrom column (column + 1) next rest

def spans (scan : Scan) : List Span :=
  match scan.tags with
  | [] => []
  | tag :: rest => spansFrom 0 1 tag rest

def isCommentOnly (scan : Scan) : Bool :=
  match scan.commentStart with
  | some start => !scan.carryIn.inString && Text.isBlankText (scan.text.take start)
  | none => false

def codeText (scan : Scan) (fill : List Char) : List Char :=
  scan.cells.flatMap fun cell => if cell.2.isCode then [cell.1] else fill

def blanked (scan : Scan) : List Char := scan.codeText [' ']

def brackets (scan : Scan) : List Char :=
  (scan.cells.filter fun cell => cell.2.isCode && (cell.1 == '[' || cell.1 == ']')).map (·.1)

theorem text_scanLine (carry : Carry) (text : List Char) : (scanLine carry text).text = text := rfl

theorem length_tags_scanLine (carry : Carry) (text : List Char) :
    (scanLine carry text).tags.length = text.length := State.length_run _ _

end Scan

/-- The scans of consecutive lines, each with the string state that the one before ended in. -/
def scanFrom (carry : Carry) : List (List Char) → List Scan
  | [] => []
  | line :: rest =>
    let scan := scanLine carry line
    scan :: scanFrom scan.carryOut rest

def carryAfter (carry : Carry) : List (List Char) → Carry
  | [] => carry
  | line :: rest => carryAfter (scanLine carry line).carryOut rest

theorem map_text_scanFrom (carry : Carry) (lines : List (List Char)) :
    (scanFrom carry lines).map Scan.text = lines := by
  induction lines generalizing carry with
  | nil => rfl
  | cons line rest ih => simp [scanFrom, scanLine, ih]

theorem length_scanFrom (carry : Carry) (lines : List (List Char)) :
    (scanFrom carry lines).length = lines.length := by
  induction lines generalizing carry with
  | nil => rfl
  | cons line rest ih => simp [scanFrom, ih]

theorem scanFrom_append (carry : Carry) (first second : List (List Char)) :
    scanFrom carry (first ++ second) =
      scanFrom carry first ++ scanFrom (carryAfter carry first) second := by
  induction first generalizing carry with
  | nil => rfl
  | cons line rest ih => simp [scanFrom, carryAfter, ih]

def scanLines (lines : List (List Char)) : List Scan := scanFrom .none lines

def scanText (text : List Char) : List Scan := scanLines (Text.lines text)

def classify (line : List Char) (offset : Int) : Tag := (scanLine .none line).tagAt offset

/-- String state at an offset of a line, found by scanning from the first line on. -/
def contextAt (lines : List (List Char)) (line offset : Int) : Carry :=
  if line < 0 then .none
  else match lines[line.toNat]? with
    | none => .none
    | some text => .ofTag ((scanLine (carryAfter .none (lines.take line.toNat)) text).tagAt offset)

def stripComments (text : List Char) : List Char :=
  Text.joinLines ((scanText text).map Scan.uncommented)

end ArturoInsight.Lexical
