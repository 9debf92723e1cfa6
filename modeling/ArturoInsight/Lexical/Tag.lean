/-! Lexical contexts: what a character of a line belongs to, and what a line hands to the next. -/

namespace ArturoInsight.Lexical

inductive Tag where
  | code
  | comment
  /-- A string in double quotes, with escapes. -/
  | quoted
  /-- A string in braces. -/
  | curly
  /-- A string between brace-colon and colon-brace. -/
  | verbatim
  /-- A string that a brace and an exclamation mark open and a brace closes. -/
  | embedded
  /-- A string from one opening guillemet to the end of its line. -/
  | guillemet
  /-- A string between doubled guillemets. -/
  | guillemets
  /-- Code inside square brackets. -/
  | block
deriving DecidableEq, Repr, Inhabited

namespace Tag

def isString : Tag → Bool
  | quoted | curly | verbatim | embedded | guillemet | guillemets => true
  | code | comment | block => false

def isCode : Tag → Bool
  | code | block => true
  | _ => false

def isMultiline : Tag → Bool
  | verbatim | embedded | guillemets => true
  | _ => false

def name : Tag → String
  | code => "CODE"
  | comment => "LINE_COMMENT"
  | quoted => "STRING_DOUBLE"
  | curly => "STRING_CURLY"
  | verbatim => "STRING_VERBATIM"
  | embedded => "STRING_CODE_BLOCK"
  | guillemet => "STRING_GUILLEMET_SINGLE"
  | guillemets => "STRING_GUILLEMET_DOUBLE"
  | block => "BLOCK_LITERAL"

def all : List Tag :=
  [code, comment, quoted, curly, verbatim, embedded, guillemet, guillemets, block]

def ofName? (name : String) : Option Tag := all.find? fun tag => tag.name == name

theorem ofName?_name (tag : Tag) : ofName? tag.name = some tag := by cases tag <;> rfl

theorem isCode_eq_false_of_isString {tag : Tag} (string : tag.isString = true) :
    tag.isCode = false := by
  cases tag <;> simp_all [isString, isCode]

end Tag

/-- String state at the boundary of a line. The form counts only while `inString` holds. -/
structure Carry where
  inString : Bool
  form : Option Tag
deriving DecidableEq, Repr, Inhabited

namespace Carry

def none : Carry := ⟨false, .none⟩

def within (tag : Tag) : Carry := ⟨true, some tag⟩

def active? (carry : Carry) : Option Tag := if carry.inString then carry.form else .none

def ofTag (tag : Tag) : Carry := if tag.isString then within tag else none

end Carry

/-- A half-open stretch of one line with a single tag. -/
structure Span where
  start : Int
  stop : Int
  tag : Tag
deriving DecidableEq, Repr

namespace Span

def contains (span : Span) (offset : Int) : Bool :=
  decide (span.start ≤ offset) && decide (offset < span.stop)

def text (span : Span) : String :=
  "LexicalSpan(" ++ span.tag.name ++ ", " ++ toString span.start ++ ":" ++ toString span.stop ++ ")"

end Span

end ArturoInsight.Lexical
