import ArturoInsight.Literal

/-! The type of a bound value, read off its source text. -/

namespace ArturoInsight

open Text

inductive ValueType where
  | integer | floating | rational | logical | null | string | char | dictionary | block | type
  | literal | method | function | color | range | any
deriving DecidableEq, Repr, Inhabited

namespace ValueType

def text : ValueType → String
  | integer => ":integer"
  | floating => ":floating"
  | rational => ":rational"
  | logical => ":logical"
  | null => ":null"
  | string => ":string"
  | char => ":char"
  | dictionary => ":dictionary"
  | block => ":block"
  | type => ":type"
  | literal => ":literal"
  | method => ":method"
  | function => ":function"
  | color => ":color"
  | range => ":range"
  | any => ":any"

def isNumeric : ValueType → Bool
  | integer | floating | rational => true
  | _ => false

def startsWithWord (word : String) (text : List Char) : Bool :=
  match after? word.toList text with
  | some rest => !(rest.head?.any isWord)
  | none => false

def startsFunction (text : List Char) : Bool :=
  startsWithWord "function" text || startsWithWord "method" text || text.head? == some '$'

def isColor (text : List Char) : Bool :=
  match text with
  | '#' :: name => (name.length == 6 && name.all isHexDigit) || (!name.isEmpty && name.all isLower)
  | _ => false

def isCharacter (text : List Char) : Bool :=
  match text with
  | [mark, c] => mark == '\x60' && c != '\n'
  | _ => false

/-- The first rule that fits decides; dictionaries come before blocks and methods before functions. -/
def ofTrimmed (value : List Char) : ValueType :=
  let first := value.head?
  if Literal.isInteger value then integer
  else if Literal.isFloating value then floating
  else if Literal.isSplitDigits ':' value then rational
  else if ["true", "false", "maybe"].contains (String.ofList value) then logical
  else if value == "null".toList then null
  else if first == some '\x22' || first == some '\x7b' || first == some '«' then string
  else if isCharacter value then char
  else if "#[".toList.isPrefixOf value then dictionary
  else if first == some '[' then block
  else if first == some ':' then type
  else if first == some '\x27' then literal
  else if startsWithWord "method" value then method
  else if startsFunction value then function
  else if isColor value then color
  else if occursIn "..".toList value then range
  else any

def infer (value : List Char) : ValueType := ofTrimmed (trim value)

end ValueType

def isFunctionValue (value : List Char) : Bool := ValueType.startsFunction (trim value)

/-- Numeric and textual types fall together; any other type is its name without colons in front. -/
def typeFamily (type : String) : String :=
  if [":integer", ":floating", ":complex", ":rational"].contains type then "number"
  else if [":string", ":char"].contains type then "string"
  else String.ofList (type.toList.dropWhile (· == ':'))

end ArturoInsight
