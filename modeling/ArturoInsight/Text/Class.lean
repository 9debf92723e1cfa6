import ArturoInsight.Text.Ranges

/-! Classes of characters. Names are ASCII; blanks, words and digits are taken from every script,
and the ASCII forms of the last three are kept beside them. -/

namespace ArturoInsight.Text

def isAscii (c : Char) : Bool := c.toNat < 128

def isLower (c : Char) : Bool := 97 ≤ c.toNat && c.toNat ≤ 122

def isUpper (c : Char) : Bool := 65 ≤ c.toNat && c.toNat ≤ 90

def isAsciiLetter (c : Char) : Bool := isLower c || isUpper c

def isAsciiDigit (c : Char) : Bool := 48 ≤ c.toNat && c.toNat ≤ 57

def isHexDigit (c : Char) : Bool :=
  isAsciiDigit c || (97 ≤ c.toNat && c.toNat ≤ 102) || (65 ≤ c.toNat && c.toNat ≤ 70)

def isAsciiBlank (c : Char) : Bool := c == ' ' || (9 ≤ c.toNat && c.toNat ≤ 13)

def isBlank (c : Char) : Bool :=
  isAsciiBlank c || (28 ≤ c.toNat && c.toNat ≤ 31) || (!isAscii c && blankRanges.has c.toNat)

def isDigit (c : Char) : Bool :=
  isAsciiDigit c || (!isAscii c && digitRanges.has c.toNat)

def isLetter (c : Char) : Bool :=
  isAsciiLetter c || (!isAscii c && letterRanges.has c.toNat)

def isWord (c : Char) : Bool :=
  isLetter c || isDigit c || c == '_' || (!isAscii c && numeralRanges.has c.toNat)

def isAsciiWord (c : Char) : Bool := isAsciiLetter c || isAsciiDigit c || c == '_'

def isNameStart (c : Char) : Bool := isAsciiLetter c || c == '_'

def isNamePart (c : Char) : Bool := isAsciiWord c || c == '-'

def digitValue (c : Char) : Nat :=
  if isAsciiDigit c then c.toNat - 48
  else match digitRanges.find? fun range => decide (range.1 ≤ c.toNat ∧ c.toNat ≤ range.2) with
    | some range => (c.toNat - range.1) % 10
    | none => 0

def lower (c : Char) : Char := if isUpper c then Char.ofNat (c.toNat + 32) else c

/-- The capitals of a character where they are ASCII letters, else the character itself. -/
def upper (c : Char) : List Char :=
  if isLower c then [Char.ofNat (c.toNat - 32)]
  else match c with
    | 'ı' => ['I']
    | 'ſ' => ['S']
    | 'ß' => ['S', 'S']
    | 'ﬀ' => ['F', 'F']
    | 'ﬁ' => ['F', 'I']
    | 'ﬂ' => ['F', 'L']
    | 'ﬃ' => ['F', 'F', 'I']
    | 'ﬄ' => ['F', 'F', 'L']
    | 'ﬅ' | 'ﬆ' => ['S', 'T']
    | _ => [c]

end ArturoInsight.Text
