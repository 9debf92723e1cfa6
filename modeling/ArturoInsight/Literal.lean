import ArturoInsight.Catalog.Shipped

/-! Bare tokens that evaluate to themselves and never need a definition. A line feed at the end of a
token does not count, except for units and colors. -/

namespace ArturoInsight.Literal

open Text

def isDigits (token : List Char) : Bool := !token.isEmpty && token.all isDigit

def unsigned (token : List Char) : List Char :=
  match token with
  | '-' :: rest => rest
  | _ => token

def isInteger (token : List Char) : Bool := isDigits (unsigned token)

def isSplitDigits (mark : Char) (token : List Char) : Bool :=
  match upTo? mark token with
  | some (whole, rest) => isDigits whole && isDigits rest
  | none => false

def isFloating (token : List Char) : Bool := isSplitDigits '.' (unsigned token)

def isBased (letter : Char) (digit : Char → Bool) (token : List Char) : Bool :=
  match token with
  | '0' :: mark :: digits => mark == letter && !digits.isEmpty && digits.all digit
  | _ => false

def isHex (token : List Char) : Bool := isBased 'x' isHexDigit token

def isBinary (token : List Char) : Bool := isBased 'b' (fun c => c == '0' || c == '1') token

def isNumber (token : List Char) : Bool :=
  let token := dropFinalFeed token
  isInteger token || isFloating token || isHex token || isBinary token

def isKeyword (token : List Char) : Bool :=
  ["true", "false", "maybe", "null"].contains (String.ofList token)

/-- What may follow a version number: nothing, or a hyphen, a letter, then letters and digits. -/
def isRelease (rest : List Char) : Bool :=
  match rest with
  | [] => true
  | '-' :: first :: more =>
    isAsciiLetter first && more.all fun c => isAsciiLetter c || isAsciiDigit c
  | _ => false

def isVersion (token : List Char) : Bool :=
  (pieces (· == '.') (token.takeWhile (· != '-'))).all isDigits &&
    isRelease (token.dropWhile (· != '-'))

def isHexColor (token : List Char) : Bool :=
  (token.length == 6 || token.length == 3) && token.all isHexDigit

def isUnit (token : List Char) : Bool := Catalog.shipped.isUnit token

def isColorName (token : List Char) : Bool := Catalog.shipped.isColor token

def isCharacter (token : List Char) : Bool :=
  match token with
  | [c] => isLower c
  | _ => false

def holds (token : List Char) : Bool :=
  let closed := dropFinalFeed token
  !token.isEmpty && (isNumber token || isKeyword closed || isVersion closed || isHexColor closed ||
    isUnit token || isColorName token || isCharacter closed)

end ArturoInsight.Literal
