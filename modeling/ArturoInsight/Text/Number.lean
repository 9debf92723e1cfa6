import ArturoInsight.Text.Cut

/-! Whole numbers as people write them. -/

namespace ArturoInsight.Text

def isPadding (c : Char) : Bool := isBlank c && !(28 ≤ c.toNat && c.toNat ≤ 31)

def unpadded (text : List Char) : List Char :=
  ((text.dropWhile isPadding).reverse.dropWhile isPadding).reverse

/-- The digits that a number is written with, where all underscores stand by themselves between two. -/
def digits? (digit : Char → Bool) (text : List Char) : Option (List Char) :=
  let parts := pieces (· == '_') text
  if parts.all fun part => !part.isEmpty && part.all digit then some parts.flatten else none

def valueOf (digits : List Char) : Nat := digits.foldl (fun number c => number * 10 + digitValue c) 0

def signed (text : List Char) : Bool × List Char :=
  match text with
  | '-' :: rest => (true, rest)
  | '+' :: rest => (false, rest)
  | rest => (false, rest)

def withSign (negative : Bool) (size : Nat) : Int := if negative then -size else size

def digitLimit : Nat := 4300

/-- The number that digits of any script spell, perhaps with a sign and with padding around it. -/
def number? (text : String) : Option Int :=
  let (negative, rest) := signed (unpadded text.toList)
  (digits? isDigit rest).bind fun digits =>
    if digitLimit < digits.length then none else some (withSign negative (valueOf digits))

end ArturoInsight.Text
