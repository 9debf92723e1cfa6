import ArturoInsight.Raw.Checked
import ArturoInsight.Text.Number

/-! Lax readings of raw values: truth values and numbers may be written as words, and truth values as numbers. -/

namespace ArturoInsight

open Text

namespace Raw

def truthWord? (word : String) : Option Bool :=
  let small := String.ofList (word.toList.map lower)
  if ["0", "off", "f", "false", "n", "no"].contains small then some false
  else if ["1", "on", "t", "true", "y", "yes"].contains small then some true
  else none

def truthNumber (number : Int) : Except Flaw Bool :=
  if number = 0 then .ok false else if number = 1 then .ok true else .error .unreadableBool

def whole? (mantissa : Int) (places : Nat) : Option Int :=
  let unit : Int := Nat.pow 10 places
  if mantissa % unit = 0 then some (mantissa / unit) else none

def toBool : Raw → Except Flaw Bool
  | bool value => .ok value
  | int value => truthNumber value
  | decimal mantissa places =>
    match whole? mantissa places with
    | some number => truthNumber number
    | none => .error .notBool
  | text value => match truthWord? value with
    | some truth => .ok truth
    | none => .error .unreadableBool
  | null | list _ | set _ | map _ | other .. => .error .notBool

/-- A number without the zeros in front and the underscores among them. One character stays. -/
def withoutZeros (text : List Char) : List Char :=
  if text.head? != some '0' then text
  else match text.dropWhile fun c => c == '0' || c == '_' with
    | [] => text.getLast?.toList
    | rest => rest

def withoutPoint (text : List Char) : List Char :=
  match upTo? '.' text with
  | some (number, zeros) => if !zeros.isEmpty && zeros.all (· == '0') then number else text
  | none => text

/-- A point and one zero or more may follow the number. A minus counts toward its length, zeros in
front do not, and a number that is too long need not be one to its end. -/
def integerWord (word : String) : Except Flaw Int :=
  let (negative, rest) := signed (unpadded word.toList)
  let plain := withoutZeros (withoutPoint rest)
  let digits := ((digits? isAsciiDigit plain).getD plain).takeWhile isAsciiDigit
  if digitLimit < digits.length + (if negative then 1 else 0) then .error .tooLong
  else match digits? isAsciiDigit plain with
    | some digits => .ok (withSign negative (valueOf digits))
    | none => .error .unreadableInt

def floatLimit : Nat := 9223372036854775808

def toInt : Raw → Except Flaw Int
  | int value => .ok value
  | bool value => .ok (if value then 1 else 0)
  | decimal mantissa places =>
    match whole? mantissa places with
    | some number => if number.natAbs < floatLimit then .ok number else .error .tooLong
    | none => .error .fractional
  | text word => integerWord word
  | null | list _ | set _ | map _ | other .. => .error .notInt

def toNat (raw : Raw) : Except Flaw Nat := do
  let number ← raw.toInt
  if number < 0 then .error .tooSmall else .ok number.toNat

def toText : Raw → Except Flaw String
  | text value => .ok value
  | _ => .error .notText

end Raw

def TextValidator.lax : TextValidator := ⟨Raw.toText, fun _ => rfl⟩

end ArturoInsight
