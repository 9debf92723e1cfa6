import ArturoInsight.Raw.Basic
import ArturoInsight.Text.Number

/-! What an unquoted word of a data file stands for: nothing, a truth value, a number or itself. -/

namespace ArturoInsight.Written

open Text

def nullWords : List String := ["", "~", "null", "Null", "NULL"]

def trueWords : List String :=
  ["true", "True", "TRUE", "yes", "Yes", "YES", "on", "On", "ON"]

def falseWords : List String :=
  ["false", "False", "FALSE", "no", "No", "NO", "off", "Off", "OFF"]

def isPlainNumber (digits : List Char) : Bool :=
  !digits.isEmpty && digits.all isAsciiDigit && (digits.length == 1 || digits.head? != some '0')

def number? (negative : Bool) (word : List Char) : Option Raw :=
  let sign : Int := if negative then -1 else 1
  match upTo? '.' word with
  | none => if isPlainNumber word then some (.int (sign * valueOf word)) else none
  | some (whole, part) =>
    if isPlainNumber whole && !part.isEmpty && part.all isAsciiDigit then
      some (.decimal (sign * valueOf (whole ++ part)) part.length)
    else none

def signedNumber? (word : List Char) : Option Raw :=
  match word with
  | '-' :: rest => number? true rest
  | '+' :: rest => number? false rest
  | _ => number? false word

def word (word : List Char) : Raw :=
  let name := String.ofList word
  if nullWords.contains name then .null
  else if trueWords.contains name then .bool true
  else if falseWords.contains name then .bool false
  else (signedNumber? word).getD (.text name)

def decimalText (mantissa : Int) (places : Nat) : String :=
  let digits := (toString mantissa.natAbs).toList
  let digits := List.replicate (places + 1 - digits.length) '0' ++ digits
  (if mantissa < 0 then "-" else "") ++ String.ofList (digits.take (digits.length - places)) ++
    "." ++ String.ofList (digits.drop (digits.length - places))

def wordKey (text : List Char) : Key :=
  match word text with
  | .text name => .text name
  | .null => .other "NoneType" "None"
  | .bool value => .other "bool" (if value then "True" else "False")
  | .int value => .other "int" (toString value)
  | .decimal mantissa places => .other "float" (decimalText mantissa places)
  | .list _ | .set _ | .map _ | .other .. => .text (String.ofList text)

end ArturoInsight.Written
