import ArturoInsight.Text.Cut

/-! Text in quotes, for messages: hidden characters as escapes, and the kind of quotes that needs
fewer of them. -/

namespace ArturoInsight.Text

def isHidden (c : Char) : Bool := c.toNat < 32 || c.toNat == 127 || hiddenRanges.has c.toNat

def hexDigits : Nat → Nat → List Char
  | 0, _ => []
  | count + 1, number =>
    let digit := number % 16
    hexDigits count (number / 16) ++ [Char.ofNat (if digit < 10 then digit + 48 else digit + 87)]

def quotedChar (mark c : Char) : List Char :=
  if c = mark ∨ c = '\\' then ['\\', c]
  else if c = '\n' then ['\\', 'n']
  else if c = '\r' then ['\\', 'r']
  else if c = '\t' then ['\\', 't']
  else if !isHidden c then [c]
  else if c.toNat < 0x100 then '\\' :: 'x' :: hexDigits 2 c.toNat
  else if c.toNat < 0x10000 then '\\' :: 'u' :: hexDigits 4 c.toNat
  else '\\' :: 'U' :: hexDigits 8 c.toNat

def quoted (text : List Char) : List Char :=
  let mark := if text.contains '\x27' && !text.contains '\x22' then '\x22' else '\x27'
  mark :: text.flatMap (quotedChar mark) ++ [mark]

end ArturoInsight.Text
