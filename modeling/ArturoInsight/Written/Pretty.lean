/-! Data written in brackets and braces, one item a line, in ASCII. -/

namespace ArturoInsight.Written

inductive Printable where
  | number (value : Int)
  | text (value : String)
  | list (items : List Printable)
  | record (fields : List (String × Printable))

def hexChar (value : Nat) : Char := Char.ofNat (if value < 10 then value + 48 else value + 87)

def unitEscape (unit : Nat) : List Char :=
  ['\\', 'u', hexChar (unit / 0x1000 % 16), hexChar (unit / 0x100 % 16), hexChar (unit / 0x10 % 16),
   hexChar (unit % 16)]

def quotedChar (c : Char) : List Char :=
  if c = '\x22' then ['\\', '\x22']
  else if c = '\\' then ['\\', '\\']
  else if c = '\n' then ['\\', 'n']
  else if c = '\r' then ['\\', 'r']
  else if c = '\t' then ['\\', 't']
  else if c = '\x08' then ['\\', 'b']
  else if c = '\x0c' then ['\\', 'f']
  else if 32 ≤ c.toNat ∧ c.toNat < 127 then [c]
  else if c.toNat < 0x10000 then unitEscape c.toNat
  else
    let rest := c.toNat - 0x10000
    unitEscape (0xd800 + rest / 0x400) ++ unitEscape (0xdc00 + rest % 0x400)

def quote (text : String) : String :=
  String.ofList ('\x22' :: text.toList.flatMap quotedChar ++ ['\x22'])

def indent (depth : Nat) : String := "\n" ++ String.ofList (List.replicate (2 * depth) ' ')

def framed (depth : Nat) (first last : String) (items : List String) : String :=
  if items.isEmpty then first ++ last
  else first ++ indent (depth + 1) ++ ("," ++ indent (depth + 1)).intercalate items ++ indent depth ++
    last

mutual

def pretty (depth : Nat) : Printable → String
  | .number value => toString value
  | .text value => quote value
  | .list items => framed depth "[" "]" (prettyItems (depth + 1) items)
  | .record fields => framed depth "\x7b" "\x7d" (prettyFields (depth + 1) fields)

def prettyItems (depth : Nat) : List Printable → List String
  | [] => []
  | item :: rest => pretty depth item :: prettyItems depth rest

def prettyFields (depth : Nat) : List (String × Printable) → List String
  | [] => []
  | (name, value) :: rest => (quote name ++ ": " ++ pretty depth value) :: prettyFields depth rest

end

end ArturoInsight.Written
