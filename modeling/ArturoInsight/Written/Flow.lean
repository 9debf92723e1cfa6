import ArturoInsight.Written.Scalar

/-! Data written in brackets, braces and quotes, over as many lines as it takes. -/

namespace ArturoInsight.Written

open Text

def hexValue (c : Char) : Nat :=
  if isAsciiDigit c then c.toNat - 48 else (lower c).toNat - 87

def hexNumber? : Nat → List Char → Option (Nat × List Char)
  | 0, text => some (0, text)
  | _ + 1, [] => none
  | count + 1, c :: rest =>
    if isHexDigit c then
      (hexNumber? count rest).map fun (number, tail) => (hexValue c * 16 ^ count + number, tail)
    else none

/-- The character of a code unit, which a second unit completes where the first is half of a pair. -/
def unit? (text : List Char) : Option (Char × List Char) := do
  let (first, rest) ← hexNumber? 4 text
  if 0xd800 ≤ first ∧ first < 0xdc00 then
    let (second, rest) ← hexNumber? 4 (← after? ['\\', 'u'] rest)
    if 0xdc00 ≤ second ∧ second < 0xe000 then
      some (Char.ofNat (0x10000 + (first - 0xd800) * 0x400 + (second - 0xdc00)), rest)
    else none
  else some (Char.ofNat first, rest)

def escape? (text : List Char) : Option (Char × List Char) :=
  match text with
  | 'n' :: rest => some ('\n', rest)
  | 't' :: rest => some ('\t', rest)
  | 'r' :: rest => some ('\r', rest)
  | 'b' :: rest => some ('\x08', rest)
  | 'f' :: rest => some ('\x0c', rest)
  | '0' :: rest => some ('\x00', rest)
  | 'x' :: rest => (hexNumber? 2 rest).map fun (number, rest) => (Char.ofNat number, rest)
  | 'u' :: rest => unit? rest
  | c :: rest => if ['\x22', '\\', '/', ' '].contains c then some (c, rest) else none
  | [] => none

def quoted? : Nat → List Char → Option (List Char × List Char)
  | 0, _ => none
  | _ + 1, [] => none
  | fuel + 1, c :: rest =>
    if c = '\x22' then some ([], rest)
    else do
      let (read, rest) ← if c = '\\' then escape? rest else some (c, rest)
      let (more, rest) ← quoted? fuel rest
      some (read :: more, rest)

def singleQuoted? : List Char → Option (List Char × List Char)
  | [] => none
  | '\x27' :: '\x27' :: rest => (singleQuoted? rest).map fun (more, rest) => ('\x27' :: more, rest)
  | c :: rest =>
    if c = '\x27' then some ([], rest)
    else (singleQuoted? rest).map fun (more, rest) => (c :: more, rest)

def anyQuoted? (text : List Char) : Option (List Char × List Char) :=
  match text with
  | '\x22' :: rest => quoted? (rest.length + 1) rest
  | '\x27' :: rest => singleQuoted? rest
  | _ => none

def isFlowMark (c : Char) : Bool := [',', '[', ']', '\x7b', '\x7d', ':', '#'].contains c

def isReserved (c : Char) : Bool :=
  ['\x22', '\x27', '&', '*', '!', '|', '>', '%', '@', '\x60', '\t'].contains c

def flowWord? (text : List Char) : Option (List Char × List Char) :=
  match trim (text.takeWhile fun c => !isFlowMark c) with
  | [] => none
  | c :: word =>
    if isReserved c then none else some (c :: word, text.dropWhile fun c => !isFlowMark c)

def flowKey? (text : List Char) : Option (Key × List Char) :=
  match anyQuoted? text with
  | some (key, rest) => some (.text (String.ofList key), rest)
  | none => (flowWord? text).map fun (key, rest) => (wordKey key, rest)

mutual

def flowValue? : Nat → List Char → Option (Raw × List Char)
  | 0, _ => none
  | fuel + 1, text =>
    match trimStart text with
    | '[' :: rest => (flowItems? fuel (trimStart rest)).map fun (items, rest) => (.list items, rest)
    | '\x7b' :: rest =>
      (flowEntries? fuel (trimStart rest)).map fun (entries, rest) => (.map (Table.collect entries), rest)
    | text =>
      match anyQuoted? text with
      | some (word, rest) => some (.text (String.ofList word), rest)
      | none => (flowWord? text).map fun (word, rest) => (Written.word word, rest)

def flowItems? : Nat → List Char → Option (List Raw × List Char)
  | 0, _ => none
  | fuel + 1, text =>
    match text with
    | ']' :: rest => some ([], rest)
    | _ => do
      let (item, rest) ← flowValue? fuel text
      match trimStart rest with
      | ']' :: rest => some ([item], rest)
      | ',' :: rest =>
        let (items, rest) ← flowItems? fuel (trimStart rest)
        some (item :: items, rest)
      | _ => none

def flowEntries? : Nat → List Char → Option (List (Key × Raw) × List Char)
  | 0, _ => none
  | fuel + 1, text =>
    match text with
    | '\x7d' :: rest => some ([], rest)
    | _ => do
      let (key, rest) ← flowKey? text
      let (value, rest) ← flowValue? fuel (← after? [':'] (trimStart rest))
      let entry := (key, value)
      match trimStart rest with
      | '\x7d' :: rest => some ([entry], rest)
      | ',' :: rest =>
        let (entries, rest) ← flowEntries? fuel (trimStart rest)
        some (entry :: entries, rest)
      | _ => none

end

def ofFlow? (text : List Char) : Option Raw := do
  let (value, rest) ← flowValue? (2 * text.length + 2) text
  if isBlankText rest then some value else none

end ArturoInsight.Written
