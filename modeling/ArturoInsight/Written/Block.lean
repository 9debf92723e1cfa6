import ArturoInsight.Written.Flow

/-! Data written line by line, where indentation shows what belongs together. This covers the part of
YAML that settings and catalogs are written in: block maps and lists, flow values on one line, plain
and quoted words, and comments. Anything else is refused. -/

namespace ArturoInsight.Written

open Text

structure Row where
  indent : Nat
  text : List Char
deriving DecidableEq, Repr

def dropComment (quote : Option Char) (before : Option Char) : List Char → List Char
  | [] => []
  | c :: rest =>
    match quote with
    | some mark => c :: dropComment (if c = mark then none else quote) (some c) rest
    | none =>
      if c = '#' ∧ before.all isBlank then []
      else if (c = '\x22' ∨ c = '\x27') ∧ before.all (fun c => isBlank c || isFlowMark c) then
        c :: dropComment (some c) (some c) rest
      else c :: dropComment none (some c) rest

def row (line : List Char) : Row :=
  let line := trimEnd (dropComment none none line)
  ⟨(line.takeWhile (· == ' ')).length, line.dropWhile (· == ' ')⟩

def rows (text : List Char) : List Row :=
  ((lines text).map row).filter fun row => !row.text.isEmpty && row.text != ['-', '-', '-']

def afterMark? (mark : Char) (text : List Char) : Option (List Char) :=
  match text with
  | [c] => if c = mark then some [] else none
  | c :: next :: rest => if c = mark ∧ isBlank next then some (trimStart rest) else none
  | [] => none

/-- A plain key runs to the first colon that ends the row or that a blank follows. -/
def plainKey? : List Char → Option (List Char × List Char)
  | [] => none
  | c :: rest =>
    match afterMark? ':' (c :: rest) with
    | some value => some ([], value)
    | none => (plainKey? rest).map fun (key, value) => (c :: key, value)

def keyed? (text : List Char) : Option (Key × List Char) :=
  match anyQuoted? text with
  | some (key, rest) => (afterMark? ':' (trimStart rest)).map fun value => (.text (String.ofList key), value)
  | none =>
    if text.head?.any fun c => isFlowMark c || isReserved c then none
    else (plainKey? text).map fun (key, value) => (wordKey (trimEnd key), value)

def inline? (text : List Char) : Option Raw :=
  match text.head? with
  | none => some .null
  | some c =>
    if ['[', '\x7b', '\x22', '\x27'].contains c then ofFlow? text
    else if isReserved c || [']', '\x7d', ','].contains c || (keyed? text).isSome ||
        (afterMark? '-' text).isSome then none
    else some (Written.word text)

mutual

def block? : Nat → List Row → Option (Raw × List Row)
  | 0, _ => none
  | _ + 1, [] => some (.null, [])
  | fuel + 1, first :: rest =>
    if (afterMark? '-' first.text).isSome then
      (blockItems? fuel first.indent (first :: rest)).map fun (items, rest) => (.list items, rest)
    else if (keyed? first.text).isSome then
      (blockEntries? fuel first.indent (first :: rest)).map fun (entries, rest) =>
        (.map (Table.collect entries), rest)
    else (inline? first.text).map fun value => (value, rest)

def blockItems? : Nat → Nat → List Row → Option (List Raw × List Row)
  | 0, _, _ => none
  | _ + 1, _, [] => some ([], [])
  | fuel + 1, indent, first :: rest =>
    if first.indent != indent then some ([], first :: rest)
    else match afterMark? '-' first.text with
      | none => some ([], first :: rest)
      | some text => do
        let (item, rest) ←
          if text.isEmpty then
            if rest.head?.any fun next => indent < next.indent then block? fuel rest
            else some (.null, rest)
          else block? fuel (⟨indent + (first.text.length - text.length), text⟩ :: rest)
        let (items, rest) ← blockItems? fuel indent rest
        some (item :: items, rest)

/-- The entries of a map at one indentation. A list may stand at the indentation of its key. -/
def blockEntries? : Nat → Nat → List Row → Option (List (Key × Raw) × List Row)
  | 0, _, _ => none
  | _ + 1, _, [] => some ([], [])
  | fuel + 1, indent, first :: rest =>
    if first.indent != indent then some ([], first :: rest)
    else match keyed? first.text with
      | none => some ([], first :: rest)
      | some (key, text) => do
        let (value, rest) ←
          if text.isEmpty then
            if rest.head?.any fun next =>
                indent < next.indent || (indent == next.indent && (afterMark? '-' next.text).isSome) then
              if rest.head?.any fun next => indent == next.indent then
                (blockItems? fuel indent rest).map fun (items, rest) => (.list items, rest)
              else block? fuel rest
            else some (.null, rest)
          else (inline? text).map fun value => (value, rest)
        let (entries, rest) ← blockEntries? fuel indent rest
        some ((key, value) :: entries, rest)

end

/-- The value that a text writes, if it can be read. Every step uses up a character or a row. -/
def value? (text : List Char) : Option Raw :=
  match (trimStart text).head? with
  | none => some .null
  | some c =>
    if ['[', '\x7b', '\x22', '\x27'].contains c && (keyed? ((rows text).head?.elim [] (·.text))).isNone then
      ofFlow? text
    else
      match block? (3 * text.length + 3) (rows text) with
      | some (value, []) => some value
      | _ => none

end ArturoInsight.Written
