import ArturoInsight.Symbol.Name

/-! The layout of one stretch of code: a blank after a label, blanks around operators, and no blanks
in a row. -/

namespace ArturoInsight.Layout

open Text

/-- A label at the start of the text gets its colon directly after it and one blank after that.
Blanks only before the colon make an annotation, which is left alone. -/
def spaceLabel (text : List Char) : List Char :=
  match Name.token? text with
  | none => text
  | some (name, tail) =>
    match after? [':'] (tail.dropWhile isAsciiBlank) with
    | none => text
    | some rest =>
      let parted := tail.head?.any isAsciiBlank && !rest.head?.any isAsciiBlank
      if rest.head? == some ':' || parted then text
      else name ++ [':', ' '] ++ rest.dropWhile isAsciiBlank

/-- The operator that the text starts with. A lone minus needs a blank on both sides. -/
def operator? (spaced : Bool) (text : List Char) : Option (List Char × List Char) :=
  match text with
  | '-' :: '>' :: rest => some (['-', '>'], rest)
  | '=' :: '>' :: rest => some (['=', '>'], rest)
  | '<' :: '=' :: rest => some (['<', '='], rest)
  | '>' :: '=' :: rest => some (['>', '='], rest)
  | '<' :: '>' :: rest => some (['<', '>'], rest)
  | '+' :: '+' :: rest => some (['+', '+'], rest)
  | c :: rest =>
    if ['+', '*', '/', '=', '<', '>'].contains c then some ([c], rest)
    else if c == '-' && spaced && rest.head?.any isBlank then some (['-'], rest)
    else none
  | [] => none

def spacedOperator : Reader (List Char) := fun before rest =>
  let spaced := rest.head?.any isBlank || before.any isBlank
  (operator? spaced (trimStart rest)).map fun (operator, tail) =>
    ([' '] ++ operator ++ [' '], trimStart tail)

def manyBlanks : Reader (List Char) := fun _ rest =>
  match rest with
  | first :: second :: _ => if isBlank first && isBlank second then some ([' '], trimStart rest) else none
  | _ => none

def code (atStart : Bool) (text : List Char) : List Char :=
  replace manyBlanks (replace spacedOperator (if atStart then spaceLabel text else text))

end ArturoInsight.Layout
