import ArturoInsight.Text.Cut

/-! Names: an ASCII letter or underscore, then letters, digits, underscores and hyphens, then
perhaps one question mark. -/

namespace ArturoInsight.Name

open Text

def isName : List Char → Bool
  | [] => false
  | first :: rest =>
    let tail := rest.dropWhile isNamePart
    isNameStart first && (tail == [] || tail == ['?'])

def isIdentifier (text : List Char) : Bool := isName (dropFinalFeed text)

def read? (text : List Char) : Option (List Char × List Char) :=
  match text with
  | [] => none
  | first :: rest =>
    if isNameStart first then
      let (mark, after) := question (rest.dropWhile isNamePart)
      some (first :: rest.takeWhile isNamePart ++ mark, after)
    else none

/-- A word, hyphens and perhaps a question mark, with words taken from every script. -/
def label? (text : List Char) : Option (List Char × List Char) :=
  match text with
  | [] => none
  | first :: rest =>
    if isWord first then
      let part c := isWord c || c == '-'
      let (mark, after) := question (rest.dropWhile part)
      some (first :: rest.takeWhile part ++ mark, after)
    else none

def token? (text : List Char) : Option (List Char × List Char) :=
  match text with
  | [] => none
  | first :: rest =>
    if isAsciiWord first then
      let (mark, after) := question (rest.dropWhile isNamePart)
      some (first :: rest.takeWhile isNamePart ++ mark, after)
    else none

end ArturoInsight.Name
