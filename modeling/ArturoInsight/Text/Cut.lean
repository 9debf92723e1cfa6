import ArturoInsight.Text.Pieces

/-! Cutting text: blanks off the ends, marks and runs off the start, and the matches of a reader from
left to right. -/

namespace ArturoInsight.Text

def trimStart (text : List Char) : List Char := text.dropWhile isBlank

def trimEnd (text : List Char) : List Char := (text.reverse.dropWhile isBlank).reverse

def trim (text : List Char) : List Char := trimEnd (trimStart text)

def isBlankText (text : List Char) : Bool := text.all isBlank

def dropFinalFeed (text : List Char) : List Char :=
  if text.getLast? = some '\n' then text.dropLast else text

def occursIn (part : List Char) : List Char → Bool
  | [] => part.isEmpty
  | c :: rest => part.isPrefixOf (c :: rest) || occursIn part rest

/-- A reader looks at the character before a place and at the text from there on, and gives what
it read with the text that remains. -/
abbrev Reader (α : Type) := Option Char → List Char → Option (α × List Char)

structure Found (α : Type) where
  start : Nat
  stop : Nat
  value : α
deriving Repr, DecidableEq

def findsFrom (read : Reader α) (column skip : Nat) (before : Option Char) :
    List Char → List (Found α)
  | [] =>
    match skip, read before [] with
    | 0, some (value, _) => [⟨column, column, value⟩]
    | _, _ => []
  | c :: rest =>
    match skip with
    | skip + 1 => findsFrom read (column + 1) skip (some c) rest
    | 0 =>
      match read before (c :: rest) with
      | none => findsFrom read (column + 1) 0 (some c) rest
      | some (value, after) =>
        let width := rest.length + 1 - after.length
        ⟨column, column + width, value⟩ :: findsFrom read (column + 1) (width - 1) (some c) rest

def finds (read : Reader α) (text : List Char) : List (Found α) := findsFrom read 0 0 none text

def firstPlaceFrom (accept : Nat → Option Char → List Char → Option α) (column : Nat)
    (before : Option Char) : List Char → Option α
  | [] => none
  | c :: rest =>
    match accept column before (c :: rest) with
    | some value => some value
    | none => firstPlaceFrom accept (column + 1) (some c) rest

def firstPlace (accept : Nat → Option Char → List Char → Option α) (text : List Char) : Option α :=
  firstPlaceFrom accept 0 none text

def replaceFrom (read : Reader (List Char)) (skip : Nat) (before : Option Char) :
    List Char → List Char
  | [] => []
  | c :: rest =>
    match skip with
    | skip + 1 => replaceFrom read skip (some c) rest
    | 0 =>
      match read before (c :: rest) with
      | none => c :: replaceFrom read 0 (some c) rest
      | some (written, after) =>
        written ++ replaceFrom read (rest.length - after.length) (some c) rest

/-- Every match of a reader replaced by what it read; the reader still sees the text as it was. -/
def replace (read : Reader (List Char)) (text : List Char) : List Char := replaceFrom read 0 none text

def after? (mark : List Char) (text : List Char) : Option (List Char) :=
  if mark.isPrefixOf text then some (text.drop mark.length) else none

def run? (holds : Char → Bool) (text : List Char) : Option (List Char × List Char) :=
  match text.takeWhile holds with
  | [] => none
  | found => some (found, text.dropWhile holds)

def upTo? (mark : Char) (text : List Char) : Option (List Char × List Char) :=
  match text.dropWhile (· != mark) with
  | [] => none
  | _ :: rest => some (text.takeWhile (· != mark), rest)

def question (text : List Char) : List Char × List Char :=
  match text with
  | '?' :: rest => (['?'], rest)
  | _ => ([], text)

def atMost : List Char → List Char → Bool
  | [], _ => true
  | _ :: _, [] => false
  | a :: left, b :: right => a.toNat < b.toNat || (a == b && atMost left right)

def sorted (names : List (List Char)) : List (List Char) := names.mergeSort atMost

end ArturoInsight.Text
