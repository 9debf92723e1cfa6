import ArturoInsight.Table

/-! Data of unknown shape, as files hold it and clients send it. -/

namespace ArturoInsight

inductive Key where
  | text (name : String)
  /-- A key of another kind, by the name of that kind and the text that stands for it. -/
  | other (kind shown : String)
deriving DecidableEq, Repr, Inhabited

def Key.shown : Key → String
  | text name => name
  | other _ shown => shown

inductive Raw where
  | null
  | bool (value : Bool)
  | int (value : Int)
  /-- The number `mantissa / 10 ^ places`. -/
  | decimal (mantissa : Int) (places : Nat)
  | text (value : String)
  | list (items : List Raw)
  | set (items : List Raw)
  | map (entries : List (Key × Raw))
  /-- A value of another kind, by the name of that kind, the text that stands for it and whether it is falsy. -/
  | other (kind shown : String) (falsy : Bool)
deriving Repr, Inhabited

namespace Raw

def isFalsy : Raw → Bool
  | null => true
  | bool value => !value
  | int value => value == 0
  | decimal mantissa _ => mantissa == 0
  | text value => value.isEmpty
  | list items | set items => items.isEmpty
  | map entries => entries.isEmpty
  | other _ _ falsy => falsy

def kind : Raw → String
  | null => "NoneType"
  | bool _ => "bool"
  | int _ => "int"
  | decimal .. => "float"
  | text _ => "str"
  | list _ => "list"
  | set _ => "set"
  | map _ => "dict"
  | other kind _ _ => kind

def kindName (raw : Raw) : String := String.ofList (raw.kind.toList.reverse.takeWhile (· != '.')).reverse

def get? (entries : List (Key × Raw)) (name : String) : Option Raw :=
  (entries.reverse.find? fun entry => entry.1 == .text name).map (·.2)

end Raw

def Key.raw : Key → Raw
  | text name => .text name
  | other kind shown => .other kind shown false

inductive Unread where
  | undecodable
  /-- Their text is not written as data are. -/
  | refused
  /-- The reader fails on them in some other way. -/
  | broken
deriving DecidableEq, Repr

/-- What reads the value out of the bytes of a file. -/
abbrev Raw.Reader := ByteArray → Except Unread Raw

end ArturoInsight
