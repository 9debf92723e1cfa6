import ArturoInsight.Text.Cut

/-! Places in a document, counted in characters from zero, and changes to its text. -/

namespace ArturoInsight

structure Position where
  line : Nat
  character : Nat
deriving DecidableEq, Repr

/-- The largest line and the largest character that clients and the service can exchange. -/
def Position.limit : Nat := 2147483647

def Position.ofInts? (line character : Int) : Option Position :=
  if 0 ≤ line ∧ line ≤ limit ∧ 0 ≤ character ∧ character ≤ limit then
    some ⟨line.toNat, character.toNat⟩
  else none

/-- From one position up to another, the second left out. -/
structure Region where
  first : Position
  last : Position
deriving DecidableEq, Repr

namespace Region

def onLine (line start stop : Nat) : Region := ⟨⟨line, start⟩, ⟨line, stop⟩⟩

end Region

structure Location where
  uri : String
  region : Region
deriving DecidableEq, Repr

structure Edit where
  region : Region
  text : List Char
deriving DecidableEq, Repr

end ArturoInsight
