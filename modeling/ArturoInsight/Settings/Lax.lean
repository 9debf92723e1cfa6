import ArturoInsight.Raw.Lax
import ArturoInsight.Settings.Leaf

/-! A lax reading of settings. -/

namespace ArturoInsight.Settings

def toIndentSize (raw : Raw) : Except Flaw IndentSize := do
  let number ← raw.toInt
  if low : number < 1 then .error .tooSmall
  else if high : 16 < number then .error .tooLarge
  else .ok { val := number.toNat }

def toFile : Raw → Except Flaw (Option String)
  | .null => .ok none
  | raw => (raw.toText).map some

def Validator.lax : Validator where
  read
    | .enabled | .undefinedIdentifiers | .typeChecks | .bracketBalance | .parameterNames | .typeNames => Raw.toBool
    | .maxProblems => Raw.toNat
    | .indentSize => toIndentSize
    | .level => Raw.toText
    | .file => toFile
  read_write leaf value := by
    cases leaf with
    | indentSize =>
      have low := value.pos
      have high := value.le
      simp only [Leaf.write, toIndentSize, Raw.toInt, bind, Except.bind]
      rw [dif_neg (by omega), dif_neg (by omega)]
      rfl
    | maxProblems => simp [Leaf.write, Raw.toNat, Raw.toInt, bind, Except.bind]
    | file => cases value <;> rfl
    | _ => rfl

end ArturoInsight.Settings
