import ArturoInsight.Raw.Basic

/-! Reading typed values out of raw ones. Every flaw is collected, in the order in which the values
are read. -/

namespace ArturoInsight

inductive Flaw where
  | missing | notRecord | notTable | notList | notSet | notText | notBool | unreadableBool
  | notInt | fractional | unreadableInt | tooLong | tooSmall | tooLarge
  | other (name : String)
deriving DecidableEq, Repr

structure Finding where
  path : List String
  flaw : Flaw
deriving DecidableEq, Repr

/-- A value with the flaws found on the way. It counts only where there are none. -/
structure Checked (α : Type) where
  findings : List Finding
  value : α

namespace Checked

instance : Monad Checked where
  pure value := ⟨[], value⟩
  bind checked next :=
    let later := next checked.value
    ⟨checked.findings ++ later.findings, later.value⟩

def result (checked : Checked α) : Except (List Finding) α :=
  if checked.findings.isEmpty then .ok checked.value else .error checked.findings

def flawed (path : List String) (flaw : Flaw) (stand : α) : Checked α := ⟨[⟨path, flaw⟩], stand⟩

def read (path : List String) (stands : α) (how : Raw → Except Flaw α) (raw : Raw) : Checked α :=
  match how raw with
  | .ok value => pure value
  | .error flaw => flawed path flaw stands

end Checked

/-- What reads texts out of raw values. A text is read as itself. -/
structure TextValidator where
  read : Raw → Except Flaw String
  read_text (text : String) : read (.text text) = .ok text

end ArturoInsight
