import ArturoInsight.Proofs.Layout.Inferred

/-! A binding read with fewer blanks allowed before its colon: it is the same or it is gone, and where it binds
a character that is an operator nothing else on its line is bound instead. -/

namespace ArturoInsight.Layout

open Text Lexical Binding

theorem joins_of_isJoined {gap : List Char} (joined : isJoined gap = true) : joins gap = true := by
  rw [joins, ← isJoined, joined]
  rfl

variable {line : List Spaced}

theorem colon?_joins {found : Bool × List Spaced} (strict : colon? isJoined line = some found) :
    colon? joins line = some found := by
  cases line with
  | nil => contradiction
  | cons next rest =>
    simp only [colon?, Option.ite_none_right_eq_some, Bool.and_eq_true] at strict ⊢
    exact ⟨⟨strict.1.1, joins_of_isJoined strict.1.2⟩, strict.2⟩

theorem label?_joins {found : List Char × Bool × List Spaced} (strict : label? isJoined line = some found) :
    label? joins line = some found := by
  induction line generalizing found with
  | nil => contradiction
  | cons next rest ih =>
    rw [label?] at strict ⊢
    split_ifs at strict ⊢
    · obtain ⟨pair, reads, rfl⟩ := Option.map_eq_some_iff.1 strict
      rw [ih reads]
      rfl
    · obtain ⟨pair, reads, rfl⟩ := Option.map_eq_some_iff.1 strict
      rw [colon?_joins reads]
      rfl
    · obtain ⟨pair, reads, rfl⟩ := Option.map_eq_some_iff.1 strict
      rw [colon?_joins reads]
      rfl

theorem bound?_joins {first : Spaced} {found : List Char × List Spaced}
    (strict : bound? isJoined first line = some found) : bound? joins first line = some found := by
  unfold bound? at strict ⊢
  split_ifs at strict ⊢
  obtain ⟨label, reads, rest⟩ := Option.bind_eq_some_iff.1 strict
  rw [label?_joins reads]
  exact rest

theorem colon?_eq_some {fits : List Char → Bool} {joined : Bool} {after : List Spaced}
    (found : colon? fits line = some (joined, after)) : ∃ gap, line = ⟨gap, ':', true⟩ :: after := by
  cases line with
  | nil => contradiction
  | cons next rest =>
    simp only [colon?, Option.ite_none_right_eq_some, Bool.and_eq_true, beq_iff_eq, Option.some.injEq,
      Prod.mk.injEq] at found
    obtain ⟨gap, c, code⟩ := next
    obtain ⟨⟨⟨rfl, rfl⟩, -⟩, -, rfl⟩ := found
    exact ⟨gap, rfl⟩

theorem boundFrom_colon (fits : List Char → Bool) (inName : Bool) (gap : List Char) (after : List Spaced) :
    boundFrom fits inName (⟨gap, ':', true⟩ :: after) = boundFrom fits false after := by
  have other : isNameStart ':' = false ∧ isNamePart ':' = false := by decide
  simp [boundFrom, bound?, other]

theorem boundFrom_label {fits other : List Char → Bool} {name : List Char} {joined : Bool} {after : List Spaced}
    (found : label? fits line = some (name, joined, after)) :
    boundFrom other true line = boundFrom other false after := by
  induction line generalizing name with
  | nil => contradiction
  | cons next rest ih =>
    rw [label?] at found
    split_ifs at found with part mark
    · obtain ⟨⟨more, tail⟩, reads, same⟩ := Option.map_eq_some_iff.1 found
      obtain ⟨-, rfl⟩ := Prod.mk.inj same
      rw [Bool.and_eq_true] at part
      rw [boundFrom, part.1, part.2, if_pos (Bool.and_self true), Option.none_or, ih reads]
    · obtain ⟨pair, reads, same⟩ := Option.map_eq_some_iff.1 found
      obtain ⟨-, rfl⟩ := Prod.mk.inj same
      obtain ⟨gap, rfl⟩ := colon?_eq_some reads
      rw [Bool.and_eq_true, beq_iff_eq] at mark
      have question : isNamePart '?' = false := by decide
      rw [boundFrom, mark.1, mark.2, if_pos (Bool.and_self true), Option.none_or, question, boundFrom_colon]
    · obtain ⟨pair, reads, same⟩ := Option.map_eq_some_iff.1 found
      obtain ⟨-, rfl⟩ := Prod.mk.inj same
      obtain ⟨gap, same⟩ := colon?_eq_some reads
      rw [same, boundFrom_colon]

theorem boundFrom_none {fits : List Char → Bool} (silent : ∀ item ∈ line, isNameStart item.char = false)
    (inName : Bool) : boundFrom fits inName line = none := by
  induction line generalizing inName with
  | nil => rfl
  | cons first rest ih =>
    obtain ⟨start, later⟩ := List.forall_mem_cons.1 silent
    rw [boundFrom, ih later]
    simp [bound?, start]

theorem not_isNameStart_of_isSignCharacter (character : isSignCharacter (trim (written line)) = true) :
    ∀ item ∈ line, isNameStart item.char = false := by
  obtain ⟨d, sign, value⟩ := exists_of_isSignCharacter character
  have only := solids_trim_sign value sign
  intro item member
  have inside : item.char ∈ written line := List.mem_flatMap.2 ⟨item, member, by simp⟩
  cases blank : isBlank item.char with
  | true => exact not_isNameStart_of_isBlank blank
  | false =>
    have solid : item.char ∈ solids (written line) := List.mem_filter.2 ⟨inside, by simp [blank]⟩
    rw [only, List.mem_cons, List.mem_singleton] at solid
    obtain mark | same := solid
    · rw [mark]
      decide
    · rw [same]
      exact not_isNameStart_of_isMark (isMark_of_isSign sign)

theorem boundFrom_strict {loose strict : List Char × List Spaced} {inName : Bool}
    (bound : boundFrom joins inName line = some loose) (found : boundFrom isJoined inName line = some strict)
    (character : isSignCharacter (trim (written loose.2)) = true) : strict = loose := by
  induction line generalizing inName with
  | nil => contradiction
  | cons first rest ih =>
    rw [boundFrom] at bound found
    cases inside : inName && first.gap.isEmpty with
    | true =>
      rw [inside] at bound found
      exact ih bound found
    | false =>
      simp only [inside, Bool.false_eq_true, if_false] at bound found
      cases strictly : bound? isJoined first rest with
      | some here =>
        rw [strictly, Option.some_or] at found
        rw [bound?_joins strictly, Option.some_or] at bound
        exact Option.some.inj (found.symm.trans bound)
      | none =>
        rw [strictly, Option.none_or] at found
        cases loosely : bound? joins first rest with
        | none =>
          rw [loosely, Option.none_or] at bound
          exact ih bound found
        | some here =>
          rw [loosely, Option.some_or, Option.some.injEq] at bound
          subst bound
          unfold bound? at loosely
          split_ifs at loosely with start
          obtain ⟨⟨name, joined, after⟩, label, same⟩ := Option.bind_eq_some_iff.1 loosely
          rw [Option.ite_none_right_eq_some, Option.some.injEq] at same
          obtain ⟨-, rfl⟩ := same
          rw [Bool.and_eq_true] at start
          have silent := not_isNameStart_of_isSignCharacter character
          rw [Name.isNamePart_of_isNameStart _ start.2, boundFrom_label label, boundFrom_none silent] at found
          contradiction

end ArturoInsight.Layout
