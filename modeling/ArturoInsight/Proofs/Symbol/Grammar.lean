import ArturoInsight.Proofs.Symbol.Name

/-! The grammar of names, apart from any reader, and the longest name that a text starts with. A word of name
characters is the whole of that name exactly when nothing goes on with it. -/

namespace ArturoInsight.Name

open Text

/-- A letter or an underscore, then letters, digits, underscores and hyphens, and at most one question mark, at
the end. -/
inductive Formed : List Char → Prop where
  | plain {first : Char} {rest : List Char} : isNameStart first = true → (∀ c ∈ rest, isNamePart c = true) →
      Formed (first :: rest)
  | marked {first : Char} {rest : List Char} : isNameStart first = true → (∀ c ∈ rest, isNamePart c = true) →
      Formed (first :: rest ++ ['?'])

theorem isName_iff {text : List Char} : isName text = true ↔ Formed text := by
  constructor
  · intro valid
    cases text with
    | nil => contradiction
    | cons first rest =>
      obtain ⟨run, tail, rfl, parts, stops⟩ := exists_run isNamePart rest
      simp only [isName, dropWhile_run parts stops, Bool.and_eq_true, Bool.or_eq_true, beq_iff_eq] at valid
      obtain ⟨start, rfl | rfl⟩ := valid
      · rw [List.append_nil]
        exact .plain start parts
      · exact .marked start parts
  · intro formed
    cases formed with
    | @plain first rest start parts =>
      have whole : rest.dropWhile isNamePart = [] := List.dropWhile_eq_nil_iff.2 parts
      simp [isName, start, whole]
    | @marked first rest start parts =>
      have mark : isNamePart '?' = false := by decide
      have rest_ : (rest ++ ['?']).dropWhile isNamePart = ['?'] := dropWhile_run parts (by simpa using mark)
      simp [isName, start, rest_]

theorem parts_cons {first : Char} {rest : List Char} (start : isNameStart first = true)
    (parts : ∀ c ∈ rest, isNamePart c = true) : ∀ c ∈ first :: rest, isNamePart c = true :=
  List.forall_mem_cons.2 ⟨isNamePart_of_isNameStart first start, parts⟩

theorem Formed.part {name : List Char} (formed : Formed name) {c : Char} (member : c ∈ name) :
    isNamePart c = true ∨ c = '?' := by
  cases formed with
  | plain start parts => exact .inl (parts_cons start parts c member)
  | marked start parts =>
    rcases List.mem_append.1 member with inside | mark
    · exact .inl (parts_cons start parts c inside)
    · exact .inr (List.mem_singleton.1 mark)

structure Leads (name text : List Char) : Prop where
  formed : Formed name
  starts : name <+: text
  longest : ∀ other, Formed other → other <+: text → other.length ≤ name.length

/-- A word goes on with a name character or with a question mark, and a name it stays. -/
theorem Leads.ends {first : Char} {run rest : List Char} (start : isNameStart first = true)
    (parts : ∀ c ∈ run, isNamePart c = true) (leads : Leads (first :: run) (first :: run ++ rest)) :
    ∀ c ∈ rest.head?, isNamePart c = false ∧ c ≠ '?' := by
  intro c head
  obtain ⟨tail, rfl⟩ := List.head?_eq_some_iff.1 head
  have further : (first :: run) ++ [c] <+: first :: run ++ c :: tail := ⟨tail, by simp⟩
  have shorter (longer : Formed ((first :: run) ++ [c])) : False := by
    have bound := leads.longest _ longer further
    rw [List.length_append, List.length_singleton] at bound
    omega
  constructor
  · by_contra part
    refine shorter (.plain start fun d member => ?_)
    rcases List.mem_append.1 member with inside | last
    · exact parts d inside
    · rw [List.mem_singleton.1 last]
      simpa using part
  · rintro rfl
    exact shorter (.marked start parts)

theorem leads_of_ends {name rest : List Char} (formed : Formed name)
    (ends : ∀ c ∈ rest.head?, isNamePart c = false ∧ c ≠ '?') : Leads name (name ++ rest) := by
  refine ⟨formed, List.prefix_append name rest, fun other valid starts => ?_⟩
  by_contra longer
  obtain ⟨more, rfl⟩ := List.prefix_of_prefix_length_le (List.prefix_append name rest) starts (by omega)
  obtain ⟨tail, rfl⟩ := (List.prefix_append_right_inj name).1 starts
  cases more with
  | nil => simp at longer
  | cons c more =>
    obtain ⟨other, mark⟩ := ends c rfl
    rcases valid.part (c := c) (by simp) with part | same
    · rw [part] at other
      contradiction
    · exact mark same

end ArturoInsight.Name
