import ArturoInsight.Proofs.Text.Readers
import ArturoInsight.Symbol.Name
import Mathlib.Tactic.SplitIfs
import Mathlib.Tactic.Tauto

/-! What the readers of names take: a first character, the longest run of name characters after it, and
perhaps a question mark. -/

namespace ArturoInsight.Name

open Text

theorem not_isBlank_of_isNamePart {c : Char} (part : isNamePart c = true) : isBlank c = false := by
  have small : isAscii c = true ∧ ¬ c.toNat ≤ 32 := by
    simp only [isNamePart, isAsciiWord, isAsciiLetter, isLower, isUpper, isAsciiDigit, isAscii,
      Bool.or_eq_true, Bool.and_eq_true, decide_eq_true_eq, beq_iff_eq] at part ⊢
    rcases part with (((part | part) | part) | rfl) | rfl <;> first | omega | decide
  have space : c ≠ ' ' := by
    rintro rfl
    exact small.2 (by decide)
  simp only [isBlank, isAsciiBlank, small.1, Bool.not_true, Bool.false_and, Bool.or_false,
    Bool.or_eq_false_iff, Bool.and_eq_false_iff, decide_eq_false_iff_not, beq_eq_false_iff_ne]
  exact ⟨⟨space, by omega⟩, by omega⟩

/-- A name as a reader takes it off a text, before the text that remains. -/
inductive Taken (tail : List Char) : List Char → Prop where
  | marked {run : List Char} : run ≠ [] → (∀ c ∈ run, isNamePart c = true) → Taken tail (run ++ ['?'])
  | plain {run : List Char} : run ≠ [] → (∀ c ∈ run, isNamePart c = true) →
      (∀ c ∈ tail.head?, isNamePart c = false ∧ c ≠ '?') → Taken tail run

theorem Taken.ne_nil {name tail : List Char} (taken : Taken tail name) : name ≠ [] := by
  cases taken with
  | marked => simp
  | plain some_ => exact some_

theorem Taken.part {name tail : List Char} (taken : Taken tail name) {c : Char} (member : c ∈ name) :
    isNamePart c = true ∨ c = '?' := by
  cases taken with
  | marked _ part => simpa [or_comm] using (List.mem_append.1 member).imp_left (part c)
  | plain _ part => exact .inl (part c member)

theorem Taken.solid {name tail : List Char} (taken : Taken tail name) {c : Char} (member : c ∈ name) :
    isBlank c = false := by
  obtain part | rfl := taken.part member
  · exact not_isBlank_of_isNamePart part
  · decide

/-- A name is taken as well before any other text that does not go on with it. -/
theorem Taken.before {name tail other : List Char} (taken : Taken tail name)
    (ends : ∀ c ∈ other.head?, isNamePart c = false ∧ c ≠ '?') : Taken other name := by
  cases taken with
  | marked some_ part => exact .marked some_ part
  | plain some_ part => exact .plain some_ part ends

theorem taken_iff {first : Char} (part : isNamePart first = true) {rest name tail : List Char} :
    (first :: rest.takeWhile isNamePart ++ (question (rest.dropWhile isNamePart)).1 = name ∧
      (question (rest.dropWhile isNamePart)).2 = tail) ↔
    first :: rest = name ++ tail ∧ Taken tail name := by
  constructor
  · obtain ⟨run, after, rfl, all, stops⟩ := exists_run isNamePart rest
    rw [takeWhile_run all stops, dropWhile_run all stops]
    rintro ⟨rfl, rfl⟩
    have parts : ∀ c ∈ first :: run, isNamePart c = true := List.forall_mem_cons.2 ⟨part, all⟩
    unfold question
    split
    · exact ⟨by simp, .marked (by simp) parts⟩
    next other =>
      refine ⟨by simp, ?_⟩
      rw [List.append_nil]
      refine .plain (by simp) parts fun c head => ⟨stops c head, ?_⟩
      rintro rfl
      obtain ⟨more, rfl⟩ := List.head?_eq_some_iff.1 head
      exact other more rfl
  · rintro ⟨whole, taken⟩
    cases taken with
    | @marked run some_ parts =>
      obtain ⟨c, more, rfl⟩ := List.exists_cons_of_ne_nil some_
      obtain ⟨rfl, rfl⟩ : first = c ∧ rest = more ++ '?' :: tail := by simpa using whole
      have all := (List.forall_mem_cons.1 parts).2
      have stops : ∀ c ∈ ('?' :: tail).head?, isNamePart c = false := by simp +decide
      rw [takeWhile_run all stops, dropWhile_run all stops]
      exact ⟨rfl, rfl⟩
    | plain some_ parts ends =>
      obtain ⟨c, more, rfl⟩ := List.exists_cons_of_ne_nil some_
      obtain ⟨rfl, rfl⟩ : first = c ∧ rest = more ++ tail := by simpa using whole
      have all := (List.forall_mem_cons.1 parts).2
      have stops : ∀ c ∈ tail.head?, isNamePart c = false := fun c head => (ends c head).1
      rw [takeWhile_run all stops, dropWhile_run all stops]
      cases tail with
      | nil => simp [question]
      | cons c tail =>
        have other : c ≠ '?' := (ends c rfl).2
        simp [question, other]

theorem reads_iff {start : Char → Bool} (starts : ∀ c, start c = true → isNamePart c = true)
    {reads : List Char → Option (List Char × List Char)} (nothing : reads [] = none)
    (equation : ∀ first rest, reads (first :: rest) =
      if start first then
        some (first :: rest.takeWhile isNamePart ++ (question (rest.dropWhile isNamePart)).1,
          (question (rest.dropWhile isNamePart)).2)
      else none)
    {text name tail : List Char} : reads text = some (name, tail) ↔
      text = name ++ tail ∧ Taken tail name ∧ name.head?.any start = true := by
  cases text with
  | nil =>
    rw [nothing]
    simp only [reduceCtorEq, false_iff]
    rintro ⟨whole, taken, -⟩
    exact taken.ne_nil (List.append_eq_nil_iff.1 whole.symm).1
  | cons first rest =>
    rw [equation]
    constructor
    · intro found
      split_ifs at found with started
      rw [Option.some.injEq, Prod.mk.injEq] at found
      obtain ⟨whole, taken⟩ := (taken_iff (starts first started)).1 found
      refine ⟨whole, taken, ?_⟩
      rw [← found.1]
      exact started
    · rintro ⟨whole, taken, started⟩
      obtain ⟨c, more, rfl⟩ := List.exists_cons_of_ne_nil taken.ne_nil
      obtain ⟨rfl, -⟩ := List.cons.inj whole
      have started : start first = true := started
      rw [if_pos started, Option.some.injEq, Prod.mk.injEq]
      exact (taken_iff (starts first started)).2 ⟨whole, taken⟩

theorem isNamePart_of_isNameStart (c : Char) (start : isNameStart c = true) : isNamePart c = true := by
  simp only [isNameStart, isNamePart, isAsciiWord, Bool.or_eq_true] at start ⊢
  tauto

theorem isNamePart_of_isAsciiWord (c : Char) (word : isAsciiWord c = true) : isNamePart c = true := by
  simp [isNamePart, word]

theorem read?_eq_some {text name tail : List Char} : read? text = some (name, tail) ↔
    text = name ++ tail ∧ Taken tail name ∧ name.head?.any isNameStart = true :=
  reads_iff isNamePart_of_isNameStart rfl fun _ _ => rfl

theorem colon_within {text name tail after : List Char} (reads : read? text = some (name, tail))
    (colon : after? [':'] (tail.dropWhile isAsciiBlank) = some after) :
    0 < name.length ∧ name.length + (tail.takeWhile isAsciiBlank).length < text.length := by
  obtain ⟨rfl, taken, -⟩ := read?_eq_some.1 reads
  have size := congrArg List.length (eq_of_after?_dropWhile colon)
  rw [List.length_append, List.length_append, List.length_singleton] at size
  refine ⟨List.length_pos_iff.2 taken.ne_nil, ?_⟩
  rw [List.length_append]
  omega

theorem token?_eq_some {text name tail : List Char} : token? text = some (name, tail) ↔
    text = name ++ tail ∧ Taken tail name ∧ name.head?.any isAsciiWord = true :=
  reads_iff isNamePart_of_isAsciiWord rfl fun _ _ => rfl

theorem question_append {rest : List Char} (ends : ∀ c ∈ rest.head?, c ≠ '?') (text : List Char) :
    question (text ++ rest) = ((question text).1, (question text).2 ++ rest) := by
  cases text with
  | nil =>
    cases rest with
    | nil => rfl
    | cons c rest =>
      have other : c ≠ '?' := ends c rfl
      simp [question, other]
  | cons c text =>
    by_cases mark : c = '?'
    · simp [question, mark]
    · simp [question, mark]

theorem read?_append {rest : List Char} (ends : ∀ c ∈ rest.head?, isNamePart c = false ∧ c ≠ '?')
    (text : List Char) : read? (text ++ rest) = (read? text).map fun (name, tail) => (name, tail ++ rest) := by
  have stops : ∀ c ∈ rest.head?, isNamePart c = false := fun c head => (ends c head).1
  cases text with
  | nil =>
    cases rest with
    | nil => rfl
    | cons c rest =>
      have other : isNameStart c = false := by
        by_contra start
        have part := isNamePart_of_isNameStart c (by simpa using start)
        rw [stops c rfl] at part
        contradiction
      simp [read?, other]
  | cons first text =>
    obtain ⟨takes, drops⟩ := takeWhile_append_stop text stops
    rw [List.cons_append, read?, read?, takes, drops, question_append fun c head => (ends c head).2]
    split_ifs <;> rfl

end ArturoInsight.Name
