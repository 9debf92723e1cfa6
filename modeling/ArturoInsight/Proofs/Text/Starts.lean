import ArturoInsight.Proofs.Text.Readers
import Mathlib.Tactic.SplitIfs

/-! What a text starts with, and which pairs of characters occur in it. Blanks at its end do not count. -/

namespace ArturoInsight.Text

theorem after?_cons (c d : Char) (word rest : List Char) :
    after? (c :: word) (d :: rest) = if c = d then after? word rest else none := by
  by_cases same : c = d
  · simp [after?, same]
  · simp [after?, same]

theorem isPrefixOf_eq (word text : List Char) : word.isPrefixOf text = (after? word text).isSome := by
  unfold after?
  split_ifs with found <;> simp [found]

theorem head?_blanks {gap : List Char} (blanks : Blanks gap) {c : Char} (solid : isBlank c = false) :
    (gap.head? == some c) = false := by
  rw [beq_eq_false_iff_ne]
  intro head
  rw [blanks c (List.mem_of_head? head)] at solid
  contradiction

/-- A word that a text starts with does not reach into what begins with a character outside the word. -/
theorem after?_append {word rest : List Char} (apart : ∀ c ∈ rest.head?, c ∉ word) (text : List Char) :
    after? word (text ++ rest) = (after? word text).map (· ++ rest) := by
  induction word generalizing text with
  | nil => simp [after?]
  | cons c word ih =>
    cases text with
    | nil =>
      cases rest with
      | nil => rfl
      | cons d rest =>
        have other : c ≠ d := fun same => apart d rfl (same ▸ List.mem_cons_self)
        rw [List.nil_append, after?_cons, if_neg other]
        rfl
    | cons d text =>
      rw [List.cons_append, after?_cons, after?_cons]
      split_ifs
      · exact ih (fun d head inside => apart d head (List.mem_cons_of_mem c inside)) text
      · rfl

section Words

variable {word text : List Char} (solid : ∀ c ∈ word, isBlank c = false)

include solid

theorem not_mem_of_blanks {gap : List Char} (blanks : Blanks gap) : ∀ c ∈ gap.head?, c ∉ word := by
  intro c head inside
  have blank := blanks c (List.mem_of_mem_head? head)
  rw [solid c inside] at blank
  contradiction

theorem isPrefixOf_trimEnd : word.isPrefixOf (trimEnd text) = word.isPrefixOf text := by
  obtain ⟨gap, blanks, whole⟩ := exists_trimEnd text
  conv_rhs => rw [whole]
  rw [isPrefixOf_eq, isPrefixOf_eq, after?_append (not_mem_of_blanks solid blanks), Option.isSome_map]

end Words

theorem occursIn_pair (first second c : Char) (rest : List Char) : occursIn [first, second] (c :: rest) =
    (c == first && rest.head? == some second || occursIn [first, second] rest) := by
  have same {c d : Char} : (c == d) = (d == c) := BEq.comm
  cases rest with
  | nil => simp [occursIn, List.isPrefixOf]
  | cons d rest => simp [occursIn, List.isPrefixOf, @same first, @same second]

theorem occursIn_trimEnd {first second : Char} (solid : isBlank second = false) (text : List Char) :
    occursIn [first, second] (trimEnd text) = occursIn [first, second] text := by
  obtain ⟨gap, blanks, whole⟩ := exists_trimEnd text
  conv_rhs => rw [whole]
  generalize trimEnd text = text
  induction text with
  | nil =>
    rw [List.nil_append]
    clear whole
    induction gap with
    | nil => rfl
    | cons c gap ih =>
      have later := (List.forall_mem_cons.1 blanks).2
      rw [occursIn_pair, head?_blanks later solid, Bool.and_false, Bool.false_or]
      exact ih later
  | cons c text ih =>
    have head : ((text ++ gap).head? == some second) = (text.head? == some second) := by
      cases text with
      | nil => exact head?_blanks blanks solid
      | cons d text => rfl
    rw [List.cons_append, occursIn_pair, occursIn_pair, head, ih]

end ArturoInsight.Text
