import ArturoInsight.Layout.Lines
import ArturoInsight.Proofs.Lexical.Cells

/-! Stretches: the cells of a line cut where the tag changes. Put together again they give the cells, and
lists of texts that could have been cut so are cut so. -/

namespace ArturoInsight.Layout

open Text Lexical

def unstretch (parts : List (Tag × List Char)) : List Cell := parts.flatMap fun part => mark part.1 part.2

@[simp] theorem unstretch_cons (part : Tag × List Char) (rest : List (Tag × List Char)) :
    unstretch (part :: rest) = mark part.1 part.2 ++ unstretch rest := List.flatMap_cons

theorem unstretch_stretches (cells : List Cell) : unstretch (stretches cells) = cells := by
  induction cells with
  | nil => rfl
  | cons cell rest ih =>
    obtain ⟨c, tag⟩ := cell
    unfold stretches
    split
    next none =>
      rw [none] at ih
      rw [← ih]
      rfl
    next next text more found =>
      rw [found] at ih
      split_ifs with same
      · rw [← ih, ← same]
        rfl
      · rw [← ih]
        rfl

/-- Stretches as they are cut: none is empty, and no two in a row have one tag. -/
inductive Proper : List (Tag × List Char) → Prop where
  | nil : Proper []
  | cons {tag : Tag} {text : List Char} {rest : List (Tag × List Char)} :
      text ≠ [] → (∀ next ∈ rest.head?, next.1 ≠ tag) → Proper rest → Proper ((tag, text) :: rest)

theorem stretches_mark {tag : Tag} {text : List Char} {cells : List Cell} (some_ : text ≠ [])
    (other : ∀ next ∈ (stretches cells).head?, next.1 ≠ tag) :
    stretches (mark tag text ++ cells) = (tag, text) :: stretches cells := by
  induction text with
  | nil => contradiction
  | cons c text ih =>
    rw [mark_cons, List.cons_append, stretches]
    cases text with
    | nil =>
      rw [mark_nil, List.nil_append]
      split
      next none => rw [none]
      next next text more found =>
        have differs : next ≠ tag := other (next, text) (by rw [found]; rfl)
        rw [if_neg differs, found]
    | cons d text =>
      rw [ih (by simp)]
      exact if_pos rfl

theorem Proper.stretches_unstretch {parts : List (Tag × List Char)} (proper : Proper parts) :
    stretches (unstretch parts) = parts := by
  induction proper with
  | nil => rfl
  | @cons tag text rest some_ differ _ ih =>
    rw [unstretch_cons, stretches_mark some_ (by rwa [ih]), ih]

theorem proper_stretches (cells : List Cell) : Proper (stretches cells) := by
  induction cells with
  | nil => exact .nil
  | cons cell rest ih =>
    obtain ⟨c, tag⟩ := cell
    rw [stretches]
    split
    next none => exact .cons (by simp) (by simp) .nil
    next next text more found =>
      rw [found] at ih
      split_ifs with same
      · obtain _ | ⟨_, differ, proper⟩ := ih
        exact .cons (by simp) (by rwa [← same]) proper
      · exact .cons (by simp) (by simpa using same) ih

abbrev Filled (parts : List (Tag × List Char)) : Prop := ∀ part ∈ parts, part.2 ≠ []

theorem Proper.filled {parts : List (Tag × List Char)} (proper : Proper parts) : Filled parts := by
  induction proper with
  | nil => exact List.forall_mem_nil _
  | cons some_ _ _ ih => exact List.forall_mem_cons.2 ⟨some_, ih⟩

theorem unstretch_eq_nil {parts : List (Tag × List Char)} (filled : Filled parts) :
    unstretch parts = [] ↔ parts = [] := by
  cases parts with
  | nil => simp [unstretch]
  | cons part rest =>
    have some_ := filled part List.mem_cons_self
    simp [mark, some_]

theorem Proper.of_tags {first second : List (Tag × List Char)} (proper : Proper first)
    (same : second.map (·.1) = first.map (·.1)) (filled : Filled second) : Proper second := by
  induction proper generalizing second with
  | nil =>
    obtain rfl := List.map_eq_nil_iff.1 same
    exact .nil
  | @cons tag text rest _ differ _ ih =>
    obtain ⟨part, more, rfl⟩ := List.exists_cons_of_ne_nil (show second ≠ [] by rintro rfl; simp at same)
    obtain ⟨rfl, sameRest⟩ := List.cons.inj same
    obtain ⟨some_, later⟩ := List.forall_mem_cons.1 filled
    refine .cons some_ (fun next head => ?_) (ih sameRest later)
    have tags := congrArg List.head? sameRest
    rw [List.head?_map, List.head?_map, Option.mem_def.1 head] at tags
    obtain ⟨first, found, same⟩ := Option.map_eq_some_iff.1 tags.symm
    have same : first.1 = next.1 := same
    rw [← same]
    exact differ first found

theorem Proper.tail {part : Tag × List Char} {rest : List (Tag × List Char)}
    (proper : Proper (part :: rest)) : Proper rest := by
  obtain _ | ⟨-, -, later⟩ := proper
  exact later

theorem Proper.head?_unstretch {tag : Tag} {text : List Char} {rest : List (Tag × List Char)}
    (proper : Proper ((tag, text) :: rest)) : ∀ cell ∈ (unstretch rest).head?, cell.2 ≠ tag := by
  obtain _ | ⟨-, differ, later⟩ := proper
  intro cell head
  cases later with
  | nil => simp [unstretch] at head
  | @cons next more parts some_ _ _ =>
    obtain ⟨c, more, rfl⟩ := List.exists_cons_of_ne_nil some_
    obtain rfl : (c, next) = cell := by simpa using head
    exact differ _ rfl

end ArturoInsight.Layout
