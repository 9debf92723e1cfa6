import ArturoInsight.Lint.Undefined
import ArturoInsight.Proofs.Symbol.Name
import Mathlib.Data.List.Nodup
import Mathlib.Data.List.Pairwise

/-! The words that are looked up in a line: where they stand, and that every character of a word is in one of them. -/

namespace ArturoInsight.Undefined

open Text Lexical

/-- A word in its place, between what comes before it and what comes after it. -/
structure Stands (text front tail : List Char) (found : Found Use) : Prop where
  whole : text = front ++ (found.value.word ++ tail)
  start : found.start = front.length
  stop : found.stop = front.length + found.value.word.length
  taken : Name.Taken tail found.value.word
  first : found.value.word.head?.any isAsciiWord = true
  before : found.value.before = front.getLast?
  next : found.value.next = tail.head?

theorem use_eq_some {before : Option Char} {text tail : List Char} {value : Use} :
    use before text = some (value, tail) ↔ before.any isAsciiWord = false ∧ text = value.word ++ tail ∧
      Name.Taken tail value.word ∧ value.word.head?.any isAsciiWord = true ∧ value.before = before ∧
      value.next = tail.head? := by
  unfold use
  rw [Option.ite_none_left_eq_some, Option.map_eq_some_iff]
  constructor
  · intro reads
    obtain ⟨opens, ⟨word, rest⟩, token, same⟩ := reads
    obtain ⟨rfl, rfl⟩ := Prod.mk.inj same
    obtain ⟨whole, taken, first⟩ := Name.token?_eq_some.1 token
    exact ⟨by simpa using opens, whole, taken, first, rfl, rfl⟩
  · intro stands
    obtain ⟨opens, whole, taken, first, rfl, next⟩ := stands
    refine ⟨by simpa using opens, (value.word, tail), Name.token?_eq_some.2 ⟨whole, taken, first⟩, ?_⟩
    dsimp only
    rw [← next]

theorem length_of_use (before : Option Char) (text : List Char) (value : Use) (after : List Char)
    (reads : use before text = some (value, after)) : value.word.length + after.length = text.length := by
  rw [(use_eq_some.1 reads).2.1, List.length_append]

variable {text : List Char} {found other : Found Use}

theorem exists_stands (member : found ∈ finds use text) : ∃ front tail, Stands text front tail found := by
  obtain ⟨front, back, whole, start, tail, reads⟩ := exists_of_mem_findsFrom member
  obtain ⟨-, same, taken, first, before, next⟩ := use_eq_some.1 reads
  have stop := stop_of_mem_findsFrom length_of_use member
  rw [Nat.zero_add] at start
  rw [start] at stop
  rw [Option.or_none] at before
  exact ⟨front, tail, by rw [whole, same], start, stop, taken, first, before, next⟩

theorem eq_of_start (member : found ∈ finds use text) (other_member : other ∈ finds use text)
    (same : found.start = other.start) : found = other := by
  have once : ((finds use text).map (·.start)).Nodup :=
    List.pairwise_map.2 ((pairwise_findsFrom 0 0 none text).1.imp fun less => less.ne)
  exact List.inj_on_of_nodup_map once member other_member same

theorem pairwise_stop (text : List Char) : (finds use text).Pairwise fun left right => left.stop ≤ right.start := by
  apply (pairwise_findsFrom_apart length_of_use 0 0 none text).1.imp_of_mem
  intro left right member _ apart
  rw [stop_of_mem_findsFrom length_of_use member]
  exact apart

theorem stop_le_of_start_lt (member : found ∈ finds use text) (other_member : other ∈ finds use text)
    (earlier : found.start < other.start) : found.stop ≤ other.start := by
  have symmetric : Std.Symm fun left right : Found Use => left.stop ≤ right.start ∨ right.stop ≤ left.start :=
    ⟨fun _ _ => Or.symm⟩
  have apart : (finds use text).Pairwise fun left right => left.stop ≤ right.start ∨ right.stop ≤ left.start :=
    (pairwise_stop text).imp .inl
  have differ : found ≠ other := fun same => absurd (congrArg Found.start same) (Nat.ne_of_lt earlier)
  rcases apart.forall member other_member differ with before | after
  · exact before
  · have columns := stop_of_mem_findsFrom length_of_use other_member
    omega

section Covering

variable {word tail front back : List Char} {c : Char}

theorem length_lt_of_taken (taken : Name.Taken tail word) (same : word ++ tail = front ++ c :: back)
    (letter : isAsciiWord c = true) (next : ∃ d ∈ back.head?, isNamePart d = true)
    (inside : front.length < word.length) : front.length + 1 < word.length := by
  by_contra shorter
  have size : word.length = (front ++ [c]).length := by
    rw [List.length_append, List.length_singleton]
    omega
  have split : word ++ tail = (front ++ [c]) ++ back := by simpa using same
  obtain ⟨whole, rest⟩ := List.append_inj split size
  cases taken with
  | marked =>
    have last : '?' = c := by simpa using (List.append_inj' whole rfl).2
    rw [← last] at letter
    exact absurd letter (by decide)
  | plain _ _ ends =>
    obtain ⟨d, head, part⟩ := next
    rw [← rest] at head
    rw [(ends d head).1] at part
    contradiction

theorem not_isAsciiWord_of_taken (taken : Name.Taken tail word)
    (letter : word.getLast?.any isAsciiWord = true) : tail.head?.any isAsciiWord = false := by
  cases taken with
  | marked =>
    rw [List.getLast?_concat] at letter
    exact absurd letter (by decide)
  | plain _ _ ends =>
    cases tail with
    | nil => rfl
    | cons d tail =>
      have part : isNamePart d = false := (ends d rfl).1
      simp only [isNamePart, Bool.or_eq_false_iff] at part
      simpa using part.1

theorem exists_use {before : Option Char} (opens : before.any isAsciiWord = false) (letter : isAsciiWord c = true)
    (back : List Char) : ∃ value tail, use before (c :: back) = some (value, tail) := by
  simp [use, Name.token?, opens, letter]

theorem not_isAsciiWord_of_use_eq_none {before : Option Char} {text : List Char}
    (opens : before.any isAsciiWord = true → text.head?.any isAsciiWord = false) (fails : use before text = none) :
    text.head?.any isAsciiWord = false := by
  cases text with
  | nil => rfl
  | cons d more =>
    by_contra first
    have start : isAsciiWord d = true := by simpa using first
    have apart : before.any isAsciiWord = false := by
      by_contra other
      exact first (opens (by simpa using other))
    obtain ⟨value, tail, found⟩ := exists_use apart start more
    rw [found] at fails
    contradiction

theorem exists_covering_from (column : Nat) (before : Option Char)
    (opens : before.any isAsciiWord = true → (front ++ c :: back).head?.any isAsciiWord = false)
    (letter : isAsciiWord c = true) :
    ∃ found ∈ findsFrom use column 0 before (front ++ c :: back), found.start ≤ column + front.length ∧
      column + front.length < found.stop ∧
      ((∃ d ∈ back.head?, isNamePart d = true) → column + front.length + 1 < found.stop) := by
  induction size : front.length using Nat.strong_induction_on generalizing front column before with
  | h size ih =>
  subst size
  cases reads : use before (front ++ c :: back) with
  | some result =>
    obtain ⟨value, tail⟩ := result
    obtain ⟨-, same, taken, -⟩ := use_eq_some.1 reads
    have some_ := taken.ne_nil
    by_cases inside : front.length < value.word.length
    · rw [same] at reads ⊢
      rw [findsFrom_some some_ reads]
      refine ⟨_, List.mem_cons_self, Nat.le_add_right .., Nat.add_lt_add_left inside _, fun next => ?_⟩
      have later := length_lt_of_taken taken same.symm letter next inside
      dsimp only
      omega
    · obtain ⟨rest, rfl⟩ : value.word <+: front :=
        List.prefix_of_prefix_length_le ⟨tail, same.symm⟩ (List.prefix_append _ _) (Nat.le_of_not_lt inside)
      rw [List.append_assoc] at same reads ⊢
      have later : tail = rest ++ c :: back := (List.append_cancel_left same).symm
      rw [later] at taken reads
      have shorter : rest.length < (value.word ++ rest).length := by
        rw [List.length_append]
        exact Nat.lt_add_of_pos_left (List.length_pos_iff.2 some_)
      obtain ⟨found, member, low, high, next⟩ := ih rest.length shorter (column + value.word.length)
        value.word.getLast? (not_isAsciiWord_of_taken taken) rfl
      rw [findsFrom_some some_ reads, List.length_append, ← Nat.add_assoc]
      exact ⟨found, List.mem_cons_of_mem _ member, low, high, next⟩
  | none =>
    have other := not_isAsciiWord_of_use_eq_none opens reads
    cases front with
    | nil =>
      rw [List.nil_append, List.head?_cons, Option.any_some, letter] at other
      contradiction
    | cons d front =>
      rw [List.cons_append, List.head?_cons] at other
      have opens : (some d).any isAsciiWord = true → (front ++ c :: back).head?.any isAsciiWord = false := by
        intro start
        rw [other] at start
        contradiction
      obtain ⟨found, member, low, high, next⟩ := ih front.length (Nat.lt_succ_self _) (column + 1) (some d) opens rfl
      have place : column + (d :: front).length = column + 1 + front.length := by
        rw [List.length_cons]
        omega
      rw [List.cons_append] at reads ⊢
      rw [findsFrom_none reads, place]
      exact ⟨found, member, low, high, next⟩

theorem exists_covering (letter : isAsciiWord c = true) (front back : List Char) :
    ∃ found ∈ finds use (front ++ c :: back), found.start ≤ front.length ∧ front.length < found.stop ∧
      ((∃ d ∈ back.head?, isNamePart d = true) → front.length + 1 < found.stop) := by
  have covering := @exists_covering_from front back c 0 none (by simp) letter
  simp only [Nat.zero_add] at covering
  exact covering

end Covering

end ArturoInsight.Undefined
