import ArturoInsight.Proofs.Lexical.Cells
import Mathlib.Data.List.Count
import Mathlib.Data.List.Induction
import Mathlib.Data.List.Infix

/-! Balanced brackets: every one has its partner. What comes first of balanced brackets closes nothing that it does
not open, and what comes last opens nothing that it does not close; brackets that close more than they open close one
from before. -/

namespace ArturoInsight.Lexical

def isBracket (cell : Cell) : Bool := cell.2.isCode && (cell.1 == '[' || cell.1 == ']')

def bracketsIn (cells : List Cell) : List Char := (cells.filter isBracket).map (·.1)

@[simp] theorem bracketsIn_append (first second : List Cell) :
    bracketsIn (first ++ second) = bracketsIn first ++ bracketsIn second := by
  simp [bracketsIn]

theorem bracketsIn_cons {tag : Tag} (code : tag.isCode = true) {sign : Char} (square : sign = '[' ∨ sign = ']')
    (rest : List Cell) : bracketsIn ((sign, tag) :: rest) = sign :: bracketsIn rest := by
  have shown : isBracket (sign, tag) = true := by simpa [isBracket, code] using square
  rw [bracketsIn, List.filter_cons_of_pos shown]
  rfl

theorem exists_of_bracketsIn {cells : List Cell} {first second : List Char} {sign : Char}
    (split : bracketsIn cells = first ++ sign :: second) : ∃ front tag back, cells = front ++ (sign, tag) :: back ∧
      tag.isCode = true ∧ (sign = '[' ∨ sign = ']') ∧ bracketsIn front = first ∧ bracketsIn back = second := by
  obtain ⟨left, right, whole, same, rest⟩ := List.map_eq_append_iff.1 split
  obtain ⟨front, back, rfl, rfl, ends⟩ := List.filter_eq_append_iff.1 whole
  obtain ⟨⟨_, tag⟩, more, rfl, rfl, rfl⟩ := List.map_eq_cons_iff.1 rest
  obtain ⟨gap, back, rfl, none, shown, rfl⟩ := List.filter_eq_cons_iff.1 ends
  obtain ⟨code, square⟩ := Bool.and_eq_true_iff.1 shown
  refine ⟨front ++ gap, tag, back, by simp, code, by simpa using square, ?_, rfl⟩
  have nothing : gap.filter isBracket = [] := List.filter_eq_nil_iff.2 none
  rw [← same, bracketsIn, List.filter_append, nothing, List.append_nil]

/-- As many opening brackets as closing ones, and never more closing ones so far. -/
structure Balanced (brackets : List Char) : Prop where
  even : brackets.count '[' = brackets.count ']'
  opened : ∀ front, front <+: brackets → front.count ']' ≤ front.count '['

namespace Balanced

variable {brackets first second : List Char}

theorem nil : Balanced [] := ⟨rfl, by simp⟩

theorem closed (balanced : Balanced brackets) {back : List Char} (last : back <:+ brackets) :
    back.count '[' ≤ back.count ']' := by
  obtain ⟨front, rfl⟩ := last
  have even := balanced.even
  have opened := balanced.opened front (List.prefix_append front back)
  rw [List.count_append, List.count_append] at even
  omega

theorem append (left : Balanced first) (right : Balanced second) : Balanced (first ++ second) := by
  refine ⟨by rw [List.count_append, List.count_append, left.even, right.even], fun front start => ?_⟩
  obtain ⟨back, whole⟩ := start
  obtain ⟨more, rfl, -⟩ | ⟨more, rfl, same⟩ := List.append_eq_append_iff.1 whole
  · exact left.opened front (List.prefix_append front more)
  · have opened := right.opened more ⟨back, same.symm⟩
    rw [List.count_append, List.count_append, left.even]
    omega

theorem wrap (balanced : Balanced brackets) : Balanced ('[' :: (brackets ++ [']'])) := by
  have even := balanced.even
  refine ⟨by simp [even], fun front start => ?_⟩
  obtain rfl | ⟨front, rfl, inside⟩ := List.prefix_cons_iff.1 start
  · exact le_rfl
  · obtain rfl | within := List.prefix_concat_iff.1 inside
    · simp [even]
    · have opened := balanced.opened front within
      simp
      omega

end Balanced

theorem exists_closer {brackets front : List Char} (start : front <+: brackets)
    (more : front.count '[' < front.count ']') :
    ∃ inner rest, brackets = inner ++ ']' :: rest ∧ Balanced inner := by
  induction brackets using List.reverseRecOn generalizing front with
  | nil =>
    rw [List.prefix_nil.1 start] at more
    contradiction
  | append_singleton brackets sign ih =>
    by_cases earlier : ∃ early, early <+: brackets ∧ early.count '[' < early.count ']'
    · obtain ⟨early, start, more⟩ := earlier
      obtain ⟨inner, rest, rfl, balanced⟩ := ih start more
      exact ⟨inner, rest ++ [sign], by simp, balanced⟩
    · have opened (front : List Char) (start : front <+: brackets) : front.count ']' ≤ front.count '[' := by
        by_contra more
        exact earlier ⟨front, start, by omega⟩
      obtain rfl | within := List.prefix_concat_iff.1 start
      · have all := opened brackets List.prefix_rfl
        rw [List.count_append, List.count_append] at more
        obtain rfl : sign = ']' := by
          by_contra other
          simp [other] at more
          omega
        refine ⟨brackets, [], rfl, ?_, opened⟩
        simp at more
        omega
      · exact absurd ⟨front, within, more⟩ earlier

theorem Balanced.exists_closer {front back : List Char} (balanced : Balanced (front ++ '[' :: back)) :
    ∃ inner rest, back = inner ++ ']' :: rest ∧ Balanced inner := by
  have closed := balanced.closed (List.suffix_append front ('[' :: back))
  refine Lexical.exists_closer List.prefix_rfl ?_
  simp at closed
  omega

def Closed (after : List Cell) : Prop :=
  ∃ inner tag rest, after = inner ++ (']', tag) :: rest ∧ tag.isCode = true ∧ Balanced (bracketsIn inner)

/-- An opening bracket that nothing closes, the last one of them: those behind it are all closed. -/
structure InnermostOpen (cells front inside : List Cell) : Prop where
  opens : ∃ tag, cells = front ++ ('[', tag) :: inside ∧ tag.isCode = true
  unclosed : ¬ Closed inside
  closed : ∀ before tag after, inside = before ++ ('[', tag) :: after → tag.isCode = true → Closed after

theorem InnermostOpen.of_balanced {cells front inside : List Cell} {tag : Tag}
    (whole : cells = front ++ ('[', tag) :: inside) (code : tag.isCode = true)
    (balanced : Balanced (bracketsIn inside)) : InnermostOpen cells front inside := by
  refine ⟨⟨tag, whole, code⟩, ?_, ?_⟩
  · rintro ⟨inner, other, rest, rfl, closes, even⟩
    rw [bracketsIn_append, bracketsIn_cons closes (.inr rfl)] at balanced
    have opened := balanced.opened (bracketsIn inner ++ [']']) ⟨bracketsIn rest, by simp⟩
    have same := even.even
    simp at opened
    omega
  · rintro before other after rfl opens
    rw [bracketsIn_append, bracketsIn_cons opens (.inl rfl)] at balanced
    obtain ⟨inner, rest, split, even⟩ := balanced.exists_closer
    obtain ⟨front, tag, back, rfl, closes, -, rfl, -⟩ := exists_of_bracketsIn split
    exact ⟨front, tag, back, rfl, closes, even⟩

theorem InnermostOpen.exists_last {cells front inside : List Cell} (open_ : InnermostOpen cells front inside)
    (some : bracketsIn inside ≠ []) : ∃ before tag after, cells = before ++ (']', tag) :: after ∧ tag.isCode = true ∧
      bracketsIn after = [] := by
  obtain ⟨opener, rfl, -⟩ := open_.opens
  obtain ⟨first, sign, split⟩ := (List.eq_nil_or_concat' (bracketsIn inside)).resolve_left some
  obtain ⟨before, tag, after, rfl, code, rfl | rfl, -, none⟩ := exists_of_bracketsIn split
  · obtain ⟨inner, other, rest, rfl, closes, -⟩ := open_.closed before tag after rfl code
    rw [bracketsIn_append, bracketsIn_cons closes (.inr rfl)] at none
    simp at none
  · exact ⟨front ++ ('[', opener) :: before, tag, after, by simp, code, none⟩

end ArturoInsight.Lexical
