import ArturoInsight.Proofs.Cursor.Pattern

/-! Readers that take the same places of a pattern whichever word fills it. -/

namespace ArturoInsight.Pattern

open Text

section Finding

variable {α : Type} (read : Reader α) (good : List Char → Prop)

def Passes (front stretch back : Pattern) : Prop :=
  ∀ word, good word → ∀ first rest, fill word stretch = first ++ rest → rest ≠ [] →
    read (fill word front ++ first).getLast? (rest ++ fill word back) = none

/-- Something is read at a place. It may end anywhere in a stretch in which nothing is read. -/
def Takes (front text : Pattern) (value : List Char → α) : Prop :=
  ∃ covered stretch back, text = covered ++ (stretch ++ back) ∧ covered ≠ [] ∧
    Passes read good (front ++ covered) stretch back ∧
    ∀ word, good word → ∃ left, left <:+ fill word stretch ∧
      read (fill word front).getLast? (fill word text) = some (value word, left ++ fill word back)

/-- Each item is passed over for all words, or something is read there for all of them. -/
def Steady (pattern : Pattern) (values : Pattern → (List Char → α) → Prop) : Prop :=
  ∀ front item back, pattern = front ++ item :: back → Passes read good front [item] back ∨
    ∃ value, values front value ∧ Takes read good front (item :: back) value

theorem Passes.nil (front back : Pattern) : Passes read good front [] back := by
  intro word _ first rest split items
  exact absurd (List.append_eq_nil_iff.1 split.symm).2 items

variable {read good} in
theorem Passes.cons {front stretch back : Pattern} {item : Option Char}
    (here : Passes read good front [item] (stretch ++ back)) (later : Passes read good (front ++ [item]) stretch back) :
    Passes read good front (item :: stretch) back := by
  intro word fine first rest split items
  rw [show item :: stretch = [item] ++ stretch from rfl, fill_append] at split
  have beyond (more : List Char) (ends : fill word stretch = more ++ rest) :
      read (fill word front ++ (fill word [item] ++ more)).getLast? (rest ++ fill word back) = none := by
    rw [← List.append_assoc, ← fill_append]
    exact later word fine more rest ends items
  obtain ⟨more, rfl, ends⟩ | ⟨more, ends, rfl⟩ := List.append_eq_append_iff.1 split
  · exact beyond more ends
  · by_cases whole : more = []
    · subst whole
      rw [List.append_nil] at ends
      rw [← ends]
      simpa using beyond [] rfl
    · rw [List.append_assoc, ← fill_append]
      exact here word fine first more ends whole

variable {read good} {pattern : Pattern} {values : Pattern → (List Char → α) → Prop}
  (some_ : ∀ word, good word → word ≠ []) (nothing : ∀ before, read before [] = none)
  (steady : Steady read good pattern values)

include some_ nothing steady

theorem exists_findsFrom (front back : Pattern) (whole : pattern = front ++ back) :
    ∃ found : List (Pattern × (List Char → α)), (∀ entry ∈ found, values entry.1 entry.2) ∧
      ∀ word, good word →
        (findsFrom read (fill word front).length 0 (fill word front).getLast? (fill word back)).map
            (fun found => (found.start, found.value)) =
          found.map fun entry => ((fill word entry.1).length, entry.2 word) := by
  induction size : back.length using Nat.strong_induction_on generalizing front back with
  | h size ih =>
  subst size
  cases back with
  | nil =>
    refine ⟨[], by simp, fun word _ => ?_⟩
    simp [findsFrom, nothing]
  | cons item back =>
    obtain passes | ⟨value, fits, covered, stretch, after, same, items, passes, reads⟩ := steady front item back whole
    · obtain ⟨found, inside, finds⟩ := ih back.length (by simp) (front ++ [item]) back (by simp [whole]) rfl
      refine ⟨found, inside, fun word fine => ?_⟩
      rw [← finds word fine, show item :: back = [item] ++ back from rfl, fill_append, findsFrom_fails, fill_append,
        List.length_append, List.getLast?_append]
      intro first rest split ends
      rw [← List.getLast?_append]
      exact passes word fine first rest split ends
    · have shorter : after.length < (item :: back).length := by
        have pos := List.length_pos_iff.2 items
        rw [same, List.length_append, List.length_append]
        omega
      obtain ⟨found, inside, finds⟩ := ih after.length shorter (front ++ (covered ++ stretch)) after
        (by rw [whole, same]; simp) rfl
      refine ⟨(front, value) :: found, List.forall_mem_cons.2 ⟨fits, inside⟩, fun word fine => ?_⟩
      obtain ⟨left, ⟨right, ends⟩, reads⟩ := reads word fine
      have covers : fill word covered ++ right ≠ [] := by
        simp [fill_ne_nil (some_ word fine) items]
      have text : fill word (item :: back) = (fill word covered ++ right) ++ (left ++ fill word after) := by
        rw [same, fill_append, fill_append, ← ends]
        simp
      have last (more : List Char) : (fill word front ++ ((fill word covered ++ right) ++ more)).getLast? =
          more.getLast?.or (fill word covered ++ right).getLast? := by
        rw [List.getLast?_append_of_ne_nil _ (List.append_ne_nil_of_left_ne_nil covers more), List.getLast?_append]
      have passed : fill word (front ++ (covered ++ stretch)) =
          fill word front ++ ((fill word covered ++ right) ++ left) := by
        simp [← ends]
      rw [text] at reads ⊢
      rw [findsFrom_some covers reads, List.map_cons, List.map_cons, ← finds word fine, passed, last,
        findsFrom_fails]
      · simp [Nat.add_assoc]
      · intro first rest split items
        rw [← last]
        have fails := passes word fine (right ++ first) rest (by rw [← ends, split, List.append_assoc]) items
        simpa using fails

/-- The matches of a reader that treats all words alike stand in the same places of a pattern. -/
theorem exists_finds : ∃ found : List (Pattern × (List Char → α)), (∀ entry ∈ found, values entry.1 entry.2) ∧
    ∀ word, good word → (finds read (fill word pattern)).map (fun found => (found.start, found.value)) =
      found.map fun entry => ((fill word entry.1).length, entry.2 word) :=
  exists_findsFrom some_ nothing steady [] pattern rfl

end Finding

section Place

variable {α : Type} {accept : List Char → Nat → Option Char → List Char → Option α} {good : List Char → Prop}
  {pattern : Pattern} {values : Pattern → (List Char → α) → Prop} (some_ : ∀ word, good word → word ≠ [])
  (steady : ∀ front item back, pattern = front ++ item :: back →
    (∀ word, good word → ∀ first rest, fill word [item] = first ++ rest → rest ≠ [] →
      accept word (fill word front ++ first).length (fill word front ++ first).getLast? (rest ++ fill word back) =
        none) ∨
    ∃ value, values front value ∧ ∀ word, good word →
      accept word (fill word front).length (fill word front).getLast? (fill word (item :: back)) =
        some (value word))

include some_ steady

theorem exists_firstPlaceFrom (front back : Pattern) (whole : pattern = front ++ back) :
    (∀ word, good word → firstPlaceFrom (accept word) (fill word front).length (fill word front).getLast?
      (fill word back) = none) ∨
    ∃ place value, values place value ∧ ∀ word, good word → firstPlaceFrom (accept word) (fill word front).length
      (fill word front).getLast? (fill word back) = some (value word) := by
  induction back generalizing front with
  | nil => exact .inl fun word _ => rfl
  | cons item back ih =>
    obtain passes | ⟨value, fits, accepts⟩ := steady front item back whole
    · have moves (word : List Char) (fine : good word) : firstPlaceFrom (accept word) (fill word front).length
          (fill word front).getLast? (fill word (item :: back)) =
            firstPlaceFrom (accept word) (fill word (front ++ [item])).length
              (fill word (front ++ [item])).getLast? (fill word back) := by
        rw [show item :: back = [item] ++ back from rfl, fill_append, firstPlaceFrom_fails, fill_append,
          List.length_append, List.getLast?_append]
        intro first rest split ends
        rw [← List.getLast?_append, ← List.length_append]
        exact passes word fine first rest split ends
      obtain none | ⟨place, value, fits, accepts⟩ := ih (front ++ [item]) (by simp [whole])
      · exact .inl fun word fine => (moves word fine).trans (none word fine)
      · exact .inr ⟨place, value, fits, fun word fine => (moves word fine).trans (accepts word fine)⟩
    · refine .inr ⟨front, value, fits, fun word fine => ?_⟩
      have accepts := accepts word fine
      obtain ⟨c, rest, text⟩ := List.exists_cons_of_ne_nil
        (fill_ne_nil (some_ word fine) (List.cons_ne_nil item back))
      rw [text] at accepts ⊢
      rw [firstPlaceFrom, accepts]

theorem exists_firstPlace : (∀ word, good word → firstPlace (accept word) (fill word pattern) = none) ∨
    ∃ place value, values place value ∧
      ∀ word, good word → firstPlace (accept word) (fill word pattern) = some (value word) :=
  exists_firstPlaceFrom some_ steady [] pattern rfl

end Place

end ArturoInsight.Pattern
