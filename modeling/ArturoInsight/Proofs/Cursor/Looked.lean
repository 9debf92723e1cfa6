import ArturoInsight.Proofs.Cursor.Opened

/-! The words of a line that are looked up, with another word in place of one of them. -/

namespace ArturoInsight

open Text Lexical

namespace Pattern

variable {good : List Char → Prop} (spelling : ∀ word, good word → IsSpelling word)

def IsLooked (good : List Char → Prop) (pattern front : Pattern) (value : List Char → Undefined.Use) : Prop :=
  ∃ name tail before labelled, pattern = front ++ (name ++ tail) ∧ IsTaken name ∧ ∀ word, good word →
    (value word).word = fill word name ∧ (value word).before = before ∧ ((value word).next == some ':') = labelled

theorem use_eq (before : Option Char) (text : List Char) : Undefined.use before text =
    if before.any isAsciiWord then none
    else (Name.token? text).map fun found => (⟨before, found.1, found.2.head?⟩, found.2) := rfl

include spelling

theorem labelled_fill (pattern : Pattern) :
    ∃ labelled, ∀ word, good word → ((fill word pattern).head? == some ':') = labelled := by
  cases pattern with
  | nil => exact ⟨false, fun word _ => rfl⟩
  | cons item pattern =>
    cases item with
    | some c => exact ⟨some c == some ':', fun word _ => rfl⟩
    | none =>
      refine ⟨false, fun word fine => ?_⟩
      have plain := (spelling word fine).plain
      obtain ⟨c, rest, rfl⟩ := List.exists_cons_of_ne_nil plain.ne_nil
      have part := plain.isNamePart_head c rfl
      simp only [fill_none, List.cons_append, List.head?_cons, beq_eq_false_iff_ne]
      rintro ⟨⟩
      exact absurd part (by decide)

variable {pattern : Pattern} (framed : Framed pattern)

include framed

theorem steady_use : Steady Undefined.use good pattern (IsLooked good pattern) := by
  rintro front item back rfl
  obtain ⟨found, shapes, open_, reads⟩ := reads_fill spelling readsNames_token? framed.right_of_append
  have single {c : Char} (same : item = some c) (fails : ∀ word, good word →
      Undefined.use (fill word front).getLast? (fill word (item :: back)) = none) :
      Passes Undefined.use good front [item] back := by
    subst same
    intro word fine first rest split items
    obtain ⟨rfl, rfl⟩ | ⟨rfl, rfl⟩ := List.append_eq_singleton_iff.1 (show first ++ rest = [c] from split.symm)
    · simpa using fails word fine
    · exact absurd rfl items
  cases found with
  | none =>
    cases item with
    | none => exact absurd (open_ rfl) (by simp)
    | some c => exact .inl (single rfl fun word fine => by rw [use_eq, reads word fine]; exact ite_self _)
  | some pair =>
    obtain ⟨name, tail⟩ := pair
    obtain ⟨shape, taken⟩ := shapes _ rfl
    obtain ⟨before, opens, edge⟩ := edge_fill framed fun c same => taken.isNamePart (same ▸ shape)
    by_cases blocked : before.any isAsciiWord = true
    · cases item with
      | none =>
        obtain ⟨c, rfl, word⟩ := (Option.any_eq_true _ _).1 blocked
        have part : isNamePart c = true := Name.isNamePart_of_isAsciiWord c word
        simp [part] at opens
      | some c => exact .inl (single rfl fun word _ => by rw [use_eq, edge, if_pos blocked])
    · obtain ⟨labelled, next⟩ := labelled_fill spelling tail
      refine .inr ⟨fun word => ⟨before, fill word name, (fill word tail).head?⟩,
        ⟨name, tail, before, labelled, by rw [shape], taken, fun word fine => ⟨rfl, rfl, next word fine⟩⟩, name, [], tail,
        by simpa using shape, taken.ne_nil, Passes.nil _ _ _ _, fun word fine => ⟨[], List.nil_suffix, ?_⟩⟩
      rw [use_eq, edge, if_neg blocked, reads word fine]
      rfl

theorem exists_looked {first second : List Char} (first_good : good first) (second_good : good second)
    {found : Found Undefined.Use} (member : found ∈ finds Undefined.use (fill second pattern)) :
    ∃ other ∈ finds Undefined.use (fill first pattern), ∃ front name tail,
      pattern = front ++ (name ++ tail) ∧ IsTaken name ∧
      (other.start = (fill first front).length ∧ other.value.word = fill first name) ∧
      (found.start = (fill second front).length ∧ found.value.word = fill second name) ∧
      other.value.before = found.value.before ∧
      (other.value.next == some ':') = (found.value.next == some ':') := by
  obtain ⟨entries, inside, reads⟩ := exists_finds (fun word fine => (spelling word fine).plain.ne_nil)
    (fun before => by rw [use_eq]; exact ite_self _) (steady_use spelling framed)
  have here := List.mem_map_of_mem (f := fun found => (found.start, found.value)) member
  rw [reads second second_good] at here
  obtain ⟨⟨front, value⟩, listed, same⟩ := List.mem_map.1 here
  have there := List.mem_map_of_mem (f := fun entry => ((fill first entry.1).length, entry.2 first)) listed
  rw [← reads first first_good] at there
  obtain ⟨other, member, equal⟩ := List.mem_map.1 there
  obtain ⟨name, tail, before, labelled, whole, taken, looks⟩ := inside _ listed
  obtain ⟨start, value_new⟩ := Prod.mk.inj same
  obtain ⟨place, value_old⟩ := Prod.mk.inj equal
  obtain ⟨left, left_edge, left_label⟩ := looks first first_good
  obtain ⟨right, right_edge, right_label⟩ := looks second second_good
  rw [value_new] at right right_edge right_label
  rw [← value_old] at left left_edge left_label
  exact ⟨other, member, front, name, tail, whole, taken, ⟨place, left⟩, ⟨start.symm, right⟩,
    left_edge.trans right_edge.symm, left_label.trans right_label.symm⟩

end Pattern

section Line

open Pattern

variable {old new : List Char} (old_spelling : IsSpelling old) (new_spelling : IsSpelling new) {carry : Carry}
  (sound : carry.Sound) {text : List Char}

def Undefined.respelled (word : List Char) (found : Found Undefined.Use) : Found Undefined.Use :=
  { found with value := { found.value with word } }

include old_spelling new_spelling sound

theorem exists_looked_reworded {found : Found Undefined.Use}
    (member : found ∈ finds Undefined.use (reworded old new (scanLine carry text)).uncommented) :
    ∃ other ∈ finds Undefined.use (scanLine carry text).uncommented,
      (other.start ∈ columnsOf old (scanLine carry text) ∧ other.value.word = old ∧ found.value.word = new ∨
        other.start ∉ columnsOf old (scanLine carry text) ∧ other.value.word = found.value.word) ∧
      ∀ before after : Source, before.catalog = after.catalog →
        Undefined.isExempt before (scanLine carry text) (Undefined.respelled found.value.word other) =
          Undefined.isExempt after (reworded old new (scanLine carry text)) found := by
  have old_plain := old_spelling.plain
  have new_plain := new_spelling.plain
  obtain ⟨slots, opened⟩ := @exists_opened old old_plain carry sound text
  have same := @reworded_self old old_plain carry sound text
  have spelling := old_spelling.either new_spelling
  have tagged := opened.tagged fun word fine => (spelling word fine).plain
  have line := opened.uncommented_eq sound old_plain
  rw [same] at line
  rw [opened.uncommented_eq sound new_plain] at member
  rw [line]
  obtain ⟨other, there, front, name, tail, whole, taken, ⟨place, left⟩, ⟨start, right⟩, edge, label⟩ :=
    exists_looked spelling (Slots.framed_shown opened.framed) (.inl rfl) (.inr rfl) member
  refine ⟨other, there, ?_, fun before after catalog => ?_⟩
  · rw [place]
    obtain rfl | ⟨text, plain, rfl⟩ := id taken
    · refine .inl ⟨(opened.mem_columns old_plain whole).2 rfl, ?_, ?_⟩
      · rw [left, fill_none, fill_nil, List.append_nil]
      · rw [right, fill_none, fill_nil, List.append_nil]
    · refine .inr ⟨?_, ?_⟩
      · obtain ⟨c, rest, rfl⟩ := List.exists_cons_of_ne_nil plain.ne_nil
        intro member
        exact absurd ((opened.mem_columns old_plain whole).1 member) (by simp)
      · rw [left, right, fill_map_some, fill_map_some]
  · obtain ⟨item, rest, items⟩ : ∃ item rest, name ++ tail = item :: rest :=
      List.exists_cons_of_ne_nil (List.append_ne_nil_of_left_ne_nil taken.ne_nil tail)
    obtain ⟨tag, tags⟩ := tagged front item rest (by rw [whole, items])
    have tag_old := tags old (.inl rfl)
    have tag_new := tags new (.inr rfl)
    beta_reduce at tag_old tag_new
    rw [same, ← place] at tag_old
    rw [← start] at tag_new
    simp only [Undefined.isExempt, Undefined.respelled, tag_old, tag_new, edge, label, catalog]

end Line

end ArturoInsight
