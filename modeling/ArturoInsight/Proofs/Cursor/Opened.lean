import ArturoInsight.Proofs.Cursor.Slots
import ArturoInsight.Proofs.Symbol.Forms

/-! A line with the uses of a word left open, for other words to take its place. The line binds the same names
with each of them, but for the word itself. -/

namespace ArturoInsight

open Text Lexical Pattern

/-- The slots of a line are open where the line uses a word. -/
structure Opened (old : List Char) (scan : Scan) (slots : Slots) : Prop where
  framed : slots.chars.Framed
  inCode : slots.InCode
  columns : ∀ column, column ∈ columnsOf old scan ↔ ∃ (front : Slots) (tag : Tag) (back : Slots),
    slots = front ++ (none, tag) :: back ∧ column = (front.chars.fill old).length
  cells : ∀ new, IsPlain new → (reworded old new scan).cells = slots.cells new
  state : ∀ new, IsPlain new → (reworded old new scan).last = scan.last

section Line

variable {old new : List Char} (old_plain : IsPlain old) {carry : Carry} (sound : carry.Sound) {text : List Char}

include old_plain sound

theorem exists_opened : ∃ slots, Opened old (scanLine carry text) slots := by
  obtain ⟨parts, last, words⟩ := @exists_rewords_all old old_plain carry sound text
  have here := words old old_plain
  refine ⟨.ofParts parts last, Slots.framed_ofParts old_plain here.woven, Slots.inCode_ofParts here.woven, fun column => ?_,
    fun new plain => ?_, fun new plain => (words new plain).state⟩
  · rw [here.columns]
    exact Slots.mem_starts_iff
  · rw [(words new plain).after, Slots.cells_ofParts]

theorem reworded_self : reworded old old (scanLine carry text) = scanLine carry text := by
  obtain ⟨parts, last, words⟩ := @exists_rewords old old old_plain old_plain carry sound text
  have same : (reworded old old (scanLine carry text)).text = text :=
    calc _ = (reworded old old (scanLine carry text)).cells.map (·.1) := (map_fst_cells _ _).symm
      _ = (scanLine carry text).cells.map (·.1) := by rw [words.after, words.before]
      _ = text := map_fst_cells carry text
  exact congrArg (scanLine carry) same

end Line

section Views

variable {old : List Char} {carry : Carry} (sound : carry.Sound) {text : List Char} {slots : Slots}
  (opened : Opened old (scanLine carry text) slots) {new : List Char} (plain : IsPlain new)

include opened plain

theorem Opened.text_eq : (reworded old new (scanLine carry text)).text = slots.chars.fill new := by
  rw [← Slots.map_fst_cells, ← opened.cells new plain]
  exact (map_fst_cells _ _).symm

theorem Opened.blanked_eq : (reworded old new (scanLine carry text)).blanked = slots.blanked.fill new :=
  Slots.blanked_scanLine opened.inCode (opened.cells new plain)

include sound

theorem Opened.uncommented_eq : (reworded old new (scanLine carry text)).uncommented = slots.shown.chars.fill new :=
  Slots.uncommented_scanLine opened.inCode sound (opened.cells new plain)

omit sound in
theorem Opened.skips_eq {other : List Char} (other_plain : IsPlain other) :
    Source.skips (reworded old new (scanLine carry text)) = Source.skips (reworded old other (scanLine carry text)) := by
  obtain ⟨comments, first⟩ := @head?_solids_fill (· == some ';') (fun c d left right => by
    have differs (e : Char) (part : isNamePart e = true) : (some e == some ';') = false := by
      rw [beq_eq_false_iff_ne]
      rintro ⟨⟩
      exact absurd part (by decide)
    rw [differs c left, differs d right]) slots.chars
  have carries (word : List Char) (plain : IsPlain word) :
      (reworded old word (scanLine carry text)).carryOut = (scanLine carry text).carryOut :=
    congrArg State.carry (opened.state word plain)
  unfold Source.skips
  rw [carries new plain, carries other other_plain, opened.text_eq plain, opened.text_eq other_plain, head?_trim,
    head?_trim, first new plain, first other other_plain]

omit plain sound in
theorem Opened.tagged {good : List Char → Prop} (plain : ∀ word, good word → IsPlain word) :
    Tagged good (reworded old · (scanLine carry text)) slots.shown.chars := by
  intro front item back whole
  obtain ⟨first, rest, same, rfl, later⟩ := List.map_eq_append_iff.1 whole
  obtain ⟨slot, last, rfl, rfl, rfl⟩ := List.map_eq_cons_iff.1 later
  obtain ⟨comment, ends⟩ : slots.shown <+: slots := List.takeWhile_prefix _
  refine ⟨slot.2, fun word fine => ?_⟩
  have split : slots = first ++ slot :: (last ++ comment) := by
    rw [← ends, same]
    simp
  exact Slots.tagAt_scanLine (opened.cells word (plain word fine)) (plain word fine).ne_nil split

omit sound plain in
theorem Opened.mem_columns (plain : IsPlain old) {front back : Pattern} {item : Option Char}
    (whole : slots.shown.chars = front ++ item :: back) :
    (fill old front).length ∈ columnsOf old (scanLine carry text) ↔ item = none := by
  obtain ⟨comment, ends⟩ : slots.shown <+: slots := List.takeWhile_prefix _
  obtain ⟨first, more, split, rfl, later⟩ := List.map_eq_append_iff.1 whole
  obtain ⟨slot, rest, rfl, rfl, rfl⟩ := List.map_eq_cons_iff.1 later
  have split : slots = first ++ slot :: (rest ++ comment) := by
    rw [← ends, split]
    simp
  rw [opened.columns]
  constructor
  · rintro ⟨others, tag, back, open_, place⟩
    have same := congrArg Slots.chars (split.symm.trans open_)
    simp only [Slots.chars_append, Slots.chars_cons] at same
    exact eq_of_length_fill plain.ne_nil same place
  · intro none
    exact ⟨first, slot.2, rest ++ comment, by rw [split, ← none], rfl⟩

end Views

section Names

def StandsForType (word : List Char) (scan : Scan) : Prop :=
  ∃ column ∈ columnsOf word scan, 2 ≤ column ∧ scan.text[column - 1]? = some ':' ∧
    (scan.text[column - 2]?).any isBlank = true

instance (word : List Char) (scan : Scan) : Decidable (StandsForType word scan) :=
  inferInstanceAs (Decidable (∃ column ∈ columnsOf word scan, _))

/-- What the readers of the names of a line may tell two words by. -/
structure Alike (old new : List Char) (scan : Scan) : Prop where
  types : StandsForType old scan → IsTypeWord old ∧ IsTypeWord new
  annotations : ∀ text ∈ parameterWords scan.blanked, BehindColon old text → ∀ c ∈ old ++ new, isLower c = true
  annotated : ∀ text ∈ parameterWords scan.blanked, ∀ rest, text = old ++ ':' :: rest →
    ∀ c ∈ rest, c = ':' ∨ isLower c = true

variable {old new : List Char} (old_spelling : IsSpelling old) (new_spelling : IsSpelling new) {carry : Carry}
  (sound : carry.Sound) {text : List Char} (alike : Alike old new (scanLine carry text))

include old_spelling sound in
theorem typed_shown {slots : Slots} (opened : Opened old (scanLine carry text) slots)
    (types : StandsForType old (scanLine carry text) → IsTypeWord old ∧ IsTypeWord new) :
    Typed (fun word => word = old ∨ word = new) slots.shown.chars := by
  rintro front blank back held whole word fine
  obtain ⟨comment, ends⟩ : slots.shown <+: slots := List.takeWhile_prefix _
  have stands : StandsForType old (scanLine carry text) := by
    have column := (opened.mem_columns old_spelling.plain (show slots.shown.chars =
      (front ++ [some blank, some ':']) ++ none :: back by simp [whole])).2 rfl
    have line := opened.text_eq old_spelling.plain
    rw [reworded_self old_spelling.plain sound, ← ends, Slots.chars_append, whole] at line
    have text : (scanLine carry text).text =
        fill old front ++ blank :: ':' :: (old ++ (fill old back ++ fill old (Slots.chars comment))) := by
      rw [line]
      simp
    refine ⟨_, column, by simp, ?_, ?_⟩
    · rw [text]
      simp
    · rw [text]
      simp [held]
  obtain rfl | rfl := fine
  · exact (types stands).1
  · exact (types stands).2

include old_spelling new_spelling sound alike

theorem exchanges_names (form : BindingForm) : Exchanges old new (form.names (scanLine carry text))
    (form.names (reworded old new (scanLine carry text))) := by
  have old_plain := old_spelling.plain
  have new_plain := new_spelling.plain
  obtain ⟨slots, opened⟩ := @exists_opened old old_plain carry sound text
  have same := @reworded_self old old_plain carry sound text
  have spelling := old_spelling.either new_spelling
  have shown (word : List Char) (fine : word = old ∨ word = new) := opened.uncommented_eq sound (spelling word fine).plain
  have blanked (word : List Char) (fine : word = old ∨ word = new) := opened.blanked_eq (spelling word fine).plain
  have framed_shown := Slots.framed_shown opened.framed
  have framed_blanked := Slots.framed_blanked opened.framed
  have tagged := opened.tagged fun word fine => (spelling word fine).plain
  have typed := typed_shown old_spelling sound opened alike.types
  have exchanges {names : List Char → List (List Char)} (offers : Offers (fun word => word = old ∨ word = new) names) :
      Exchanges old new (names old) (names new) := fun name plain offered =>
    (offers.other (.inl rfl) (.inr rfl) plain offered).imp_right (.imp_right fun given => given new_plain)
  suffices all : Exchanges old new (form.names (reworded old old (scanLine carry text)))
      (form.names (reworded old new (scanLine carry text))) by rwa [same] at all
  cases form with
  | label =>
    have offers := exchanges (offers_label spelling framed_shown tagged typed)
    simpa only [BindingForm.names, shown _ (.inl rfl), shown _ (.inr rfl)] using offers
  | type =>
    have offers := exchanges (offers_definedTypes spelling framed_shown tagged typed)
    simpa only [BindingForm.names, shown _ (.inl rfl), shown _ (.inr rfl)] using offers
  | parameter =>
    have here := blanked old (.inl rfl)
    rw [same] at here
    have offers := exchanges (offers_parameters spelling framed_blanked (.inl rfl)
      (fun part member behind word fine c inside => alike.annotations part (by rwa [here]) behind c (by
        obtain rfl | rfl := fine
        · exact List.mem_append_left _ inside
        · exact List.mem_append_right _ inside))
      (fun part member => alike.annotated part (by rwa [here])))
    simpa only [BindingForm.names, blanked _ (.inl rfl), blanked _ (.inr rfl)] using offers
  | loopVariable =>
    have offers := exchanges (offers_loopVariables spelling framed_blanked)
    simpa only [BindingForm.names, blanked _ (.inl rfl), blanked _ (.inr rfl)] using offers
  | key =>
    have offers := exchanges_dictionaryKeys old_spelling new_spelling framed_blanked
    simpa only [BindingForm.names, blanked _ (.inl rfl), blanked _ (.inr rfl)] using offers

end Names

end ArturoInsight
