import ArturoInsight.Proofs.Cursor.Labelled

/-! A line as a pattern with tags: its places are open where a word is used. The views of the line that names
are read off are patterns as well. -/

namespace ArturoInsight

open Text Lexical

abbrev Slots := List (Option Char × Tag)

namespace Slots

def chars (slots : Slots) : Pattern := slots.map (·.1)

/-- The cells of the line with a word in its open places. -/
def cells (word : List Char) (slots : Slots) : List Cell :=
  slots.flatMap fun slot => slot.1.elim (mark slot.2 word) fun c => [(c, slot.2)]

/-- All open places are code. -/
def InCode (slots : Slots) : Prop := ∀ tag, (none, tag) ∈ slots → tag.isCode = true

def ofCells (cells : List Cell) : Slots := cells.map fun cell => (some cell.1, cell.2)

def ofParts : List Part → List Cell → Slots
  | [], last => ofCells last
  | (piece, tag) :: parts, last => ofCells piece ++ (none, tag) :: ofParts parts last

section Cells

variable {word : List Char}

@[simp] theorem chars_append (first second : Slots) : chars (first ++ second) = chars first ++ chars second :=
  List.map_append

@[simp] theorem chars_cons (slot : Option Char × Tag) (slots : Slots) : chars (slot :: slots) = slot.1 :: chars slots :=
  rfl

@[simp] theorem cells_append (first second : Slots) :
    cells word (first ++ second) = cells word first ++ cells word second :=
  List.flatMap_append

@[simp] theorem cells_some (c : Char) (tag : Tag) (slots : Slots) :
    cells word ((some c, tag) :: slots) = (c, tag) :: cells word slots := rfl

@[simp] theorem cells_none (tag : Tag) (slots : Slots) :
    cells word ((none, tag) :: slots) = mark tag word ++ cells word slots := rfl

@[simp] theorem cells_ofCells (line : List Cell) : cells word (ofCells line) = line := by
  induction line with
  | nil => rfl
  | cons cell line ih => exact congrArg (cell :: ·) ih

theorem chars_ofCells (line : List Cell) : chars (ofCells line) = (line.map (·.1)).map some := by
  simp [chars, ofCells]

theorem map_fst_cells (slots : Slots) : (cells word slots).map (·.1) = slots.chars.fill word := by
  induction slots with
  | nil => rfl
  | cons slot slots ih =>
    obtain ⟨item, tag⟩ := slot
    cases item <;> simp [ih, chars_cons]

theorem cells_ofParts (parts : List Part) (last : List Cell) :
    cells word (ofParts parts last) = weave word parts last := by
  induction parts with
  | nil => exact cells_ofCells last
  | cons part parts ih => simp [ofParts, weave, ih]

theorem getElem?_cells (some_ : word ≠ []) (front : Slots) (slot : Option Char × Tag) (back : Slots) :
    ∃ c, (cells word (front ++ slot :: back))[(front.chars.fill word).length]? = some (c, slot.2) := by
  rw [← map_fst_cells, List.length_map, cells_append, List.getElem?_append_right le_rfl, Nat.sub_self]
  obtain ⟨item, tag⟩ := slot
  cases item with
  | some c => exact ⟨c, rfl⟩
  | none =>
    obtain ⟨c, rest, rfl⟩ := List.exists_cons_of_ne_nil some_
    exact ⟨c, rfl⟩

end Cells

section Woven

variable {old : List Char} {parts : List Part} {last : List Cell}

theorem inCode_ofParts (woven : Woven old parts last) : InCode (ofParts parts last) := by
  intro tag member
  induction parts with
  | nil => simp [ofParts, ofCells] at member
  | cons part parts ih =>
    obtain ⟨piece, form⟩ := part
    obtain ⟨code, -, -, woven⟩ := woven
    obtain inside | here | later : (none, tag) ∈ ofCells piece ∨ tag = form ∨ (none, tag) ∈ ofParts parts last := by
      simpa [ofParts] using member
    · simp [ofCells] at inside
    · rwa [here]
    · exact ih woven later

theorem framed_ofParts (plain : IsPlain old) (woven : Woven old parts last) : (ofParts parts last).chars.Framed := by
  have whole (line : List Cell) : (ofCells line).chars.Framed := by
    rw [chars_ofCells]
    induction line.map (·.1) with
    | nil => exact .nil
    | cons c text ih => exact List.isChain_cons.2 ⟨by cases text <;> simp [Joins], ih⟩
  induction parts with
  | nil => exact whole last
  | cons part parts ih =>
    obtain ⟨piece, tag⟩ := part
    obtain ⟨-, opens, closes, woven⟩ := woven
    rw [ofParts, chars_append, chars_cons]
    refine List.isChain_append.2 ⟨whole piece, List.isChain_cons.2 ⟨fun item head => ?_, ih woven⟩, ?_⟩
    · rw [← cells_ofParts] at closes
      cases slots : ofParts parts last with
      | nil => simp [slots, chars] at head
      | cons slot slots_tail =>
        obtain ⟨item, form⟩ := slot
        obtain rfl : item = _ := by simpa [slots] using head
        rw [slots] at closes
        cases item with
        | some c => exact closes (c, form) rfl
        | none =>
          obtain ⟨c, rest, rfl⟩ := List.exists_cons_of_ne_nil plain.ne_nil
          have part := plain.isNamePart_head c rfl
          rw [(closes (c, form) rfl).1] at part
          contradiction
    · rintro item ends _ ⟨⟩
      rw [chars_ofCells, List.getLast?_map, List.getLast?_map] at ends
      obtain ⟨c, found, rfl⟩ := Option.map_eq_some_iff.1 ends
      obtain ⟨cell, here, rfl⟩ := Option.map_eq_some_iff.1 found
      exact opens cell here

theorem mem_starts_iff {word : List Char} {column : Nat} : column ∈ starts word parts ↔
    ∃ (front : Slots) (tag : Tag) (back : Slots), ofParts parts last = front ++ (none, tag) :: back ∧
      column = (front.chars.fill word).length := by
  induction parts generalizing column with
  | nil =>
    simp only [starts, ofParts, List.not_mem_nil, false_iff]
    rintro ⟨front, tag, back, whole, -⟩
    have member : (none, tag) ∈ ofCells last := by rw [whole]; simp
    simp [ofCells] at member
  | cons part parts ih =>
    obtain ⟨piece, form⟩ := part
    have width : ((ofCells piece).chars.fill word).length = piece.length := by
      rw [chars_ofCells, Pattern.fill_map_some, List.length_map]
    rw [starts, List.mem_cons, List.mem_map]
    constructor
    · rintro (rfl | ⟨place, member, rfl⟩)
      · exact ⟨ofCells piece, form, ofParts parts last, rfl, width.symm⟩
      · obtain ⟨front, tag, back, whole, rfl⟩ := ih.1 member
        refine ⟨ofCells piece ++ (none, form) :: front, tag, back, by simp [ofParts, whole], ?_⟩
        simp [width, Nat.add_assoc]
    · rintro ⟨front, tag, back, whole, rfl⟩
      rw [ofParts] at whole
      obtain ⟨more, rfl, later⟩ | ⟨more, same, later⟩ := List.append_eq_append_iff.1 whole
      · cases more with
        | nil => exact .inl (by simpa using width)
        | cons slot more =>
          obtain ⟨rfl, further⟩ := List.cons.inj later
          refine .inr ⟨_, ih.2 ⟨more, tag, back, further, rfl⟩, ?_⟩
          simp [width, Nat.add_assoc]
      · cases more with
        | nil =>
          rw [List.append_nil] at same
          exact .inl (by rw [← same, width])
        | cons slot more =>
          obtain rfl : (none, tag) = slot := (List.cons.inj later).1
          have member : (none, tag) ∈ ofCells piece := by rw [same]; simp
          simp [ofCells] at member

end Woven

/-- The slots before the comment of the line. -/
def shown (slots : Slots) : Slots := slots.takeWhile (·.2 != .comment)

def blanked (slots : Slots) : Pattern := slots.map fun slot => if slot.2.isCode then slot.1 else some ' '

section Views

variable {slots : Slots} (inCode : InCode slots) {word : List Char}

theorem framed_shown (framed : slots.chars.Framed) : slots.shown.chars.Framed := by
  obtain ⟨rest, whole⟩ : slots.shown <+: slots := List.takeWhile_prefix _
  rw [← whole, chars_append] at framed
  exact framed.left_of_append

theorem framed_blanked (framed : slots.chars.Framed) : slots.blanked.Framed := by
  have joins : ∀ first second : Option Char × Tag, Joins first.1 second.1 →
      Joins (if first.2.isCode then first.1 else some ' ') (if second.2.isCode then second.1 else some ' ') := by
    rintro ⟨first, left⟩ ⟨second, right⟩ joins
    have opening : Opening ' ' := ⟨by decide, by decide, by decide⟩
    have closing : Closing ' ' := ⟨by decide, by decide⟩
    dsimp only
    split_ifs
    · exact joins
    · cases first with
      | none => exact closing
      | some c => trivial
    · cases second with
      | none => exact opening
      | some c => trivial
    · trivial
  rw [chars, Pattern.Framed, List.isChain_map] at framed
  rw [blanked, Pattern.Framed, List.isChain_map]
  exact framed.imp joins

include inCode

theorem beforeComment_cells : beforeComment (slots.cells word) = slots.shown.cells word := by
  induction slots with
  | nil => rfl
  | cons slot slots ih =>
    have later := ih fun tag member => inCode tag (List.mem_cons_of_mem _ member)
    obtain ⟨item, tag⟩ := slot
    cases item with
    | some c =>
      by_cases comment : tag = .comment
      · simp [beforeComment, shown, comment, cells]
      · rw [beforeComment] at later ⊢
        simp [shown, comment, later]
    | none =>
      have code := inCode tag List.mem_cons_self
      have comment : tag ≠ .comment := by
        rintro rfl
        contradiction
      rw [beforeComment] at later ⊢
      rw [cells_none, List.takeWhile_append_of_pos (by simp [mark, comment]), later]
      simp [shown, comment]

variable {carry : Carry} (sound : carry.Sound) {text : List Char}
  (line : (scanLine carry text).cells = slots.cells word)

include line

theorem blanked_scanLine : (scanLine carry text).blanked = slots.blanked.fill word := by
  rw [Scan.blanked, Scan.codeText, line]
  clear line
  induction slots with
  | nil => rfl
  | cons slot slots ih =>
    have later := ih fun tag member => inCode tag (List.mem_cons_of_mem _ member)
    obtain ⟨item, tag⟩ := slot
    cases item with
    | some c =>
      rw [cells_some, List.flatMap_cons, later]
      cases code : tag.isCode <;> simp [blanked, code]
    | none =>
      have code := inCode tag List.mem_cons_self
      have whole : (mark tag word).flatMap (fun cell => if cell.2.isCode then [cell.1] else [' ']) = word := by
        simp [mark, code, List.flatMap_map]
      rw [cells_none, List.flatMap_append, later, whole]
      simp [blanked, code]

include sound

theorem uncommented_scanLine : (scanLine carry text).uncommented = slots.shown.chars.fill word := by
  have fits := sound.fits text
  rw [← Lexical.map_fst_cells carry text] at fits
  have tags := (List.map_snd_zip (Nat.le_of_eq (Scan.length_tags_scanLine carry text))).symm
  rw [uncommented_eq (scans_cells_scanLine carry text) fits (Lexical.map_fst_cells carry text).symm tags, line,
    beforeComment_cells inCode, map_fst_cells]

omit inCode sound in
theorem tagAt_scanLine (some_ : word ≠ []) {front back : Slots} {slot : Option Char × Tag}
    (whole : slots = front ++ slot :: back) : (scanLine carry text).tagAt (front.chars.fill word).length = slot.2 := by
  subst whole
  obtain ⟨c, found⟩ := getElem?_cells some_ front slot back
  rw [← line] at found
  rw [Scan.tagAt, Int.toNat_natCast, List.getD_eq_getElem?_getD, (List.getElem?_zip_eq_some.1 found).2]
  rfl

end Views

end Slots

end ArturoInsight
