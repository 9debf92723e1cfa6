import ArturoInsight.Cursor.Word
import ArturoInsight.Proofs.Lexical.Borders
import ArturoInsight.Proofs.Lexical.Swaps
import ArturoInsight.Proofs.Symbol.Name

/-! The uses of a word in a line. A use stands in code and is no part of a longer word, so that two uses,
of one word or of two, are one and the same or have a character between them. -/

namespace ArturoInsight

open Text Lexical

abbrev IsPlain (word : List Char) : Prop := Name.Taken [] word

namespace IsPlain

variable {word : List Char}

theorem length_pos (plain : IsPlain word) : 0 < word.length := List.length_pos_iff.2 plain.ne_nil

theorem isNamePart_of_lt (plain : IsPlain word) {index : Nat} (inside : index + 1 < word.length) :
    isNamePart word[index] = true := by
  cases plain with
  | @marked run some_ part =>
    have within : index < run.length := by simpa using inside
    rw [List.getElem_append_left within]
    exact part _ (List.getElem_mem within)
  | plain some_ part => exact part _ (List.getElem_mem _)

theorem isNamePart_head (plain : IsPlain word) : ∀ c ∈ word.head?, isNamePart c = true := by
  intro c head
  cases plain with
  | @marked run some_ part =>
    rw [List.head?_append_of_ne_nil run some_] at head
    exact part c (List.mem_of_head? head)
  | plain some_ part => exact part c (List.mem_of_head? head)

theorem inert (plain : IsPlain word) : Inert word := by
  intro c member
  obtain part | rfl := plain.part member
  · have word : isWord c = true ∨ c = '-' := by
      simp only [isNamePart, isAsciiWord, Bool.or_eq_true, beq_iff_eq] at part
      simp only [isWord, isLetter, isDigit, Bool.or_eq_true, beq_iff_eq]
      tauto
    obtain word | rfl := word
    · refine ⟨endsCode_of_isWord word, ?_, ?_⟩ <;> rintro rfl <;> exact absurd part (by decide)
    · decide
  · decide

theorem not_isAwaited (plain : IsPlain word) {c : Char} (head : c ∈ word.head?) : isAwaited c = false := by
  have part := plain.isNamePart_head c head
  simp only [isAwaited, Bool.or_eq_false_iff, beq_eq_false_iff_ne]
  refine ⟨⟨⟨⟨?_, ?_⟩, ?_⟩, ?_⟩, ?_⟩ <;> rintro rfl <;> exact absurd part (by decide)

end IsPlain

def Opens (before : Option Cell) : Prop :=
  ∀ cell ∈ before, isNamePart cell.1 = false ∧ cell.1 ≠ '\x27' ∧ cell.1 ≠ '\x60'

/-- What may stand after a use: no name character and no question mark. -/
def Closes (after : Option Cell) : Prop := ∀ cell ∈ after, isNamePart cell.1 = false ∧ cell.1 ≠ '?'

structure Use (word : List Char) (cells : List Cell) (column : Nat) : Prop where
  covers : ∃ tag, tag.isCode = true ∧ mark tag word <+: cells.drop column
  opens : ∀ index, index + 1 = column → Opens cells[index]?
  closes : Closes cells[column + word.length]?

namespace Use

variable {word other : List Char} {cells front back : List Cell} {column place : Nat}

theorem getElem? (use : Use word cells column) : ∃ tag, tag.isCode = true ∧
    ∀ index (inside : index < word.length), cells[column + index]? = some (word[index], tag) := by
  obtain ⟨tag, code, rest, whole⟩ := use.covers
  refine ⟨tag, code, fun index inside => ?_⟩
  have within : index < (mark tag word).length := by simpa [mark] using inside
  rw [← List.getElem?_drop, ← whole, List.getElem?_append_left within]
  simp [mark, inside]

theorem head (use : Use word cells column) (plain : IsPlain word) :
    ∃ cell, cells[column]? = some cell ∧ isNamePart cell.1 = true ∧ cell.2.isCode = true := by
  obtain ⟨tag, code, covers⟩ := use.getElem?
  have some_ := plain.length_pos
  refine ⟨_, covers 0 some_, plain.isNamePart_head word[0] ?_, code⟩
  rw [List.head?_eq_getElem?, List.getElem?_eq_getElem some_]
  rfl

theorem length_le (first : Use word cells column) (second : Use other cells column) (plain : IsPlain other) :
    other.length ≤ word.length := by
  by_contra longer
  obtain ⟨tag, -, covers⟩ := second.getElem?
  have ends := first.closes _ (covers word.length (by omega))
  obtain part | mark := plain.part (List.getElem_mem (Nat.lt_of_not_le longer))
  · rw [ends.1] at part
    contradiction
  · exact ends.2 mark

theorem unique (first : Use word cells column) (second : Use other cells column) (plain : IsPlain word)
    (second_plain : IsPlain other) : word = other := by
  have same : word.length = other.length :=
    Nat.le_antisymm (second.length_le first plain) (first.length_le second second_plain)
  obtain ⟨tag, -, left⟩ := first.getElem?
  obtain ⟨form, -, right⟩ := second.getElem?
  refine List.ext_getElem same fun index inside within => ?_
  have cell := (left index inside).symm.trans (right index within)
  exact congrArg Prod.fst (Option.some.inj cell)

theorem lt_of_lt (first : Use word cells column) (second : Use other cells place) (plain : IsPlain word)
    (second_plain : IsPlain other) (before : column < place) : column + word.length < place := by
  by_contra overlap
  obtain ⟨index, rfl⟩ := Nat.exists_eq_add_of_lt before
  obtain ⟨tag, -, left⟩ := first.getElem?
  by_cases inside : index + 1 < word.length
  · have opens := second.opens (column + index) rfl _ (left index (by omega))
    rw [plain.isNamePart_of_lt inside] at opens
    exact absurd opens.1 (by simp)
  · obtain ⟨cell, here, part, -⟩ := second.head second_plain
    have border : column + index + 1 = column + word.length := by omega
    rw [border] at here
    rw [(first.closes cell here).1] at part
    contradiction

theorem apart (first : Use word cells column) (second : Use other cells place) (plain : IsPlain word)
    (second_plain : IsPlain other) : column = place ∧ word = other ∨ column + word.length < place ∨
      place + other.length < column := by
  obtain before | rfl | after := Nat.lt_trichotomy column place
  · exact .inr (.inl (first.lt_of_lt second plain second_plain before))
  · exact .inl ⟨rfl, first.unique second plain second_plain⟩
  · exact .inr (.inr (second.lt_of_lt first second_plain plain after))

theorem pos_of_closes (use : Use word cells column) (plain : IsPlain word) (closes : Closes cells.head?) :
    0 < column := by
  by_contra start
  obtain rfl : column = 0 := by omega
  obtain ⟨cell, here, part, -⟩ := use.head plain
  rw [← List.head?_eq_getElem?] at here
  rw [(closes cell here).1] at part
  contradiction

theorem of_append (use : Use word (front ++ back) (front.length + column)) : Use word back column := by
  obtain ⟨tag, code, covers⟩ := use.covers
  refine ⟨⟨tag, code, by simpa using covers⟩, fun index next => ?_, ?_⟩
  · have opens := use.opens (front.length + index) (by omega)
    rwa [List.getElem?_append_right (by omega), Nat.add_sub_cancel_left] at opens
  · have closes := use.closes
    rwa [Nat.add_assoc, List.getElem?_append_right (by omega), Nat.add_sub_cancel_left] at closes

theorem append (use : Use word back column) (later : 0 < column) :
    Use word (front ++ back) (front.length + column) := by
  obtain ⟨tag, code, covers⟩ := use.covers
  refine ⟨⟨tag, code, by simpa using covers⟩, fun index next => ?_, ?_⟩
  · obtain ⟨index, rfl⟩ : ∃ inner, index = front.length + inner := ⟨index - front.length, by omega⟩
    rw [List.getElem?_append_right (by omega), Nat.add_sub_cancel_left]
    exact use.opens index (by omega)
  · rw [Nat.add_assoc, List.getElem?_append_right (by omega), Nat.add_sub_cancel_left]
    exact use.closes

theorem of_front (use : Use word (front ++ back) column) (within : column + word.length < front.length)
    (more : List Cell) : Use word (front ++ more) column := by
  obtain ⟨tag, code, covers⟩ := use.covers
  refine ⟨⟨tag, code, ?_⟩, fun index next => ?_, ?_⟩
  · rw [List.drop_append_of_le_length (by omega)] at covers ⊢
    refine (List.prefix_of_prefix_length_le covers (List.prefix_append _ _) ?_).trans (List.prefix_append _ _)
    simp only [mark, List.length_map, List.length_drop]
    omega
  · have opens := use.opens index next
    rwa [List.getElem?_append_left (by omega)] at opens ⊢
  · have closes := use.closes
    rwa [List.getElem?_append_left within] at closes ⊢

end Use

section Finding

variable {word : List Char}

theorem wholeWord_eq_some {before : Option Char} {text tail : List Char} :
    wholeWord word before text = some ((), tail) ↔ text = word ++ tail ∧
      (∀ c ∈ before, isNamePart c = false) ∧ ∀ c ∈ tail.head?, isNamePart c = false ∧ c ≠ '?' := by
  have left : (before.any isNamePart = false) ↔ ∀ c ∈ before, isNamePart c = false := by
    cases before <;> simp
  have right (rest : List Char) : (rest.head?.any fun c => isNamePart c || c == '?') = false ↔
      ∀ c ∈ rest.head?, isNamePart c = false ∧ c ≠ '?' := by
    cases rest <;> simp
  rw [wholeWord, ← left]
  cases before.any isNamePart with
  | true => simp
  | false =>
    simp only [Bool.false_eq_true, if_false, Option.bind_eq_some_iff, after?_eq_some, true_and, ← right]
    constructor
    · rintro ⟨rest, rfl, ends⟩
      split_ifs at ends with goes
      obtain rfl : rest = tail := by simpa using ends
      exact ⟨rfl, by simpa using goes⟩
    · rintro ⟨rfl, ends⟩
      exact ⟨tail, rfl, by simp [ends]⟩

theorem length_le_of_border (plain : IsPlain word) {front back tail : List Char} (some_ : front ≠ [])
    (same : word ++ tail = front ++ back) (border : ∀ c ∈ front.getLast?, isNamePart c = false) :
    word.length ≤ front.length := by
  by_contra longer
  have pos := List.length_pos_iff.2 some_
  have inside : front.length - 1 + 1 < word.length := by omega
  have last : front[front.length - 1]? = word[front.length - 1]? := by
    rw [← List.getElem?_append_left (by omega), ← same, List.getElem?_append_left (by omega)]
  rw [List.getLast?_eq_getElem?, last, List.getElem?_eq_getElem (by omega)] at border
  have part := plain.isNamePart_of_lt inside
  rw [border _ rfl] at part
  contradiction

theorem exists_mem_findsFrom (plain : IsPlain word) (column : Nat) (before : Option Char)
    {front back : List Char} (left : ∀ c ∈ front.getLast?.or before, isNamePart c = false)
    (right : ∀ c ∈ back.head?, isNamePart c = false ∧ c ≠ '?') :
    ∃ found ∈ findsFrom (wholeWord word) column 0 before (front ++ (word ++ back)),
      found.start = column + front.length := by
  induction size : front.length using Nat.strong_induction_on generalizing front column before with
  | h size ih =>
  subst size
  cases front with
  | nil =>
    have reads := (@wholeWord_eq_some word before _ back).2 ⟨rfl, by simpa using left, right⟩
    rw [List.nil_append, findsFrom_some plain.ne_nil reads]
    exact ⟨_, List.mem_cons_self, rfl⟩
  | cons c front =>
    cases reads : wholeWord word before (c :: (front ++ (word ++ back))) with
    | none =>
      rw [getLast?_cons_or] at left
      obtain ⟨found, member, start⟩ := ih front.length (by simp) (column + 1) (some c) left rfl
      refine ⟨found, ?_, by rw [start, List.length_cons]; omega⟩
      rwa [List.cons_append, findsFrom_none reads]
    | some result =>
      obtain ⟨⟨⟩, tail⟩ := result
      obtain ⟨whole, -, ends⟩ := wholeWord_eq_some.1 reads
      have border : ∀ d ∈ (c :: front).getLast?, isNamePart d = false := by
        simpa [List.getLast?_cons] using left
      have within := length_le_of_border plain (by simp) whole.symm border
      obtain ⟨rest, same⟩ := List.prefix_of_prefix_length_le ⟨tail, whole.symm⟩ (List.prefix_append _ _) within
      have tail_eq : tail = rest ++ (word ++ back) := by
        rw [← List.cons_append, ← same, List.append_assoc] at whole
        exact (List.append_cancel_left whole).symm
      subst tail_eq
      have last : word.getLast?.or before = word.getLast? :=
        Option.or_of_isSome (by simpa [List.getLast?_isSome] using plain.ne_nil)
      rw [← same, List.getLast?_append, Option.or_assoc, last] at left
      obtain ⟨found, member, start⟩ := ih rest.length (by rw [← same]; simp [plain.length_pos])
        (column + word.length) word.getLast? left rfl
      refine ⟨found, ?_, by rw [start, ← same, List.length_append, Nat.add_assoc]⟩
      rw [whole] at reads
      rw [List.cons_append, whole, findsFrom_some plain.ne_nil reads]
      exact List.mem_cons_of_mem _ member

theorem mem_starts_finds (plain : IsPlain word) {text : List Char} {column : Nat} :
    column ∈ (finds (wholeWord word) text).map (·.start) ↔ ∃ front back, text = front ++ (word ++ back) ∧
      column = front.length ∧ (∀ c ∈ front.getLast?, isNamePart c = false) ∧
      ∀ c ∈ back.head?, isNamePart c = false ∧ c ≠ '?' := by
  rw [List.mem_map]
  constructor
  · rintro ⟨found, member, rfl⟩
    obtain ⟨front, text, rfl, start, back, reads⟩ := exists_of_mem_findsFrom member
    obtain ⟨rfl, left, right⟩ := wholeWord_eq_some.1 reads
    exact ⟨front, back, rfl, by simpa using start, by simpa using left, right⟩
  · rintro ⟨front, back, rfl, rfl, left, right⟩
    obtain ⟨found, member, start⟩ := exists_mem_findsFrom plain 0 none (by simpa using left) right
    exact ⟨found, member, by simpa using start⟩

end Finding

section Columns

variable {word : List Char} {carry : Carry} {text : List Char}

theorem getElem?_cells {column : Nat} {cell : Cell} (found : (scanLine carry text).cells[column]? = some cell) :
    text[column]? = some cell.1 ∧ (scanLine carry text).codeAt column = cell.2.isCode := by
  obtain ⟨char, tag⟩ := List.getElem?_zip_eq_some.1 found
  refine ⟨char, ?_⟩
  rw [Scan.codeAt, List.getD_eq_getElem?_getD, tag]
  rfl

theorem exists_getElem?_cells {column : Nat} {c : Char} (found : text[column]? = some c) :
    ∃ tag, (scanLine carry text).cells[column]? = some (c, tag) := by
  rw [← map_fst_cells carry text, List.getElem?_map, Option.map_eq_some_iff] at found
  obtain ⟨cell, here, rfl⟩ := found
  exact ⟨cell.2, here⟩

theorem unquoted_iff (text : List Char) (column : Nat) :
    (!(column != 0 && (text[column - 1]?).any fun c => c == '\x27' || c == '\x60')) = true ↔
      ∀ index, index + 1 = column → ∀ c ∈ text[index]?, c ≠ '\x27' ∧ c ≠ '\x60' := by
  cases column with
  | zero => simp
  | succ index => cases found : text[index]? <;> simp [found]

theorem mem_columnsOf (plain : IsPlain word) (sound : carry.Sound) {column : Nat} :
    column ∈ columnsOf word (scanLine carry text) ↔ Use word (scanLine carry text).cells column := by
  unfold columnsOf
  rw [List.mem_filter, Scan.text_scanLine, mem_starts_finds plain, Bool.and_eq_true, unquoted_iff]
  constructor
  · rintro ⟨⟨front, back, rfl, rfl, left, right⟩, code, unquoted⟩
    have drop : ((scanLine carry (front ++ (word ++ back))).cells.drop front.length).map (·.1) = word ++ back := by
      rw [List.map_drop, map_fst_cells, List.drop_left]
    obtain ⟨c, rest, rfl⟩ := List.exists_cons_of_ne_nil plain.ne_nil
    obtain ⟨tag, here⟩ : ∃ tag, (scanLine carry (front ++ (c :: rest ++ back))).cells[front.length]? =
        some (c, tag) := exists_getElem?_cells (by simp)
    rw [(getElem?_cells here).2] at code
    refine ⟨⟨tag, code, ?_⟩, fun index next cell before => ⟨left _ ?_, unquoted index next _ ?_⟩,
      fun cell after => right _ ?_⟩
    · exact Scans.mark_prefix (sound.fits _) (scans_cells_scanLine carry _) plain.inert drop here code
    · have char := (getElem?_cells before).1
      rwa [List.getElem?_append_left (by omega), show index = front.length - 1 by omega,
        ← List.getLast?_eq_getElem?] at char
    · exact (getElem?_cells before).1
    · have char := (getElem?_cells after).1
      rwa [← List.append_assoc, ← List.length_append, List.getElem?_append_right le_rfl, Nat.sub_self,
        ← List.head?_eq_getElem?] at char
  · intro use
    obtain ⟨tag, -, rest, whole⟩ := use.covers
    obtain ⟨cell, here, -, code⟩ := use.head plain
    obtain ⟨char, tagged⟩ := getElem?_cells here
    have inside : column < text.length := (List.getElem?_eq_some_iff.1 char).1
    have drop : text.drop column = word ++ rest.map (·.1) := by
      rw [← map_fst_cells carry text, ← List.map_drop, ← whole]
      simp
    have border (index : Nat) (next : index + 1 = column) (c : Char) (before : c ∈ text[index]?) :
        isNamePart c = false ∧ c ≠ '\x27' ∧ c ≠ '\x60' := by
      obtain ⟨tag, here⟩ := exists_getElem?_cells before
      exact use.opens index next _ here
    refine ⟨⟨text.take column, rest.map (·.1), ?_, ?_, fun c last => ?_, fun c first => ?_⟩, ?_,
      fun index next c before => (border index next c before).2⟩
    · rw [← drop, List.take_append_drop]
    · rw [List.length_take, Nat.min_eq_left (Nat.le_of_lt inside)]
    · cases column with
      | zero => simp at last
      | succ index =>
        have before : text[index]? = some text[index] := List.getElem?_eq_getElem _
        rw [List.getLast?_take, if_neg (by omega), Nat.add_sub_cancel, before] at last
        exact (border index rfl c (before.trans last)).1
    · have place : text[column + word.length]? = some c := by
        rw [← List.getElem?_drop, drop, List.getElem?_append_right le_rfl, Nat.sub_self, ← List.head?_eq_getElem?]
        exact first
      obtain ⟨tag, here⟩ := exists_getElem?_cells place
      exact use.closes _ here
    · rw [tagged, code]

theorem pairwise_columnsOf (word : List Char) (scan : Scan) : (columnsOf word scan).Pairwise (· < ·) :=
  (List.pairwise_map.2 (pairwise_findsFrom 0 0 none scan.text).1).filter _

end Columns

end ArturoInsight
