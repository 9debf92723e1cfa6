import ArturoInsight.Proofs.Lexical.Borders
import ArturoInsight.Proofs.Lexical.Spans
import ArturoInsight.Proofs.Lexical.Swaps

/-! Every scan of a document is well formed: a tag for each character, spans that cover the line, no mark in
code, a comment that goes on to the end, words that are code as a whole or not at all. -/

namespace ArturoInsight.Lexical

open Text

/-- The characters of names and literals: ASCII letters and digits, underscores, hyphens and question marks. -/
def isWordy (c : Char) : Bool := isNamePart c || c == '?'

theorem isWordy_of_isNamePart {c : Char} (part : isNamePart c = true) : isWordy c = true := by
  rw [isWordy, part, Bool.true_or]

/-- What holds of a scan by itself, whatever line it is of. -/
structure WellFormed (scan : Scan) : Prop where
  length : scan.tags.length = scan.text.length
  tiled : scan.Tiled
  unmarked : ∀ cell ∈ scan.cells, cell.2.isCode = true → cell.1 ∉ [';', '\x7b', '\x22', '«']
  comment : ∀ index, scan.tags[index]? = some .comment ↔
    index < scan.text.length ∧ ∃ start ∈ scan.commentStart, start ≤ index
  semicolon : ∀ start ∈ scan.commentStart, scan.text[start]? = some ';'
  carried : scan.carryOut.inString = true →
    scan.carryOut.form ∈ [some .verbatim, some .embedded, some .guillemets]
  words : ∀ index first second, scan.cells[index]? = some first → scan.cells[index + 1]? = some second →
    isWordy first.1 = true → isWordy second.1 = true → first.2.isCode = second.2.isCode

theorem not_mem_of_endsCode {c : Char} (plain : endsCode c = false) : c ∉ [';', '\x7b', '\x22', '«'] := by
  simp only [endsCode, Bool.or_eq_false_iff, beq_eq_false_iff_ne] at plain
  simp [plain]

theorem Scans.unmarked {state last : State} {cells : List Cell} (scans : Scans state cells last)
    (fits : Fits state (cells.map (·.1))) :
    ∀ cell ∈ cells, cell.2.isCode = true → endsCode cell.1 = false := by
  induction cells generalizing state with
  | nil => exact List.forall_mem_nil _
  | cons cell rest ih =>
    obtain ⟨tagged, later⟩ := scans_cons.1 scans
    refine List.forall_mem_cons.2 ⟨fun code => ?_, ih later fits.step⟩
    obtain ⟨depth, rfl⟩ := fits.exists_code tagged code
    by_contra marks
    obtain ⟨tag, mode, moves, inside, form, -⟩ :=
      @State.step_mark depth cell.1 (by simpa using marks) (rest.map (·.1)).head?
    rw [moves] at tagged
    have same : tag = cell.2 := tagged
    rw [← same, Mode.isCode_eq_false inside form] at code
    contradiction

theorem State.char_of_comment {state : State} {c : Char} {next : Option Char} (starts : state.mode ≠ .comment)
    (ends : (state.step c next).2.mode = .comment) : c = ';' := by
  obtain ⟨mode, depth⟩ := state
  cases mode with
  | code =>
    by_contra other
    simp only [step, stepCode, other, if_false, enter] at ends
    split_ifs at ends
  | inside tag =>
    have closes : insideNext tag c next = .comment := ends
    cases tag <;> simp only [insideNext] at closes <;> (try split_ifs at closes) <;> contradiction
  | second tag stays => cases stays <;> contradiction
  | comment => exact absurd rfl starts

theorem Scans.exists_comment {state last : State} {cells : List Cell} (scans : Scans state cells last)
    (fits : Fits state (cells.map (·.1))) (starts : state.mode ≠ .comment) (ends : last.mode = .comment) :
    ∃ front rest, cells = front ++ (';', .comment) :: rest ∧ (∀ cell ∈ front, cell.2 ≠ .comment) ∧
      ∀ cell ∈ rest, cell.2 = .comment := by
  induction cells generalizing state with
  | nil =>
    rw [scans_nil.1 scans] at ends
    contradiction
  | cons cell rest ih =>
    obtain ⟨tagged, later⟩ := scans_cons.1 scans
    by_cases here : (state.step cell.1 (rest.map (·.1)).head?).2.mode = .comment
    · have semicolon := State.char_of_comment starts here
      have comment : cell.2 = .comment := by
        rw [← tagged]
        exact State.step_fst_of_tag? (by rw [here]; rfl)
      refine ⟨[], rest, ?_, List.forall_mem_nil _, (later.comment here).2⟩
      rw [List.nil_append, ← semicolon, ← comment]
    · obtain ⟨front, more, rfl, shown, commented⟩ := ih later fits.step here
      have shows : cell.2 ≠ .comment := fun comment => here (fits.step_comment (tagged.trans comment))
      exact ⟨cell :: front, more, rfl, List.forall_mem_cons.2 ⟨shows, shown⟩, commented⟩

theorem commentStart_eq {scan : Scan} {state : State} (scans : Scans state scan.cells scan.last)
    (fits : Fits state (scan.cells.map (·.1))) (starts : state.mode ≠ .comment)
    (tags : scan.tags = scan.cells.map (·.2)) :
    scan.commentStart = none ∧ (∀ cell ∈ scan.cells, cell.2 ≠ .comment) ∨
    ∃ front rest, scan.cells = front ++ (';', .comment) :: rest ∧ (∀ cell ∈ front, cell.2 ≠ .comment) ∧
      (∀ cell ∈ rest, cell.2 = .comment) ∧ scan.commentStart = some front.length := by
  by_cases ends : scan.last.mode = .comment
  · obtain ⟨front, rest, whole, shown, commented⟩ := scans.exists_comment fits starts ends
    refine .inr ⟨front, rest, whole, shown, commented, ?_⟩
    have before : ∀ tag ∈ front.map (·.2), (tag != .comment) = true := by
      intro tag member
      obtain ⟨cell, inside, rfl⟩ := List.mem_map.1 member
      simpa using shown cell inside
    rw [Scan.commentStart, if_pos ends, tags, whole, List.map_append, List.takeWhile_append_of_pos before]
    simp
  · exact .inl ⟨if_neg ends, scans.ne_comment fits ends⟩

theorem getElem?_tags_comment {front rest : List Cell} (shown : ∀ cell ∈ front, cell.2 ≠ .comment)
    (commented : ∀ cell ∈ rest, cell.2 = .comment) (index : Nat) :
    ((front ++ (';', .comment) :: rest).map (·.2))[index]? = some .comment ↔
      index < front.length + (rest.length + 1) ∧ front.length ≤ index := by
  have tail : ((';', Tag.comment) :: rest).map (·.2) = List.replicate (rest.length + 1) Tag.comment := by
    refine List.eq_replicate_iff.2 ⟨by simp, fun tag member => ?_⟩
    obtain ⟨cell, inside, rfl⟩ := List.mem_map.1 member
    obtain rfl | later := List.mem_cons.1 inside
    · rfl
    · exact commented cell later
  rw [List.map_append, tail]
  by_cases early : index < front.length
  · rw [List.getElem?_append_left (by simpa using early), List.getElem?_map, Option.map_eq_some_iff]
    constructor
    · rintro ⟨cell, found, comment⟩
      exact absurd comment (shown cell (List.mem_of_getElem? found))
    · omega
  · rw [List.getElem?_append_right (by simpa using early), List.length_map, List.getElem?_replicate]
    split_ifs with inside
    · exact ⟨fun _ => by omega, fun _ => rfl⟩
    · exact ⟨fun none => by contradiction, fun within => by omega⟩

theorem Carry.form_of_within {tag : Tag} {stays : Bool} (multiline : stays = true → tag.isMultiline = true)
    (open_ : (if stays then within tag else none).inString = true) :
    (if stays then within tag else none).form ∈ [some .verbatim, some .embedded, some .guillemets] := by
  split_ifs at open_ ⊢ with goes
  · have many := multiline goes
    cases tag <;> first | decide | contradiction
  · contradiction

theorem State.form_of_carry {state : State} (open_ : state.carry.inString = true) :
    state.carry.form ∈ [some .verbatim, some .embedded, some .guillemets] := by
  obtain ⟨mode, depth⟩ := state
  cases mode with
  | code => contradiction
  | comment => contradiction
  | inside tag => exact Carry.form_of_within id open_
  | second tag stays => exact Carry.form_of_within (fun goes => (Bool.and_eq_true_iff.1 goes).2) open_

theorem not_ends_of_isWordy {c : Char} (wordy : isWordy c = true) : endsCode c = false ∧ endsString c = false := by
  simp only [endsCode, endsString, Bool.or_eq_false_iff, beq_eq_false_iff_ne]
  refine ⟨⟨⟨⟨?_, ?_⟩, ?_⟩, ?_⟩, ⟨?_, ?_⟩, ?_⟩ <;> rintro rfl <;> exact absurd wordy (by decide)

namespace WellFormed

variable {scan : Scan} (formed : WellFormed scan)

include formed

theorem exists_cell {column : Nat} {c : Char} (found : scan.text[column]? = some c) :
    ∃ tag, scan.cells[column]? = some (c, tag) ∧ scan.codeAt column = tag.isCode := by
  obtain ⟨inside, rfl⟩ := List.getElem?_eq_some_iff.1 found
  have tagged : column < scan.tags.length := by
    rw [formed.length]
    exact inside
  refine ⟨scan.tags[column], List.getElem?_zip_eq_some.2 ⟨found, List.getElem?_eq_getElem tagged⟩, ?_⟩
  rw [Scan.codeAt, List.getD_eq_getElem?_getD, List.getElem?_eq_getElem tagged, Option.getD_some]

theorem codeAt_word {front word back : List Char} (text : scan.text = front ++ word ++ back)
    (wordy : ∀ c ∈ word, isWordy c = true) (starts : scan.codeAt front.length = true) {column : Nat}
    (low : front.length ≤ column) (high : column < front.length + word.length) : scan.codeAt column = true := by
  have char {place : Nat} (inside : place < word.length) : ∃ c, isWordy c = true ∧
      scan.text[front.length + place]? = some c := by
    refine ⟨word[place], wordy _ (List.getElem_mem inside), ?_⟩
    rw [text, List.append_assoc, getElem?_append_within inside]
  induction column, low using Nat.le_induction with
  | base => exact starts
  | succ column low ih =>
    obtain ⟨place, rfl⟩ := Nat.exists_eq_add_of_le low
    obtain ⟨c, first, here⟩ := char (by omega : place < word.length)
    obtain ⟨d, second, next⟩ := char (by omega : place + 1 < word.length)
    obtain ⟨tag, cell, code⟩ := formed.exists_cell here
    obtain ⟨other, follower, same⟩ := formed.exists_cell next
    have alike := formed.words _ _ _ cell follower first second
    calc scan.codeAt (front.length + place + 1) = other.isCode := same
      _ = tag.isCode := alike.symm
      _ = scan.codeAt (front.length + place) := code.symm
      _ = true := ih (by omega)

end WellFormed

section Line

variable {carry : Carry} (sound : carry.Sound) (text : List Char)

theorem map_snd_cells : (scanLine carry text).cells.map (·.2) = (scanLine carry text).tags :=
  List.map_snd_zip (Nat.le_of_eq (Scan.length_tags_scanLine carry text))

theorem length_cells : (scanLine carry text).cells.length = text.length := by
  rw [← List.length_map (·.1), map_fst_cells]

include sound

/-- A line with a string open before it borders on that string, as if on its quote. -/
theorem Carry.Sound.bordered : Bordered ('\x22', .quoted) (scanLine carry text).cells := by
  have fits : Fits (.ofCarry carry) ((scanLine carry text).cells.map (·.1)) := sound.fits _
  refine (scans_cells_scanLine carry text).bordered fits (fun code => ?_) fun _ => .inr (by decide)
  contradiction

theorem Carry.Sound.bordered_beforeComment :
    Bordered ('\x22', .quoted) (beforeComment (scanLine carry text).cells) := by
  obtain ⟨rest, whole⟩ := beforeComment_prefix (scanLine carry text).cells
  have bordered := sound.bordered text
  rw [← whole, Bordered, ← List.cons_append] at bordered
  exact bordered.left_of_append

theorem Carry.Sound.uncommented :
    (scanLine carry text).uncommented = (beforeComment (scanLine carry text).cells).map (·.1) := by
  have fits : Fits (.ofCarry carry) ((scanLine carry text).cells.map (·.1)) := sound.fits _
  exact uncommented_eq (scans_cells_scanLine carry text) fits (map_fst_cells carry text).symm (map_snd_cells text).symm

theorem Carry.Sound.borders {index : Nat} {first second : Cell}
    (left : (scanLine carry text).cells[index]? = some first)
    (right : (scanLine carry text).cells[index + 1]? = some second) : Borders first second := by
  obtain ⟨inside, rfl⟩ := List.getElem?_eq_some_iff.1 left
  obtain ⟨next, rfl⟩ := List.getElem?_eq_some_iff.1 right
  exact (sound.bordered text).tail.getElem index next

theorem isCode_eq_of_isWordy {index : Nat} {first second : Cell}
    (left : (scanLine carry text).cells[index]? = some first)
    (right : (scanLine carry text).cells[index + 1]? = some second)
    (before : isWordy first.1 = true) (after : isWordy second.1 = true) : first.2.isCode = second.2.isCode := by
  have border := sound.borders text left right
  rw [Bool.eq_iff_iff]
  constructor
  · intro code
    by_contra other
    have opens := border.opens code (by simpa using other)
    rw [(not_ends_of_isWordy after).1] at opens
    contradiction
  · intro code
    by_contra other
    have closes := border.closes (by simpa using other) code
    rw [(not_ends_of_isWordy before).2] at closes
    contradiction

theorem wellFormed_scanLine : WellFormed (scanLine carry text) := by
  have scans := scans_cells_scanLine carry text
  have fits : Fits (.ofCarry carry) ((scanLine carry text).cells.map (·.1)) := sound.fits _
  have comments := commentStart_eq scans fits (State.mode_ofCarry carry) (map_snd_cells text).symm
  refine ⟨Scan.length_tags_scanLine carry text, Scan.tiled _, ?_, ?_, ?_, State.form_of_carry, ?_⟩
  case refine_1 =>
    exact fun cell member code => not_mem_of_endsCode (scans.unmarked fits cell member code)
  case refine_2 =>
    intro index
    rw [← map_snd_cells, Scan.text_scanLine, ← @length_cells carry text]
    obtain ⟨none, shown⟩ | ⟨front, rest, whole, shown, commented, same⟩ := comments
    · rw [none, List.getElem?_map, Option.map_eq_some_iff]
      constructor
      · rintro ⟨cell, found, comment⟩
        exact absurd comment (shown cell (List.mem_of_getElem? found))
      · rintro ⟨-, start, found, -⟩
        contradiction
    · rw [same, whole, getElem?_tags_comment shown commented, List.length_append, List.length_cons]
      simp
  case refine_3 =>
    intro start found
    obtain ⟨none, -⟩ | ⟨front, rest, whole, -, -, same⟩ := comments
    · rw [none] at found
      contradiction
    · obtain rfl : front.length = start := Option.some.inj (same.symm.trans found)
      rw [Scan.text_scanLine, ← map_fst_cells carry text, whole]
      simp
  case refine_4 =>
    exact fun index first second left right => isCode_eq_of_isWordy sound text left right

theorem codeAt_of_succ {index : Nat} {c : Char} (found : text[index]? = some c) (wordy : isWordy c = true)
    (next : (scanLine carry text).codeAt (index + 1) = true) : (scanLine carry text).codeAt index = true := by
  have formed := wellFormed_scanLine sound text
  obtain ⟨tag, here, same⟩ := formed.exists_cell found
  rw [same]
  by_contra other
  have plain := (not_ends_of_isWordy wordy).2
  cases after : text[index + 1]? with
  | some d =>
    obtain ⟨form, there, code⟩ := formed.exists_cell after
    have closes := (sound.borders text here there).closes (by simpa using other) (code.symm.trans next)
    rw [plain] at closes
    contradiction
  | none =>
    have fits : Fits (.ofCarry carry) ((scanLine carry text).cells.map (·.1)) := sound.fits _
    have scans := scans_cells_scanLine carry text
    have size := Scan.length_tags_scanLine carry text
    have past : (scanLine carry text).tags[index + 1]? = none := by
      rw [List.getElem?_eq_none_iff] at after ⊢
      rwa [size]
    have ends : (scanLine carry text).last.mode = .code := by
      refine (scans.fits_last fits).mode_of_endTag ?_
      rwa [Scan.codeAt, List.getD_eq_getElem?_getD, past] at next
    obtain ⟨cells, whole⟩ : ∃ cells, (scanLine carry text).cells = cells ++ [(c, tag)] := by
      rw [← List.getLast?_eq_some_iff, List.getLast?_eq_getElem?, length_cells]
      rw [List.getElem?_eq_none_iff] at after
      have inside := (List.getElem?_eq_some_iff.1 found).1
      rwa [show text.length - 1 = index by omega]
    rw [whole] at scans fits
    obtain code | closes := scans.last_ends fits ends
    · exact other code
    · rw [plain] at closes
      contradiction

theorem codeAt_front {front word back : List Char} (split : text = front ++ (word ++ back))
    (wordy : ∀ c ∈ word, isWordy c = true) {column : Nat} (low : front.length ≤ column)
    (high : column ≤ front.length + word.length) (code : (scanLine carry text).codeAt column = true) :
    (scanLine carry text).codeAt front.length = true := by
  induction column, low using Nat.le_induction with
  | base => exact code
  | succ column low ih =>
    obtain ⟨place, rfl⟩ := Nat.exists_eq_add_of_le low
    have inside : place < word.length := by omega
    have char : text[front.length + place]? = some word[place] := by rw [split, getElem?_append_within inside]
    exact ih (by omega) (codeAt_of_succ sound text char (wordy _ (List.getElem_mem inside)) code)

end Line

theorem carryIn_scanFrom (carry : Carry) (texts : List (List Char)) :
    (∀ first ∈ (scanFrom carry texts).head?, first.carryIn = carry) ∧
      (scanFrom carry texts).IsChain fun before after => after.carryIn = before.carryOut := by
  induction texts generalizing carry with
  | nil => exact ⟨by simp [scanFrom], .nil⟩
  | cons text rest ih =>
    obtain ⟨first, chain⟩ := ih (scanLine carry text).carryOut
    refine ⟨by simp [scanFrom, scanLine], ?_⟩
    rw [scanFrom]
    exact List.isChain_cons.2 ⟨first, chain⟩

/-- The scans of a document are those of its lines in order, each well formed and each from the string state
that the one before ended in. -/
theorem wellFormed_scanLines (texts : List (List Char)) :
    (scanLines texts).map Scan.text = texts ∧ (∀ scan ∈ scanLines texts, WellFormed scan) ∧
      (∀ first ∈ (scanLines texts).head?, first.carryIn = .none) ∧
      (scanLines texts).IsChain fun before after => after.carryIn = before.carryOut := by
  refine ⟨map_text_scanFrom .none texts, fun scan member => ?_, carryIn_scanFrom .none texts⟩
  obtain ⟨carry, text, sound, -, rfl⟩ := exists_sound_scanLine Carry.sound_none member
  exact wellFormed_scanLine sound text

end ArturoInsight.Lexical
