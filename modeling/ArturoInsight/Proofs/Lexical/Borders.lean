import ArturoInsight.Proofs.Lexical.Cells
import Mathlib.Data.List.Chain

/-! Borders in a line: a string or a comment starts at one of the marks that end code, a string ends at one
of the marks that close it, and a comment goes on to the end. -/

namespace ArturoInsight.Lexical

open Text

structure Borders (first second : Cell) : Prop where
  opens : first.2.isCode = true → second.2.isCode = false → endsCode second.1 = true
  closes : first.2.isCode = false → second.2.isCode = true → endsString first.1 = true

abbrev Bordered (before : Cell) (cells : List Cell) : Prop := List.IsChain Borders (before :: cells)

theorem bordered_cons {before cell : Cell} {rest : List Cell} :
    Bordered before (cell :: rest) ↔ Borders before cell ∧ Bordered cell rest :=
  List.isChain_cons_cons

theorem Bordered.drop {before : Cell} {covered after : List Cell} (bordered : Bordered before (covered ++ after)) :
    ∃ last, Bordered last after := by
  induction covered generalizing before with
  | nil => exact ⟨before, bordered⟩
  | cons cell covered ih => exact ih (bordered_cons.1 bordered).2

theorem isCode_of_bordered {before : Cell} {c : Char} {tag : Tag} {rest : List Cell}
    (code : before.2.isCode = true) (bordered : Bordered before ((c, tag) :: rest))
    (plain : endsCode c = false) : tag.isCode = true := by
  by_contra other
  have marks := (bordered_cons.1 bordered).1.opens code (by simpa using other)
  exact absurd marks (by simp [plain])

theorem endsCode_of_isBlank {c : Char} (blank : isBlank c = true) : endsCode c = false :=
  (inert_blanks (List.forall_mem_singleton.2 blank) c List.mem_cons_self).1

theorem endsString_of_isWord {c : Char} (word : isWord c = true) : endsString c = false := by
  simp only [endsString, Bool.or_eq_false_iff, beq_eq_false_iff_ne]
  refine ⟨⟨?_, ?_⟩, ?_⟩ <;> rintro rfl <;> exact absurd word (by decide +kernel)

theorem endsCode_of_isWord {c : Char} (word : isWord c = true) : endsCode c = false := by
  simp only [endsCode, Bool.or_eq_false_iff, beq_eq_false_iff_ne]
  refine ⟨⟨⟨?_, ?_⟩, ?_⟩, ?_⟩ <;> rintro rfl <;> exact absurd word (by decide +kernel)

theorem step_ends {state : State} {c : Char} {rest : List Char} (fits : Fits state (c :: rest))
    (ends : (state.step c rest.head?).2.mode = .code) :
    (state.step c rest.head?).1.isCode = true ∨ endsString c = true := by
  obtain ⟨mode, depth⟩ := state
  cases mode with
  | code =>
    cases plain : endsCode c with
    | false =>
      rw [State.step_code plain]
      exact .inl (codeTagAt_isCode depth c)
    | true =>
      obtain ⟨tag, mode, moves, inside, -⟩ := @State.step_mark depth c plain rest.head?
      rw [moves] at ends
      rw [Mode.tag?_eq_none.2 ends] at inside
      contradiction
  | inside tag =>
    have closes : State.insideNext tag c rest.head? = .code := ends
    right
    cases tag <;> simp only [State.insideNext] at closes <;> (try split_ifs at closes) <;>
      simp_all [endsString]
  | second tag stays =>
    cases stays
    · obtain ⟨d, same, closes⟩ := fits.closes tag rfl
      obtain rfl : c = d := by simpa using same
      exact .inr closes
    · contradiction
  | comment => contradiction

theorem step_opens {depth : Nat} {c : Char} {next : Option Char}
    (other : (State.step ⟨.code, depth⟩ c next).1.isCode = false) : endsCode c = true := by
  by_contra plain
  rw [State.step_code (by simpa using plain), codeTagAt_isCode] at other
  contradiction

theorem Scans.bordered {state last : State} {cells : List Cell} {before : Cell}
    (scans : Scans state cells last) (fits : Fits state (cells.map (·.1)))
    (code : before.2.isCode = true → state.mode = .code)
    (string : state.mode = .code → before.2.isCode = true ∨ endsString before.1 = true) :
    Bordered before cells := by
  induction cells generalizing state before with
  | nil => exact .singleton before
  | cons cell rest ih =>
    obtain ⟨tagged, later⟩ := scans_cons.1 scans
    refine bordered_cons.2 ⟨⟨?_, ?_⟩, ih later fits.step ?_ ?_⟩
    · intro inCode other
      obtain ⟨mode, depth⟩ := state
      obtain rfl : mode = .code := code inCode
      rw [← tagged] at other
      exact step_opens other
    · intro outside inCode
      obtain ⟨depth, same⟩ := fits.exists_code tagged inCode
      exact (string (by rw [same])).resolve_left (by simp [outside])
    · intro inCode
      obtain ⟨depth, rfl⟩ := fits.exists_code tagged inCode
      rw [← tagged] at inCode
      by_contra moves
      have inside := Option.ne_none_iff_exists'.1 fun none => moves (Mode.tag?_eq_none.1 none)
      obtain ⟨form, inside⟩ := inside
      rw [State.step_fst_of_tag? inside, fits.step.other inside] at inCode
      contradiction
    · intro ends
      rw [← tagged]
      exact step_ends fits ends

theorem Scans.last_ends {state last : State} {cells : List Cell} {cell : Cell}
    (scans : Scans state (cells ++ [cell]) last) (fits : Fits state ((cells ++ [cell]).map (·.1)))
    (ends : last.mode = .code) : cell.2.isCode = true ∨ endsString cell.1 = true := by
  induction cells generalizing state with
  | nil =>
    obtain ⟨tagged, same⟩ := scans_cons.1 scans
    rw [scans_nil.1 same] at ends
    rw [← tagged]
    exact step_ends fits ends
  | cons first rest ih => exact ih (scans_cons.1 scans).2 fits.step

theorem Scans.comment {state last : State} {cells : List Cell} (scans : Scans state cells last)
    (inside : state.mode = .comment) : last.mode = .comment ∧ ∀ cell ∈ cells, cell.2 = .comment := by
  induction cells generalizing state with
  | nil => exact ⟨by rw [scans_nil.1 scans, inside], List.forall_mem_nil _⟩
  | cons cell rest ih =>
    obtain ⟨mode, depth⟩ := state
    obtain rfl : mode = .comment := inside
    obtain ⟨tagged, later⟩ := scans_cons.1 scans
    obtain ⟨ends, all⟩ := ih later rfl
    exact ⟨ends, List.forall_mem_cons.2 ⟨tagged.symm, all⟩⟩

theorem Fits.step_comment {state : State} {c : Char} {text : List Char} (fits : Fits state text)
    {next : Option Char} (tagged : (state.step c next).1 = .comment) :
    (state.step c next).2.mode = .comment := by
  obtain ⟨mode, depth⟩ := state
  cases mode with
  | code =>
    have marks : endsCode c = true := step_opens (by rw [tagged]; rfl)
    obtain ⟨tag, mode, moves, -, form, -⟩ := @State.step_mark depth c marks next
    rw [moves] at tagged ⊢
    obtain rfl : tag = .comment := tagged
    exact form.resolve_left (by decide)
  | inside tag =>
    obtain rfl : tag = .comment := tagged
    simpa [Tag.isString] using fits.form .comment rfl
  | second tag stays =>
    obtain rfl : tag = .comment := tagged
    simpa [Tag.isString] using fits.form .comment rfl
  | comment => rfl

theorem Scans.ne_comment {state last : State} {cells : List Cell} (scans : Scans state cells last)
    (fits : Fits state (cells.map (·.1))) (ends : last.mode ≠ .comment) :
    ∀ cell ∈ cells, cell.2 ≠ .comment := by
  induction cells generalizing state with
  | nil => exact List.forall_mem_nil _
  | cons cell rest ih =>
    obtain ⟨tagged, later⟩ := scans_cons.1 scans
    refine List.forall_mem_cons.2 ⟨fun comment => ?_, ih later fits.step⟩
    exact ends (later.comment (fits.step_comment (tagged.trans comment))).1

def beforeComment (cells : List Cell) : List Cell := cells.takeWhile fun cell => cell.2 != .comment

theorem beforeComment_prefix (cells : List Cell) : beforeComment cells <+: cells :=
  List.takeWhile_prefix _

theorem beforeComment_of_forall {cells : List Cell} (shown : ∀ cell ∈ cells, cell.2 ≠ .comment) :
    beforeComment cells = cells := by
  apply List.takeWhile_eq_self_iff.2
  intro cell member
  simpa using shown cell member

theorem takeWhile_snd (cells : List Cell) (holds : Tag → Bool) :
    (cells.map (·.1)).take ((cells.map (·.2)).takeWhile holds).length =
      (cells.takeWhile fun cell => holds cell.2).map (·.1) := by
  induction cells with
  | nil => rfl
  | cons cell rest ih => cases held : holds cell.2 <;> simp [held, ih]

theorem uncommented_prefix (scan : Scan) : scan.uncommented <+: scan.text := by
  unfold Scan.uncommented
  split
  · exact List.take_prefix _ _
  · exact List.prefix_rfl

theorem uncommented_eq {scan : Scan} {state : State} (scans : Scans state scan.cells scan.last)
    (fits : Fits state (scan.cells.map (·.1))) (text : scan.text = scan.cells.map (·.1))
    (tags : scan.tags = scan.cells.map (·.2)) :
    scan.uncommented = (beforeComment scan.cells).map (·.1) := by
  unfold Scan.uncommented Scan.commentStart
  by_cases comment : scan.last.mode = .comment
  · rw [if_pos comment, text, tags]
    exact takeWhile_snd scan.cells (· != .comment)
  · rw [if_neg comment, beforeComment_of_forall (scans.ne_comment fits comment), ← text]

def TagsFrom (scan : Scan) (column : Nat) (cells : List Cell) : Prop :=
  ∀ index cell, cells[index]? = some cell → scan.codeAt (column + index) = cell.2.isCode

theorem TagsFrom.drop {scan : Scan} {column : Nat} {cells : List Cell} (tags : TagsFrom scan column cells)
    (count : Nat) : TagsFrom scan (column + count) (cells.drop count) := by
  intro index cell found
  rw [List.getElem?_drop] at found
  rw [Nat.add_assoc]
  exact tags _ cell found

section Line

variable {carry : Carry} {text : List Char}

theorem ne_comment_of_mem {cells : List Cell} {cell : Cell} (member : cell ∈ beforeComment cells) :
    cell.2 ≠ .comment := by
  simpa using List.mem_takeWhile_imp member

theorem tagsFrom_scanLine (carry : Carry) (text : List Char) :
    TagsFrom (scanLine carry text) 0 (beforeComment (scanLine carry text).cells) := by
  intro index cell found
  obtain ⟨rest, whole⟩ := beforeComment_prefix (scanLine carry text).cells
  have inside : (scanLine carry text).cells[index]? = some cell := by
    rw [← whole, List.getElem?_append_left (List.getElem?_eq_some_iff.1 found).1]
    exact found
  rw [Nat.zero_add, Scan.codeAt, List.getD_eq_getElem?_getD, (List.getElem?_zip_eq_some.1 inside).2]
  rfl

theorem bordered_scanLine (started : State.ofCarry carry = ⟨.code, 0⟩) :
    Bordered (' ', .code) (beforeComment (scanLine carry text).cells) := by
  have scans := scans_cells_scanLine carry text
  rw [started] at scans
  have bordered : Bordered (' ', .code) (scanLine carry text).cells :=
    scans.bordered (fits_code _ _) (fun _ => rfl) fun _ => .inl rfl
  obtain ⟨rest, whole⟩ := beforeComment_prefix (scanLine carry text).cells
  rw [← whole] at bordered
  rw [Bordered, ← List.cons_append] at bordered
  exact bordered.left_of_append

theorem uncommented_scanLine (started : State.ofCarry carry = ⟨.code, 0⟩) :
    (scanLine carry text).uncommented = (beforeComment (scanLine carry text).cells).map (·.1) := by
  have scans := scans_cells_scanLine carry text
  rw [started] at scans
  refine uncommented_eq scans (fits_code _ _) (map_fst_cells carry text).symm ?_
  exact (List.map_snd_zip (Nat.le_of_eq (Scan.length_tags_scanLine carry text))).symm

end Line

end ArturoInsight.Lexical
