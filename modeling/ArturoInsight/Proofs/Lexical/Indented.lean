import ArturoInsight.Proofs.Lexical.SameFront

/-! Lines outside strings, from their first character on that is no blank. The blanks before it decide neither the
tags of what follows nor the state that the line ends in, and the character itself says whether the line is only a
comment. -/

namespace ArturoInsight.Lexical

open Text

variable {carry : Carry}

theorem Carry.sound_of_closed (closed : carry.inString = false) : carry.Sound := by
  simp [Carry.Sound, Carry.active?, closed]

theorem scans_of_closed (closed : carry.inString = false) (text : List Char) :
    Scans ⟨.code, 0⟩ (scanLine carry text).cells (scanLine carry text).last := by
  rw [← State.ofCarry_of_closed closed]
  exact scans_cells_scanLine carry text

theorem dropWhile_cells_of_trimStart (closed : carry.inString = false) {text other : List Char}
    (same : trimStart text = trimStart other) :
    (scanLine carry text).cells.dropWhile isBlankCell = (scanLine carry other).cells.dropWhile isBlankCell ∧
      (scanLine carry text).last = (scanLine carry other).last := by
  have scans (text : List Char) :
      Scans ⟨.code, 0⟩ ((scanLine carry text).cells.dropWhile isBlankCell) (scanLine carry text).last :=
    scans_dropWhile (scans_of_closed closed text)
  have alike : (scanLine carry text).cells.dropWhile isBlankCell =
      (scanLine carry other).cells.dropWhile isBlankCell := by
    apply (scans text).unique (scans other)
    rw [map_fst_dropWhile, map_fst_dropWhile, map_fst_cells, map_fst_cells, same]
  refine ⟨alike, ?_⟩
  apply (scans text).last_eq
  rw [alike]
  exact scans other

theorem isCommentOnly_of_gap {gap rest : List Char} (closed : carry.inString = false) (blanks : Blanks gap) :
    (scanLine carry (gap ++ ';' :: rest)).isCommentOnly = true := by
  have scans : Scans (.ofCarry carry) (mark .code gap ++ mark .comment (';' :: rest)) ⟨.comment, 0⟩ := by
    rw [State.ofCarry_of_closed closed, scans_inert (inert_blanks blanks), mark_cons, scans_cons]
    exact ⟨fun _ => rfl, rfl, scans_comment rfl rest⟩
  have line := scans.scanLine_eq
  rw [List.map_append, map_fst_mark, map_fst_mark] at line
  have before : (((mark .code gap ++ mark .comment (';' :: rest)).map (·.2)).takeWhile (· != .comment)).length =
      gap.length := by
    rw [List.map_append, List.takeWhile_append_of_pos]
    · simp [mark]
    · exact List.forall_mem_map.2 (List.forall_mem_map.2 fun _ _ => rfl)
  rw [line, Scan.isCommentOnly, Scan.commentStart, if_pos rfl]
  dsimp only
  rw [before, closed, List.take_left, isBlankText, List.all_eq_true.2 blanks]
  rfl

theorem head?_of_isCommentOnly {scan : Scan} (formed : WellFormed scan) (comment : scan.isCommentOnly = true) :
    (trim scan.text).head? = some ';' := by
  unfold Scan.isCommentOnly at comment
  cases found : scan.commentStart with
  | none =>
    rw [found] at comment
    contradiction
  | some start =>
    rw [found] at comment
    have blanks : Blanks (scan.text.take start) := List.all_eq_true.1 (Bool.and_eq_true_iff.1 comment).2
    have whole : scan.text = scan.text.take start ++ ';' :: scan.text.drop (start + 1) := by
      conv_lhs => rw [← List.take_append_drop start scan.text]
      rw [List.drop_eq_getElem?_toList_append, formed.semicolon start found]
      rfl
    rw [whole, trim_gap blanks (by decide)]
    rfl

theorem isCommentOnly_iff_of_closed (closed : carry.inString = false) (text : List Char) :
    (scanLine carry text).isCommentOnly = true ↔ (trim text).head? = some ';' := by
  constructor
  · exact head?_of_isCommentOnly (wellFormed_scanLine (Carry.sound_of_closed closed) text)
  · intro semicolon
    obtain ⟨gap, blanks, rfl | ⟨c, rest, solid, rfl⟩⟩ := exists_gap text
    · rw [trim_blanks blanks] at semicolon
      contradiction
    · rw [trim_gap blanks solid] at semicolon
      rw [Option.some.inj semicolon]
      exact isCommentOnly_of_gap closed blanks

end ArturoInsight.Lexical
