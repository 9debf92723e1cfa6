import ArturoInsight.Proofs.Lexical.WellFormed

/-! Lines that are the same up to their comments. The text of a comment changes no tag before it and none of the
state that the line ends in, so that two such lines are read alike, but for the blanks in place of the comment. -/

namespace ArturoInsight.Lexical

open Text

/-- Two lines that start in one string state and are the same up to a comment, which both have or both lack. -/
structure SameFront (left right : Scan) : Prop where
  carryIn : left.carryIn = right.carryIn
  commented : left.commentStart.isSome = right.commentStart.isSome
  uncommented : left.uncommented = right.uncommented

instance (left right : Scan) : Decidable (SameFront left right) :=
  decidable_of_iff (left.carryIn = right.carryIn ∧ left.commentStart.isSome = right.commentStart.isSome ∧
      left.uncommented = right.uncommented)
    ⟨fun ⟨carryIn, commented, uncommented⟩ => ⟨carryIn, commented, uncommented⟩,
      fun ⟨carryIn, commented, uncommented⟩ => ⟨carryIn, commented, uncommented⟩⟩

/-- What is read of two lines alike: all but the comment, which is as good as a gap. -/
structure SameReading (left right : Scan) : Prop where
  carryIn : left.carryIn = right.carryIn
  carryOut : left.carryOut = right.carryOut
  uncommented : left.uncommented = right.uncommented
  tagAt : left.tagAt = right.tagAt
  brackets : left.brackets = right.brackets
  first : (trim left.text).head? = (trim right.text).head?
  blanked : ∃ front gap other, Blanks gap ∧ Blanks other ∧ (gap = [] ↔ other = []) ∧
    left.blanked = front ++ gap ∧ right.blanked = front ++ other

theorem SameReading.codeAt {left right : Scan} (same : SameReading left right) : left.codeAt = right.codeAt := by
  funext column
  exact congrArg (fun tagAt => (tagAt (column : Int)).isCode) same.tagAt

theorem SameReading.refl (scan : Scan) : SameReading scan scan where
  carryIn := rfl
  carryOut := rfl
  uncommented := rfl
  tagAt := rfl
  brackets := rfl
  first := rfl
  blanked := ⟨scan.blanked, [], [], blanks_nil, blanks_nil, Iff.rfl, (List.append_nil _).symm, (List.append_nil _).symm⟩

theorem State.step_comment {state : State} (inside : state.mode = .comment) (c : Char) (next : Option Char) :
    state.step c next = (.comment, state) := by
  simp only [step, inside]

theorem scans_comment {state : State} (inside : state.mode = .comment) (body : List Char) :
    Scans state (mark .comment body) state := by
  induction body with
  | nil => exact scans_nil.2 rfl
  | cons c body ih =>
    rw [mark_cons, scans_cons, State.step_comment inside]
    exact ⟨rfl, ih⟩

theorem eq_mark_of_forall {tag : Tag} {cells : List Cell} (tagged : ∀ cell ∈ cells, cell.2 = tag) :
    cells = mark tag (cells.map (·.1)) := by
  induction cells with
  | nil => rfl
  | cons cell cells ih =>
    obtain ⟨here, later⟩ := List.forall_mem_cons.1 tagged
    rw [List.map_cons, mark_cons, ← ih later, ← here]

theorem Scans.last_eq {state last other : State} {cells : List Cell} (left : Scans state cells last)
    (right : Scans state cells other) : last = other :=
  (Prod.mk.inj (left.symm.trans right)).2

theorem Scans.other_comment {state last : State} {front rest : List Cell}
    (scans : Scans state (front ++ (';', .comment) :: rest) last)
    (fits : Fits state ((front ++ (';', .comment) :: rest).map (·.1))) (other : List Char) :
    Scans state (front ++ mark .comment (';' :: other)) last := by
  obtain ⟨middle, fits, scans, swaps⟩ := scans.exists_middle fits
  obtain ⟨tagged, later⟩ := scans_cons.1 scans
  have inside := fits.step_comment tagged
  have commented : rest = mark .comment (rest.map (·.1)) := eq_mark_of_forall (later.comment inside).2
  rw [commented] at later
  have ends := later.last_eq (scans_comment inside _)
  refine swaps _ _ (fun _ _ => rfl) ?_
  rw [mark_cons, scans_cons, State.step_of_comment inside]
  exact ⟨tagged, ends ▸ scans_comment inside other⟩

section Line

variable {carry : Carry}

/-- A line without a comment, or its cells before a comment and that comment. -/
theorem Carry.Sound.commented (sound : carry.Sound) (text : List Char) :
    (scanLine carry text).commentStart = .none ∧ (scanLine carry text).uncommented = text ∨
    ∃ start front body, (scanLine carry text).commentStart = some start ∧
      (scanLine carry text).cells = front ++ mark .comment (';' :: body) ∧
      (scanLine carry text).uncommented = front.map (·.1) ∧ ∀ cell ∈ front, cell.2 ≠ .comment := by
  obtain ⟨none, -⟩ | ⟨front, rest, whole, shown, commented, start⟩ :=
    commentStart_eq (scans_cells_scanLine carry text) (sound.fits _) (State.mode_ofCarry carry)
      (map_snd_cells text).symm
  · exact .inl ⟨none, by rw [Scan.uncommented, none]; rfl⟩
  · refine .inr ⟨front.length, front, rest.map (·.1), start, ?_, ?_, shown⟩
    · rw [whole, mark_cons, ← eq_mark_of_forall commented]
    · rw [sound.uncommented, whole, beforeComment,
        List.takeWhile_append_of_pos fun cell member => by simpa using shown cell member]
      simp

theorem mode_of_commentStart {scan : Scan} {start : Nat} (found : scan.commentStart = some start) :
    scan.last.mode = .comment := by
  rw [Scan.commentStart] at found
  exact (Option.ite_none_right_eq_some.1 found).1

/-- Lines that are the same up to their comments are the same, or differ in the text of the comment alone. -/
theorem SameFront.cases (sound : carry.Sound) {text other : List Char}
    (same : SameFront (scanLine carry text) (scanLine carry other)) : text = other ∨
      ∃ front body more, (scanLine carry text).cells = front ++ mark .comment (';' :: body) ∧
        (scanLine carry other).cells = front ++ mark .comment (';' :: more) ∧
        (scanLine carry text).last = (scanLine carry other).last ∧ (scanLine carry text).last.mode = .comment := by
  have commented := same.commented
  obtain ⟨none, whole⟩ | ⟨start, front, body, found, cells, shown, -⟩ := sound.commented text
  · obtain ⟨-, second⟩ | ⟨start, -, -, found, -⟩ := sound.commented other
    · exact .inl (whole.symm.trans (same.uncommented.trans second))
    · simp [none, found] at commented
  · obtain ⟨none, -⟩ | ⟨place, back, more, -, line, shows, -⟩ := sound.commented other
    · simp [none, found] at commented
    · have fronts : front.map (·.1) = back.map (·.1) := shown.symm.trans (same.uncommented.trans shows)
      have scans := scans_cells_scanLine carry text
      have fits : Fits (.ofCarry carry) ((scanLine carry text).cells.map (·.1)) := sound.fits _
      rw [cells, mark_cons] at scans fits
      have swapped := scans.other_comment fits more
      have second := scans_cells_scanLine carry other
      rw [line] at second
      have alike : front ++ mark .comment (';' :: more) = back ++ mark .comment (';' :: more) :=
        swapped.unique second (by rw [List.map_append, List.map_append, fronts])
      refine .inr ⟨front, body, more, cells, line.trans alike.symm, ?_, mode_of_commentStart found⟩
      exact (alike ▸ swapped).last_eq second

section Commented

variable {text : List Char} {front : List Cell} {body : List Char}
  (cells : (scanLine carry text).cells = front ++ mark .comment (';' :: body))

include cells

theorem brackets_of_cells : (scanLine carry text).brackets =
    (front.filter fun cell => cell.2.isCode && (cell.1 == '[' || cell.1 == ']')).map (·.1) := by
  have nothing : (mark .comment (';' :: body)).filter (fun cell => cell.2.isCode && (cell.1 == '[' || cell.1 == ']')) =
      [] := by
    simp [mark, Tag.isCode]
  rw [Scan.brackets, cells, List.filter_append, nothing, List.append_nil]

theorem blanked_of_cells : (scanLine carry text).blanked =
    front.flatMap (fun cell => if cell.2.isCode then [cell.1] else [' ']) ++ (';' :: body).map fun _ => ' ' := by
  rw [Scan.blanked, Scan.codeText, cells, List.flatMap_append, mark, List.flatMap_map]
  exact congrArg _ List.map_eq_flatMap.symm

theorem first_of_cells : (trim (scanLine carry text).text).head? = (solids (front.map (·.1)) ++ [';']).head? := by
  have line : (scanLine carry text).text = front.map (·.1) ++ ';' :: body := by
    rw [Scan.text_scanLine, ← map_fst_cells carry text, cells, List.map_append, map_fst_mark]
  rw [head?_trim, line, solids_append, solids_cons]
  cases solids (front.map (·.1)) <;> rfl

theorem tagAt_of_cells (ends : (scanLine carry text).last.mode = .comment) (offset : Int) :
    (scanLine carry text).tagAt offset = (front.map (·.2)).getD offset.toNat .comment := by
  have last : (scanLine carry text).endTag = .comment := by
    rw [Scan.endTag, State.endTag, ends]
  have tags : (scanLine carry text).tags = front.map (·.2) ++ List.replicate (body.length + 1) .comment := by
    rw [← map_snd_cells, cells, List.map_append, mark, List.map_map]
    exact congrArg _ List.map_const'
  rw [Scan.tagAt, last, tags, List.getD_eq_getElem?_getD, List.getD_eq_getElem?_getD, List.getElem?_append]
  split_ifs with early
  · rfl
  · rw [List.getElem?_eq_none (by omega : (front.map (·.2)).length ≤ offset.toNat), List.getElem?_replicate]
    split_ifs <;> rfl

end Commented

/-- Lines that are the same up to their comments are read alike. -/
theorem SameFront.reading (sound : carry.Sound) {text other : List Char}
    (same : SameFront (scanLine carry text) (scanLine carry other)) :
    SameReading (scanLine carry text) (scanLine carry other) := by
  obtain rfl | ⟨front, body, more, first, second, last, ends⟩ := same.cases sound
  · exact .refl _
  · refine ⟨rfl, congrArg State.carry last, same.uncommented, ?_, ?_, ?_, _, _, _, ?_, ?_, ?_, blanked_of_cells first,
      blanked_of_cells second⟩
    · funext offset
      rw [tagAt_of_cells first ends, tagAt_of_cells second (last ▸ ends)]
    · rw [brackets_of_cells first, brackets_of_cells second]
    · rw [first_of_cells first, first_of_cells second]
    · exact List.forall_mem_map.2 fun _ _ => rfl
    · exact List.forall_mem_map.2 fun _ _ => rfl
    · simp

end Line

end ArturoInsight.Lexical
