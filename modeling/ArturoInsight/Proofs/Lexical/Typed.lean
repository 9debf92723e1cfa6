import ArturoInsight.Proofs.Lexical.WellFormed

/-! Words typed at the end of a line. A line never ends in the middle of a mark that closes a string, and no character
of a word is one that a step looks ahead for, so that a word takes the tag of the end and leaves the end as it is. -/

namespace ArturoInsight.Lexical

open Text

/-- Two states that a line may end in and that nothing said of its end tells apart. -/
structure SameEnd (left right : State) : Prop where
  endTag : left.endTag = right.endTag
  carry : left.carry = right.carry
  depth : left.depth = right.depth
  comment : left.mode = .comment ↔ right.mode = .comment

theorem SameEnd.refl (state : State) : SameEnd state state := ⟨rfl, rfl, rfl, Iff.rfl⟩

theorem SameEnd.trans {first second third : State} (left : SameEnd first second) (right : SameEnd second third) :
    SameEnd first third where
  endTag := left.endTag.trans right.endTag
  carry := left.carry.trans right.carry
  depth := left.depth.trans right.depth
  comment := left.comment.trans right.comment

theorem isAwaited_of_isWordy {c : Char} (wordy : isWordy c = true) : isAwaited c = false := by
  simp only [isAwaited, Bool.or_eq_false_iff, beq_eq_false_iff_ne]
  refine ⟨⟨⟨⟨?_, ?_⟩, ?_⟩, ?_⟩, ?_⟩ <;> rintro rfl <;> exact absurd wordy (by decide)

theorem inert_of_isWordy {word : List Char} (wordy : ∀ c ∈ word, isWordy c = true) : Inert word := by
  intro c member
  refine ⟨(not_ends_of_isWordy (wordy c member)).1, ?_, ?_⟩ <;> rintro rfl <;>
    exact absurd (wordy _ member) (by decide)

theorem State.insideNext_wordy {c : Char} (wordy : isWordy c = true) (tag : Tag) (next : Option Char) :
    insideNext tag c next = .inside tag := by
  have plain := (not_ends_of_isWordy wordy).2
  simp only [endsString, Bool.or_eq_false_iff, beq_eq_false_iff_ne] at plain
  have slash : c ≠ '\\' := by
    rintro rfl
    exact absurd wordy (by decide)
  have colon : c ≠ ':' := by
    rintro rfl
    exact absurd wordy (by decide)
  cases tag <;> simp [insideNext, plain, slash, colon]

theorem State.step_wordy {state : State} {c : Char} (ends : Fits state []) (wordy : isWordy c = true)
    (next : Option Char) :
    (state.step c next).1 = state.endTag ∧ SameEnd state (state.step c next).2 ∧ Fits (state.step c next).2 [] := by
  obtain ⟨mode, depth⟩ := state
  cases mode with
  | code =>
    rw [step_inert (inert_of_isWordy (List.forall_mem_singleton.2 wordy)) (List.mem_singleton_self c)]
    exact ⟨rfl, .refl _, ends⟩
  | inside tag =>
    simp only [step, insideNext_wordy wordy]
    exact ⟨rfl, .refl _, ends⟩
  | second tag stays =>
    cases stays with
    | false =>
      obtain ⟨d, none, -⟩ := ends.closes tag rfl
      contradiction
    | true =>
      have string : tag.isString = true := (ends.form tag rfl).resolve_right (by simp)
      refine ⟨rfl, ⟨rfl, ?_, rfl, ?_⟩, ?_, ?_⟩
      · simp [step, enter, carry]
      · simp [step, enter]
      · simpa [step, enter, Mode.tag?] using string
      · simp [step, enter]
  | comment => exact ⟨rfl, .refl _, ends⟩

theorem State.run_wordy {state : State} {word : List Char} (ends : Fits state [])
    (wordy : ∀ c ∈ word, isWordy c = true) :
    (state.run word).1 = List.replicate word.length state.endTag ∧ SameEnd state (state.run word).2 := by
  induction word generalizing state with
  | nil => exact ⟨rfl, .refl _⟩
  | cons c word ih =>
    obtain ⟨here, later⟩ := List.forall_mem_cons.1 wordy
    obtain ⟨tagged, same, ends⟩ := step_wordy ends here word.head?
    obtain ⟨tags, after⟩ := ih ends later
    rw [run_cons, tagged, tags, ← same.endTag]
    exact ⟨rfl, same.trans after⟩

theorem State.run_append_of_isAwaited {state : State} {first second : List Char}
    (plain : ∀ c ∈ second.head?, isAwaited c = false) :
    state.run (first ++ second) =
      ((state.run first).1 ++ ((state.run first).2.run second).1, ((state.run first).2.run second).2) := by
  induction first generalizing state with
  | nil => rfl
  | cons c rest ih =>
    have same : state.step c (rest ++ second).head? = state.step c rest.head? := by
      cases rest with
      | nil =>
        cases second with
        | nil => rfl
        | cons d second => exact step_at_end (plain d rfl) state c
      | cons d more => rfl
    rw [List.cons_append, run_cons, run_cons, same, ih]
    rfl

theorem length_takeWhile_replicate (tags : List Tag) (count : Nat) :
    ((tags ++ List.replicate count Tag.comment).takeWhile (· != Tag.comment)).length =
      (tags.takeWhile (· != Tag.comment)).length := by
  rw [List.takeWhile_append]
  split_ifs with all
  · cases count <;> simp [List.replicate_succ, all]
  · rfl

/-- The end of a line tells what a word typed there is: the word has the tag of the end, every other tag stays, and so
do the end, what is carried over it, the start of the comment and the count of open brackets. -/
theorem scanLine_append_word {carry : Carry} (sound : carry.Sound) (line : List Char) {word : List Char}
    (wordy : ∀ c ∈ word, isWordy c = true) :
    let before := scanLine carry line
    let after := scanLine carry (line ++ word)
    after.tags = before.tags ++ List.replicate word.length before.endTag ∧ after.endTag = before.endTag ∧
      after.carryOut = before.carryOut ∧ after.commentStart = before.commentStart ∧ after.depth = before.depth := by
  intro before after
  have ends : Fits before.last [] := by
    refine (scans_cells_scanLine carry line).fits_last ?_
    rw [map_fst_cells]
    exact sound.fits line
  obtain ⟨tags, same⟩ := State.run_wordy ends wordy
  have whole : (State.ofCarry carry).run (line ++ word) =
      (before.tags ++ (before.last.run word).1, (before.last.run word).2) :=
    State.run_append_of_isAwaited fun c first => isAwaited_of_isWordy (wordy c (List.mem_of_mem_head? first))
  have tagged : after.tags = before.tags ++ List.replicate word.length before.endTag :=
    (congrArg Prod.fst whole).trans (congrArg (before.tags ++ ·) tags)
  have moved : after.last = ((State.ofCarry carry).run (line ++ word)).2 := rfl
  have last : SameEnd before.last after.last := by rwa [moved, whole]
  refine ⟨tagged, last.endTag.symm, last.carry.symm, ?_, last.depth.symm⟩
  unfold Scan.commentStart
  by_cases comment : before.last.mode = .comment
  · have endTag : before.endTag = .comment := by rw [Scan.endTag, State.endTag, comment]
    rw [if_pos comment, if_pos (last.comment.1 comment), tagged, endTag, length_takeWhile_replicate]
  · rw [if_neg comment, if_neg (mt last.comment.2 comment)]

/-- Half an escape, half a mark that would close the string, and a mark that another character would change. -/
theorem scanLine_append_word_marks :
    (scanLine (.within .verbatim) "a:\x7d \"b\\".toList).endTag = .quoted ∧
      (scanLine (.within .verbatim) "a:\x7d \"b\\n1".toList).tags =
        (scanLine (.within .verbatim) "a:\x7d \"b\\".toList).tags ++ List.replicate 2 .quoted := by
  have sound : (Carry.within .verbatim).Sound := by simp [Carry.Sound, Carry.within, Carry.active?, Tag.isString]
  have wordy : ∀ c ∈ "n1".toList, isWordy c = true := by decide
  have typed := scanLine_append_word sound "a:\x7d \"b\\".toList wordy
  have endTag : (scanLine (.within .verbatim) "a:\x7d \"b\\".toList).endTag = .quoted := by decide
  exact ⟨endTag, endTag ▸ typed.1⟩

end ArturoInsight.Lexical
