import ArturoInsight.Proofs.Lexical.SameFront
import ArturoInsight.Proofs.Text.Lines

/-! A text without its comments. No opening, no escape and no closing mark goes with a comment, so that what is left of
a line scans as it did before, and the lines after it start in the string state that they started in. -/

namespace ArturoInsight.Lexical

open Text

/-- A line and what is left of it without its comment, and without the carriage returns that then end it. -/
structure Stripped (old new : Scan) : Prop where
  carryIn : new.carryIn = old.carryIn
  carryOut : new.carryOut = old.carryOut
  commentStart : new.commentStart = none
  text : ∃ returns, (∀ c ∈ returns, c = '\r') ∧ old.uncommented = new.text ++ returns
  tags : new.tags <+: old.tags
  length : new.tags.length = new.text.length

theorem Scans.before_comment {state last : State} {front rest : List Cell}
    (scans : Scans state (front ++ (';', .comment) :: rest) last)
    (fits : Fits state ((front ++ (';', .comment) :: rest).map (·.1))) (starts : state.mode ≠ .comment)
    (shown : ∀ cell ∈ front, cell.2 ≠ .comment) : ∃ depth, Scans state front ⟨.code, depth⟩ := by
  obtain ⟨middle, promised, later, swaps⟩ := scans.exists_middle fits
  have before : Scans state front middle := by
    have ended := swaps [] middle (fun state c => (step_at_end (by decide) state c).symm) (scans_nil.2 rfl)
    rwa [List.append_nil] at ended
  have outside : middle.mode ≠ .comment := by
    intro inside
    rw [List.map_append] at fits
    have opened : Fits state (front.map (·.1)) := fits.of_append (by rintro c ⟨rfl⟩; decide)
    obtain ⟨prior, more, rfl, -⟩ := before.exists_comment opened starts inside
    exact shown (';', .comment) (by simp) rfl
  have tagged := (scans_cons.1 later).1
  cases inside : middle.mode.tag? with
  | none =>
    obtain ⟨mode, depth⟩ := middle
    cases mode with
    | code => exact ⟨depth, before⟩
    | inside tag | second tag stays | comment => contradiction
  | some tag =>
    obtain rfl : tag = .comment := (State.step_of_tag? inside _ _).1.symm.trans tagged
    exact absurd ((promised.form .comment inside).resolve_left (by decide)) outside

section Line

variable {carry : Carry} {text : List Char} {front : List Cell} {depth : Nat}

theorem Scans.stripped (before : Scans (.ofCarry carry) front ⟨.code, depth⟩)
    (fits : Fits (.ofCarry carry) (front.map (·.1))) :
    ∃ returns, (∀ c ∈ returns, c = '\r') ∧ front.map (·.1) = dropReturns (front.map (·.1)) ++ returns ∧
      (scanLine carry (dropReturns (front.map (·.1)))).last = ⟨.code, depth⟩ ∧
      (scanLine carry (dropReturns (front.map (·.1)))).tags <+: front.map (·.2) := by
  have blank : ∀ cell : Cell, (cell.1 == '\r') = true → isBlankCell cell = true := by
    rintro ⟨c, tag⟩ same
    obtain rfl : c = '\r' := by simpa using same
    rfl
  have kept := scans_rdropWhile blank fits (.inl rfl) before
  have text : (front.rdropWhile (·.1 == '\r')).map (·.1) = dropReturns (front.map (·.1)) := by
    rw [dropReturns, ← List.map_reverse, List.dropWhile_map, List.rdropWhile, List.map_reverse]
    rfl
  have line := kept.scanLine_eq
  rw [text] at line
  rw [line]
  refine ⟨(front.map (·.1)).rtakeWhile (· == '\r'), fun c member => ?_, ?_, rfl, ?_⟩
  · simpa using List.mem_rtakeWhile_imp member
  · exact (List.rdropWhile_append_rtakeWhile).symm
  · exact (List.rdropWhile_prefix _ _).map _

theorem stripped_scanLine (sound : carry.Sound) (whole : IsLine text) :
    Stripped (scanLine carry text) (scanLine carry (dropReturns (scanLine carry text).uncommented)) := by
  obtain ⟨uncommented, same⟩ | ⟨start, front, body, found, cells, before, shown⟩ := sound.commented text
  · rw [same, dropReturns_eq_self whole.returns]
    exact ⟨rfl, rfl, uncommented, ⟨[], List.forall_mem_nil _, by rw [same, Scan.text_scanLine, List.append_nil]⟩,
      List.prefix_rfl, Scan.length_tags_scanLine carry text⟩
  · have scans := scans_cells_scanLine carry text
    have fits : Fits (.ofCarry carry) ((scanLine carry text).cells.map (·.1)) := sound.fits _
    rw [cells, mark_cons] at scans fits
    obtain ⟨depth, code⟩ := scans.before_comment fits (State.mode_ofCarry carry) shown
    obtain ⟨returns, all, ended, last, tags⟩ := code.stripped (sound.fits _)
    have carried : (scanLine carry text).carryOut = .none := by
      rw [Scan.carryOut, State.carry, mode_of_commentStart found]
    rw [before]
    refine ⟨rfl, ?_, ?_, ⟨returns, all, before.trans ended⟩, tags.trans ?_, Scan.length_tags_scanLine carry _⟩
    · rw [carried, Scan.carryOut, last]
      rfl
    · rw [Scan.commentStart, last]
      rfl
    · rw [← map_snd_cells, cells, List.map_append]
      exact List.prefix_append _ _

end Line

theorem stripped_scanFrom {carry : Carry} (sound : carry.Sound) {texts : List (List Char)}
    (whole : ∀ text ∈ texts, IsLine text) : List.Forall₂ Stripped (scanFrom carry texts)
      (scanFrom carry ((scanFrom carry texts).map fun scan => dropReturns scan.uncommented)) := by
  induction texts generalizing carry with
  | nil => exact .nil
  | cons text rest ih =>
    obtain ⟨here, later⟩ := List.forall_mem_cons.1 whole
    have first := stripped_scanLine sound here
    refine .cons first ?_
    rw [first.carryOut]
    exact ih (State.sound_carry _) later

theorem lines_stripComments (text : List Char) :
    lines (stripComments text) = (scanText text).map fun scan => dropReturns scan.uncommented := by
  have some_ : (scanText text).map Scan.uncommented ≠ [] := by
    have lines : 0 < (lines text).length := List.length_pos_iff.2 (lines_ne_nil text)
    rw [← List.length_pos_iff, List.length_map, scanText, scanLines, length_scanFrom]
    exact lines
  have whole : ∀ line ∈ (scanText text).map Scan.uncommented, '\n' ∉ line := by
    intro line member feed
    obtain ⟨scan, inside, rfl⟩ := List.mem_map.1 member
    obtain ⟨carry, text, -, within, rfl⟩ := exists_sound_scanLine Carry.sound_none inside
    have start := uncommented_prefix (scanLine carry text)
    exact (isLine_of_mem_lines within).feeds (start.subset feed)
  rw [lines, stripComments, pieces_joinLines some_ whole, List.map_map]
  rfl

theorem stripped_stripComments (text : List Char) :
    List.Forall₂ Stripped (scanText text) (scanText (stripComments text)) := by
  rw [scanText, scanText, lines_stripComments]
  exact stripped_scanFrom Carry.sound_none fun line => isLine_of_mem_lines

end ArturoInsight.Lexical
