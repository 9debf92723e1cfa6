import ArturoInsight.Proofs.Lexical.Cells
import Mathlib.Tactic.SplitIfs

/-! Stretches of code that neither open nor end anything may be exchanged: every other cell of the line and
the state at its end stay as they are. -/

namespace ArturoInsight.Lexical

/-- The strings that a line can start in. -/
def Carry.Sound (carry : Carry) : Prop := ∀ tag ∈ carry.active?, tag.isString = true

theorem Carry.sound_none : Carry.none.Sound := by
  simp [Sound, none, active?]

theorem Tag.isString_of_isMultiline {tag : Tag} (multiline : tag.isMultiline = true) :
    tag.isString = true := by
  cases tag <;> first | rfl | contradiction

theorem Carry.sound_within {tag : Tag} {stays : Bool} (multiline : stays = true → tag.isMultiline = true) :
    (if stays then within tag else none).Sound := by
  split_ifs with kept
  · simpa [Sound, within, active?] using Tag.isString_of_isMultiline (multiline kept)
  · exact sound_none

theorem State.sound_carry (state : State) : state.carry.Sound := by
  obtain ⟨mode, depth⟩ := state
  cases mode with
  | code => exact Carry.sound_none
  | comment => exact Carry.sound_none
  | inside tag => exact Carry.sound_within id
  | second tag stays => exact Carry.sound_within fun both => (Bool.and_eq_true_iff.1 both).2

theorem State.ofCarry_of_closed {carry : Carry} (closed : carry.inString = false) :
    State.ofCarry carry = ⟨.code, 0⟩ := by
  rw [ofCarry, Carry.active?, closed]
  rfl

theorem State.mode_ofCarry (carry : Carry) : (State.ofCarry carry).mode ≠ .comment := by
  rw [State.ofCarry]
  split <;> simp

theorem Carry.Sound.fits {carry : Carry} (sound : carry.Sound) (text : List Char) :
    Fits (.ofCarry carry) text := by
  cases active : carry.active? with
  | none =>
    rw [State.ofCarry, active]
    exact fits_code 0 text
  | some tag =>
    rw [State.ofCarry, active]
    exact ⟨by simp [Mode.tag?, sound tag active], by simp⟩

/-- Every line of a document starts in such a string or in code. -/
theorem exists_sound_scanLine {carry : Carry} (sound : carry.Sound) {texts : List (List Char)} {scan : Scan}
    (member : scan ∈ scanFrom carry texts) :
    ∃ carry text, carry.Sound ∧ text ∈ texts ∧ scan = scanLine carry text := by
  induction texts generalizing carry with
  | nil => contradiction
  | cons text rest ih =>
    obtain rfl | later := List.mem_cons.1 member
    · exact ⟨carry, text, sound, List.mem_cons_self, rfl⟩
    · obtain ⟨carry, text, sound, inside, rfl⟩ := ih (State.sound_carry _) later
      exact ⟨carry, text, sound, List.mem_cons_of_mem _ inside, rfl⟩

def isAwaited (c : Char) : Bool := c == '!' || c == ':' || c == '\x7d' || c == '«' || c == '»'

theorem step_at_end {c : Char} (plain : isAwaited c = false) (state : State) (first : Char) :
    state.step first (some c) = state.step first none := by
  simp only [isAwaited, Bool.or_eq_false_iff, beq_eq_false_iff_ne] at plain
  obtain ⟨mode, depth⟩ := state
  cases mode with
  | code => simp [State.step, State.stepCode, plain]
  | inside tag => cases tag <;> simp [State.step, State.insideNext, plain]
  | second tag stays => rfl
  | comment => rfl

theorem step_unawaited {c d : Char} (plain : isAwaited c = false) (other : isAwaited d = false)
    (state : State) (first : Char) : state.step first (some c) = state.step first (some d) := by
  rw [step_at_end plain, step_at_end other]

/-- A scan reaches some state in the middle, and goes on from there alike with any other text that the
character before it does not tell apart. -/
theorem Scans.exists_middle {state last : State} {front rest : List Cell}
    (fits : Fits state ((front ++ rest).map (·.1))) (scans : Scans state (front ++ rest) last) :
    ∃ middle, Fits middle (rest.map (·.1)) ∧ Scans middle rest last ∧ ∀ other ends,
      (∀ state c, State.step state c (other.map (·.1)).head? = State.step state c (rest.map (·.1)).head?) →
        Scans middle other ends → Scans state (front ++ other) ends := by
  induction front generalizing state with
  | nil => exact ⟨state, fits, scans, fun _ _ _ later => later⟩
  | cons cell front ih =>
    rw [List.cons_append, scans_cons] at scans
    obtain ⟨middle, fits, later, swaps⟩ := ih (Fits.step fits) scans.2
    refine ⟨middle, fits, later, fun other ends alike more => ?_⟩
    have next : State.step state cell.1 ((front ++ other).map (·.1)).head? =
        State.step state cell.1 ((front ++ rest).map (·.1)).head? := by
      cases front with
      | nil => exact alike state cell.1
      | cons next front => rfl
    rw [List.cons_append, scans_cons, next]
    exact ⟨scans.1, swaps other ends alike more⟩

theorem Scans.exists_mark {depth : Nat} {cells : List Cell} {last : State} {word back : List Char}
    (inert : Inert word) (text : cells.map (·.1) = word ++ back) (scans : Scans ⟨.code, depth⟩ cells last) :
    ∃ rest, cells = mark (State.codeTag ⟨.code, depth⟩) word ++ rest := by
  induction word generalizing cells with
  | nil => exact ⟨cells, rfl⟩
  | cons c word ih =>
    obtain ⟨cell, more, rfl, rfl, later⟩ := List.map_eq_cons_iff.1 text
    rw [scans_cons, step_inert inert List.mem_cons_self] at scans
    obtain ⟨rest, rfl⟩ := ih (fun d member => inert d (List.mem_cons_of_mem _ member)) later scans.2
    have tagged : State.codeTag ⟨.code, depth⟩ = cell.2 := scans.1
    exact ⟨rest, by rw [mark_cons, List.cons_append, tagged]⟩

theorem Scans.mark_prefix {state last : State} {cells : List Cell} (fits : Fits state (cells.map (·.1)))
    (scans : Scans state cells last) {column : Nat} {word back : List Char} (inert : Inert word)
    (text : (cells.drop column).map (·.1) = word ++ back) {c : Char} {tag : Tag}
    (here : cells[column]? = some (c, tag)) (code : tag.isCode = true) :
    mark tag word <+: cells.drop column := by
  rw [← List.take_append_drop column cells] at fits scans
  obtain ⟨middle, fits, scans, -⟩ := scans.exists_middle fits
  have whole : cells.drop column = (c, tag) :: cells.drop (column + 1) := by
    obtain ⟨inside, same⟩ := List.getElem?_eq_some_iff.1 here
    rw [← same, ← List.drop_eq_getElem_cons]
  have first := scans
  rw [whole, scans_cons] at first
  rw [whole] at fits
  obtain ⟨depth, rfl⟩ := fits.exists_code first.1 code
  obtain ⟨rest, same⟩ := scans.exists_mark inert text
  cases word with
  | nil => exact List.nil_prefix
  | cons d word =>
    have tagged : State.codeTag ⟨.code, depth⟩ = tag := by
      rw [whole, mark_cons, List.cons_append] at same
      exact (congrArg Prod.snd (List.cons.inj same).1).symm
    rw [same, tagged]
    exact List.prefix_append _ _

end ArturoInsight.Lexical
