import ArturoInsight.Proofs.Lexical.Runs
import ArturoInsight.Proofs.Text.Readers
import Mathlib.Data.List.DropRight

/-! Cells: the characters of a line, each with its tag. A text whose cells a scan gives may gain and
lose blanks in its code, and blanks at its ends, without a change of any other cell or of the state
that the scan ends in. -/

namespace ArturoInsight.Lexical

open Text

abbrev Cell := Char × Tag

def mark (tag : Tag) (text : List Char) : List Cell := text.map fun c => (c, tag)

@[simp] theorem mark_nil (tag : Tag) : mark tag [] = [] := rfl

@[simp] theorem mark_cons (tag : Tag) (c : Char) (text : List Char) :
    mark tag (c :: text) = (c, tag) :: mark tag text := rfl

@[simp] theorem mark_append (tag : Tag) (first second : List Char) :
    mark tag (first ++ second) = mark tag first ++ mark tag second := List.map_append

@[simp] theorem map_fst_mark (tag : Tag) (text : List Char) : (mark tag text).map (·.1) = text := by
  simp [mark, Function.comp_def]

/-- The scanner gives the cells their tags and goes from one state to the other. -/
def Scans (state : State) (cells : List Cell) (last : State) : Prop :=
  state.run (cells.map (·.1)) = (cells.map (·.2), last)

theorem map_fst_cells (carry : Carry) (text : List Char) : (scanLine carry text).cells.map (·.1) = text :=
  List.map_fst_zip (Nat.le_of_eq (Scan.length_tags_scanLine carry text).symm)

theorem scans_cells_scanLine (carry : Carry) (text : List Char) :
    Scans (.ofCarry carry) (scanLine carry text).cells (scanLine carry text).last := by
  have second : (scanLine carry text).cells.map (·.2) = (scanLine carry text).tags :=
    List.map_snd_zip (Nat.le_of_eq (Scan.length_tags_scanLine carry text))
  rw [Scans, map_fst_cells, second]
  rfl

theorem Scans.unique {state last other : State} {first second : List Cell} (left : Scans state first last)
    (right : Scans state second other) (same : first.map (·.1) = second.map (·.1)) : first = second := by
  rw [Scans, same, right] at left
  have tags : second.map (·.2) = first.map (·.2) := congrArg Prod.fst left
  rw [List.zip_of_prod same tags.symm]
  exact (List.zip_of_prod rfl rfl).symm

theorem Scans.scanLine_eq {carry : Carry} {cells : List Cell} {last : State}
    (scans : Scans (.ofCarry carry) cells last) :
    scanLine carry (cells.map (·.1)) = ⟨cells.map (·.1), carry, cells.map (·.2), last⟩ := by
  rw [scanLine, scans]

theorem cells_scanLine_of_scans {carry : Carry} {cells : List Cell} {last : State}
    (scans : Scans (.ofCarry carry) cells last) :
    (scanLine carry (cells.map (·.1))).cells = cells := by
  rw [scans.scanLine_eq]
  exact (List.zip_of_prod rfl rfl).symm

theorem scans_nil {state last : State} : Scans state [] last ↔ last = state := by
  simp [Scans, State.run, eq_comm]

theorem scans_cons {state last : State} {cell : Cell} {rest : List Cell} :
    Scans state (cell :: rest) last ↔
      (state.step cell.1 (rest.map (·.1)).head?).1 = cell.2 ∧
        Scans (state.step cell.1 (rest.map (·.1)).head?).2 rest last := by
  simp [Scans, State.run_cons, Prod.ext_iff, and_assoc]

def Inert (text : List Char) : Prop := ∀ c ∈ text, endsCode c = false ∧ c ≠ '[' ∧ c ≠ ']'

theorem inert_blanks {gap : List Char} (blanks : Blanks gap) : Inert gap := by
  intro c member
  have blank := blanks c member
  refine ⟨?_, ?_, ?_⟩
  · simp only [endsCode, Bool.or_eq_false_iff, beq_eq_false_iff_ne]
    refine ⟨⟨⟨?_, ?_⟩, ?_⟩, ?_⟩ <;> rintro rfl <;> exact absurd blank (by decide)
  all_goals
    rintro rfl
    exact absurd blank (by decide)

theorem inert_append {first second : List Char} (left : Inert first) (right : Inert second) :
    Inert (first ++ second) := List.forall_mem_append.2 ⟨left, right⟩

theorem step_inert {c : Char} {text : List Char} (inert : Inert text) (member : c ∈ text)
    (depth : Nat) (next : Option Char) :
    State.step ⟨.code, depth⟩ c next = (State.codeTag ⟨.code, depth⟩, ⟨.code, depth⟩) := by
  obtain ⟨plain, opens, closes⟩ := inert c member
  rw [State.step_code plain]
  simp only [codeTagAt, nest, State.codeTag, opens, closes, false_or, if_false]
  split_ifs <;> first | rfl | omega

/-- Inert text leaves the state in code as it is, and its cells have the tag of that state. -/
theorem scans_inert {text : List Char} (inert : Inert text) {depth : Nat} {tag : Tag}
    {rest : List Cell} {last : State} :
    Scans ⟨.code, depth⟩ (mark tag text ++ rest) last ↔
      (text ≠ [] → tag = State.codeTag ⟨.code, depth⟩) ∧ Scans ⟨.code, depth⟩ rest last := by
  induction text with
  | nil => simp
  | cons c text ih =>
    rw [mark_cons, List.cons_append, scans_cons, step_inert inert List.mem_cons_self,
      ih fun d member => inert d (List.mem_cons_of_mem c member)]
    constructor
    · rintro ⟨same, -, scans⟩
      exact ⟨fun _ => same.symm, scans⟩
    · rintro ⟨same, scans⟩
      exact ⟨(same (by simp)).symm, fun _ => same (by simp), scans⟩

/-- What a state in the middle of a line promises: outside code it stands in a string or a comment, and
before the second character of a closing mark that character comes next. -/
structure Fits (state : State) (text : List Char) : Prop where
  form : ∀ tag ∈ state.mode.tag?, tag.isString = true ∨ state.mode = .comment
  closes : ∀ tag, state.mode = .second tag false → ∃ c ∈ text.head?, endsString c = true

theorem not_isBlank_of_endsString {c : Char} (ends : endsString c = true) : isBlank c = false := by
  simp only [endsString, Bool.or_eq_true, beq_iff_eq] at ends
  rcases ends with (rfl | rfl) | rfl <;> decide

theorem Fits.other {state : State} {text : List Char} (fits : Fits state text) {tag : Tag}
    (inside : state.mode.tag? = some tag) : tag.isCode = false :=
  Mode.isCode_eq_false inside (fits.form tag inside)

theorem fits_code (depth : Nat) (text : List Char) : Fits ⟨.code, depth⟩ text := by
  constructor <;> simp [Mode.tag?]

theorem insideNext_second {tag form : Tag} {c : Char} {next : Option Char}
    (closes : State.insideNext tag c next = .second form false) :
    ∃ d ∈ next, endsString d = true := by
  cases tag <;> simp only [State.insideNext] at closes <;> (try split_ifs at closes) <;>
    simp_all <;> decide

theorem Fits.step {state : State} {c : Char} {rest : List Char} (fits : Fits state (c :: rest)) :
    Fits (state.step c rest.head?).2 rest := by
  obtain ⟨mode, depth⟩ := state
  cases mode with
  | code =>
    cases ends : endsCode c with
    | false =>
      rw [State.step_code ends]
      exact fits_code _ _
    | true =>
      obtain ⟨tag, mode, moves, inside, form, opens⟩ := @State.step_mark depth c ends rest.head?
      rw [moves]
      exact ⟨by simpa [inside] using form, fun form closes => absurd closes (opens form)⟩
  | inside tag =>
    have string : tag.isString = true := (fits.form tag rfl).resolve_right (by simp)
    refine ⟨?_, fun form closes => insideNext_second closes⟩
    intro form inside
    obtain ends | stays := State.insideNext_tag? tag c rest.head?
    · simp [State.step, State.enter, ends, Mode.tag?] at inside
    · simp_all [State.step, State.enter]
  | second tag stays =>
    have string : tag.isString = true := (fits.form tag rfl).resolve_right (by simp)
    cases stays
    · exact fits_code _ _
    · exact ⟨by simpa [State.step, State.enter, Mode.tag?] using string, by simp [State.step, State.enter]⟩
  | comment => exact ⟨fits.form, by simp [State.step]⟩

theorem Fits.exists_code {state : State} {text : List Char} {c : Char} {next : Option Char} {tag : Tag}
    (fits : Fits state text) (tagged : (state.step c next).1 = tag) (code : tag.isCode = true) :
    ∃ depth, state = ⟨.code, depth⟩ := by
  cases inside : state.mode.tag? with
  | none =>
    obtain ⟨mode, depth⟩ := state
    cases mode <;> simp_all [Mode.tag?]
  | some form =>
    have other := fits.other inside
    rw [← (State.step_of_tag? inside c next).1, tagged, code] at other
    contradiction

/-- A character tagged as code leaves the scan in code, whatever comes after it. -/
theorem scans_code_cons {state last : State} {c : Char} {tag : Tag} {rest : List Cell}
    (code : tag.isCode = true) (fits : Fits state (c :: rest.map (·.1)))
    (scans : Scans state ((c, tag) :: rest) last) : ∃ depth, Scans ⟨.code, depth⟩ rest last ∧
      ∀ other, Scans ⟨.code, depth⟩ other last → Scans state ((c, tag) :: other) last := by
  rw [scans_cons] at scans
  obtain ⟨tagged, later⟩ := scans
  obtain ⟨depth, rfl⟩ := fits.exists_code tagged code
  cases ends : endsCode c with
  | true =>
    obtain ⟨form, mode, moves, inside, string, -⟩ :=
      @State.step_mark depth c ends (rest.map (·.1)).head?
    rw [moves] at tagged
    have same : form = tag := tagged
    rw [← same, Mode.isCode_eq_false inside string] at code
    contradiction
  | false =>
    simp only [scans_cons, State.step_code ends] at tagged later ⊢
    exact ⟨_, later, fun other scans => ⟨tagged, scans⟩⟩

/-- Inert code stands in one state, and other inert code may stand there as well. -/
theorem scans_inert_code {state last : State} {tag : Tag} {text : List Char} {rest : List Cell}
    (code : tag.isCode = true) (inert : Inert text)
    (fits : Fits state ((mark tag text ++ rest).map (·.1)))
    (there : text = [] → state.mode = .code ∧ state.codeTag = tag)
    (scans : Scans state (mark tag text ++ rest) last) :
    state.mode = .code ∧ state.codeTag = tag ∧ Scans state rest last ∧
      ∀ other more, Inert other → Scans state more last → Scans state (mark tag other ++ more) last := by
  have inside : ∃ depth, state = ⟨.code, depth⟩ ∧ tag = State.codeTag ⟨.code, depth⟩ := by
    cases text with
    | nil =>
      obtain ⟨mode, depth⟩ := state
      obtain ⟨rfl, same⟩ := there rfl
      exact ⟨depth, rfl, same.symm⟩
    | cons c text =>
      obtain ⟨depth, rfl⟩ := fits.exists_code (scans_cons.1 scans).1 code
      exact ⟨depth, rfl, ((scans_inert inert).1 scans).1 (by simp)⟩
  obtain ⟨depth, rfl, same⟩ := inside
  refine ⟨rfl, same.symm, ((scans_inert inert).1 scans).2, fun other more plain later => ?_⟩
  exact (scans_inert plain).2 ⟨fun _ => same, later⟩

section Ends

variable {c : Char} (blank : isBlank c = true)

include blank

theorem insideNext_of_blank (tag : Tag) (next : Option Char) :
    State.insideNext tag c next ≠ .code := by
  have differs : c ≠ '\x22' ∧ c ≠ '\x7d' := by
    constructor <;> rintro rfl <;> exact absurd blank (by decide)
  cases tag <;> simp only [State.insideNext] <;> (try split_ifs) <;> simp_all

theorem step_last_blank {state : State} (fits : Fits state [c])
    (ends : (state.step c none).2.mode = .code ∨ (state.step c none).2.mode = .comment) :
    (state.step c none).2 = state ∧ (state.step c none).1 =
      if state.mode = .comment then .comment else state.codeTag := by
  obtain ⟨mode, depth⟩ := state
  cases mode with
  | code =>
    have inert : Inert [c] := inert_blanks (List.forall_mem_singleton.2 blank)
    rw [step_inert inert List.mem_cons_self]
    simp
  | inside tag =>
    have open_ := insideNext_of_blank blank tag none
    obtain code | tagged := State.insideNext_tag? tag c none
    · exact absurd code open_
    · obtain code | comment := ends
      · exact absurd code open_
      · have within : State.insideNext tag c none = .comment := comment
        cases tag <;> simp only [State.insideNext] at within <;> (try split_ifs at within) <;>
          contradiction
  | second tag stays =>
    cases stays
    · obtain ⟨d, same, solid⟩ := fits.closes tag rfl
      obtain rfl : c = d := by simpa using same
      rw [not_isBlank_of_endsString solid] at blank
      contradiction
    · obtain code | comment := ends <;> contradiction
  | comment => exact ⟨rfl, rfl⟩

end Ends

theorem State.step_of_comment {state : State} {c : Char} {next : Option Char}
    (ends : (state.step c next).2.mode = .comment) (other : Option Char) :
    state.step c other = state.step c next := by
  obtain ⟨mode, depth⟩ := state
  cases mode with
  | code =>
    by_cases semicolon : c = ';'
    · rw [semicolon]
      rfl
    · simp only [step, stepCode, semicolon, if_false, enter] at ends
      split_ifs at ends
  | inside tag =>
    change insideNext tag c next = .comment at ends
    cases tag <;> simp only [insideNext] at ends <;> (try split_ifs at ends) <;> contradiction
  | second tag stays => rfl
  | comment => rfl

theorem scans_of_concat_blank {state last : State} {cells : List Cell} {c : Char} {tag : Tag}
    (fits : Fits state ((cells ++ [(c, tag)]).map (·.1))) (blank : isBlank c = true)
    (ends : last.mode = .code ∨ last.mode = .comment)
    (scans : Scans state (cells ++ [(c, tag)]) last) :
    Scans state cells last ∧ tag = if last.mode = .comment then .comment else last.codeTag := by
  induction cells generalizing state with
  | nil =>
    rw [List.nil_append, scans_cons, scans_nil] at scans
    obtain ⟨tagged, rfl⟩ := scans
    obtain ⟨same, tagged'⟩ := step_last_blank blank fits ends
    refine ⟨scans_nil.2 same, ?_⟩
    change (state.step c none).1 = tag at tagged
    change _ = if (state.step c none).2.mode = .comment then Tag.comment else (state.step c none).2.codeTag
    rw [same, ← tagged, tagged']
  | cons cell rest ih =>
    obtain ⟨d, form⟩ := cell
    rw [List.cons_append, scans_cons] at scans
    obtain ⟨tagged, later⟩ := scans
    have kept := ih (Fits.step fits) later
    refine ⟨?_, kept.2⟩
    have same : state.step d (rest.map (·.1)).head? =
        state.step d ((rest ++ [(c, tag)]).map (·.1)).head? := by
      cases rest with
      | cons next rest => rfl
      | nil =>
        have settled := scans_nil.1 kept.1
        rw [settled] at ends
        obtain code | comment := ends
        · exact State.step_of_code code _
        · exact State.step_of_comment comment _
    rw [scans_cons, same]
    exact ⟨tagged, kept.1⟩

def isBlankCell (cell : Cell) : Bool := isBlank cell.1

theorem map_fst_dropWhile (cells : List Cell) :
    (cells.dropWhile isBlankCell).map (·.1) = trimStart (cells.map (·.1)) := by
  rw [trimStart, List.dropWhile_map]
  rfl

theorem map_fst_rdropWhile (cells : List Cell) :
    (cells.rdropWhile isBlankCell).map (·.1) = trimEnd (cells.map (·.1)) := by
  rw [List.rdropWhile, List.map_reverse, map_fst_dropWhile, trimStart, trimEnd, List.map_reverse]

theorem scans_cons_blank {depth : Nat} {cell : Cell} {rest : List Cell} {last : State}
    (blank : isBlankCell cell = true) (scans : Scans ⟨.code, depth⟩ (cell :: rest) last) :
    cell.2.isCode = true ∧ Scans ⟨.code, depth⟩ rest last := by
  have inert : Inert [cell.1] := inert_blanks (List.forall_mem_singleton.2 blank)
  obtain ⟨tagged, later⟩ := (@scans_inert _ inert _ cell.2 rest last).1 scans
  refine ⟨?_, later⟩
  rw [tagged (List.cons_ne_nil _ _)]
  exact State.codeTag_isCode _

theorem scans_dropWhile {depth : Nat} {cells : List Cell} {last : State}
    (scans : Scans ⟨.code, depth⟩ cells last) :
    Scans ⟨.code, depth⟩ (cells.dropWhile isBlankCell) last := by
  induction cells with
  | nil => exact scans
  | cons cell rest ih =>
    cases blank : isBlankCell cell with
    | false => simpa [blank] using scans
    | true => simpa [blank] using ih (scans_cons_blank blank scans).2

/-- What a text promises its first part does, where no closing mark comes after it. -/
theorem Fits.of_append {state : State} {front rest : List Char} (fits : Fits state (front ++ rest))
    (stops : ∀ c ∈ rest.head?, endsString c = false) : Fits state front := by
  refine ⟨fits.form, fun tag closing => ?_⟩
  obtain ⟨c, head, solid⟩ := fits.closes tag closing
  cases front with
  | nil =>
    rw [stops c head] at solid
    contradiction
  | cons next front => exact ⟨c, head, solid⟩

theorem fits_of_concat_blank {state : State} {cells : List Cell} {cell : Cell}
    (blank : isBlankCell cell = true) (fits : Fits state ((cells ++ [cell]).map (·.1))) :
    Fits state (cells.map (·.1)) := by
  rw [List.map_append] at fits
  apply fits.of_append
  rintro c ⟨rfl⟩
  by_contra closes
  rw [isBlankCell, not_isBlank_of_endsString (by simpa using closes)] at blank
  contradiction

/-- A scan ends within no mark, so that it ends in code or where its last tag says. -/
theorem Scans.fits_last {state last : State} {cells : List Cell} (scans : Scans state cells last)
    (fits : Fits state (cells.map (·.1))) : Fits last [] := by
  induction cells generalizing state with
  | nil => rwa [scans_nil.1 scans]
  | cons cell rest ih => exact ih (scans_cons.1 scans).2 fits.step

theorem Fits.mode_of_endTag {last : State} (fits : Fits last []) (code : last.endTag.isCode = true) :
    last.mode = .code := by
  rw [State.endTag] at code
  cases mode : last.mode with
  | code => rfl
  | inside tag =>
    have other : tag.isCode = false := fits.other (by rw [mode]; rfl)
    simp [mode, other] at code
  | second tag stays =>
    cases stays
    · simpa using fits.closes tag mode
    · have other : tag.isCode = false := fits.other (by rw [mode]; rfl)
      simp [mode, other] at code
  | comment => simp [mode, Tag.isCode] at code

theorem scans_rdropWhile {drops : Cell → Bool} (blank : ∀ cell, drops cell = true → isBlankCell cell = true)
    {state last : State} {cells : List Cell} (fits : Fits state (cells.map (·.1)))
    (ends : last.mode = .code ∨ last.mode = .comment) (scans : Scans state cells last) :
    Scans state (cells.rdropWhile drops) last := by
  induction cells using List.reverseRecOn with
  | nil => exact scans
  | append_singleton cells cell ih =>
    cases dropped : drops cell with
    | false => simpa [List.rdropWhile_concat, dropped] using scans
    | true =>
      have kept := (scans_of_concat_blank fits (blank cell dropped) ends scans).1
      simpa [List.rdropWhile_concat, dropped] using ih (fits_of_concat_blank (blank cell dropped) fits) kept

end ArturoInsight.Lexical
