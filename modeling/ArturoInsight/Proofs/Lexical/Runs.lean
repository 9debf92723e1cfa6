import ArturoInsight.Lexical.Scan
import Mathlib.Tactic.SplitIfs

/-! Runs of the scanner over a text in parts. A step that ends in code has not looked ahead, so a
run that ends in code does not depend on what follows it. -/

namespace ArturoInsight.Lexical

/-- A semicolon starts a comment; a brace, a double quote and a guillemet start strings. -/
def endsCode (c : Char) : Bool := c == ';' || c == '\x7b' || c == '\x22' || c == '«'

/-- A double quote, a brace or a guillemet ends a string, or is the second character of a mark that does. -/
def endsString (c : Char) : Bool := c == '\x22' || c == '\x7d' || c == '»'

def nest (depth : Nat) (c : Char) : Nat :=
  if c = '[' then depth + 1 else if c = ']' then depth - 1 else depth

def codeTagAt (depth : Nat) (c : Char) : Tag := if c = '[' ∨ 0 < depth then .block else .code

theorem codeTagAt_isCode (depth : Nat) (c : Char) : (codeTagAt depth c).isCode = true := by
  unfold codeTagAt
  split_ifs <;> rfl

theorem State.codeTag_isCode (state : State) : state.codeTag.isCode = true := by
  unfold codeTag
  split_ifs <;> rfl

def Mode.tag? : Mode → Option Tag
  | .code => none
  | .inside tag | .second tag _ => some tag
  | .comment => some .comment

theorem Mode.isCode_eq_false {mode : Mode} {tag : Tag} (inside : mode.tag? = some tag)
    (form : tag.isString = true ∨ mode = .comment) : tag.isCode = false := by
  obtain string | rfl := form
  · exact Tag.isCode_eq_false_of_isString string
  · obtain rfl : Tag.comment = tag := by simpa [tag?] using inside
    rfl

theorem Mode.tag?_eq_none {mode : Mode} : mode.tag? = none ↔ mode = .code := by
  cases mode <;> simp [tag?]

namespace State

theorem run_cons (state : State) (c : Char) (rest : List Char) :
    state.run (c :: rest) =
      ((state.step c rest.head?).1 :: ((state.step c rest.head?).2.run rest).1,
        ((state.step c rest.head?).2.run rest).2) := rfl

theorem step_code {depth : Nat} {c : Char} (plain : endsCode c = false) (next : Option Char) :
    State.step ⟨.code, depth⟩ c next = (codeTagAt depth c, ⟨.code, nest depth c⟩) := by
  simp only [endsCode, Bool.or_eq_false_iff, beq_eq_false_iff_ne] at plain
  simp only [step, stepCode, codeTag, codeTagAt, nest, plain, if_false]
  by_cases opened : c = '['
  · simp [opened]
  · by_cases closed : c = ']' <;> by_cases zero : depth = 0 <;>
      simp_all [Nat.pos_iff_ne_zero]

/-- The four marks leave code for a mode with their own tag. -/
theorem step_mark {depth : Nat} {c : Char} (mark : endsCode c = true) (next : Option Char) :
    ∃ tag mode, State.step ⟨.code, depth⟩ c next = (tag, ⟨mode, depth⟩) ∧
      mode.tag? = some tag ∧ (tag.isString = true ∨ mode = .comment) ∧ ∀ form, mode ≠ .second form false := by
  simp only [endsCode, Bool.or_eq_true, beq_iff_eq] at mark
  rcases mark with ((rfl | rfl) | rfl) | rfl
  · exact ⟨_, _, rfl, rfl, by simp [Tag.isString], by simp⟩
  · by_cases bang : next = some '!'
    · exact ⟨.embedded, .second .embedded true, by simp [step, stepCode, enter, bang], rfl, .inl rfl, by simp⟩
    · by_cases colon : next = some ':'
      · exact ⟨.verbatim, .second .verbatim true, by simp [step, stepCode, enter, colon], rfl, .inl rfl, by simp⟩
      · exact ⟨.curly, .inside .curly, by simp [step, stepCode, enter, bang, colon], rfl, .inl rfl, by simp⟩
  · exact ⟨_, _, rfl, rfl, by simp [Tag.isString], by simp⟩
  · by_cases doubled : next = some '«'
    · exact ⟨.guillemets, .second .guillemets true, by simp [step, stepCode, enter, doubled], rfl, .inl rfl, by simp⟩
    · exact ⟨.guillemet, .inside .guillemet, by simp [step, stepCode, enter, doubled], rfl, .inl rfl, by simp⟩

theorem insideNext_of_code {tag : Tag} {c : Char} {next : Option Char}
    (ends : insideNext tag c next = .code) (other : Option Char) :
    insideNext tag c other = .code := by
  cases tag <;> simp only [insideNext, reduceCtorEq] at ends ⊢ <;>
    split_ifs at ends ⊢ <;> rfl

theorem insideNext_tag? (tag : Tag) (c : Char) (next : Option Char) :
    insideNext tag c next = .code ∨ (insideNext tag c next).tag? = some tag := by
  cases tag <;> simp only [insideNext] <;> (try split_ifs) <;> simp [Mode.tag?]

/-- What a step outside code does: the tag is that of the mode, and the mode keeps it or ends. -/
theorem step_of_tag? {state : State} {tag : Tag} (inside : state.mode.tag? = some tag) (c : Char)
    (next : Option Char) : (state.step c next).1 = tag ∧
      ((state.step c next).2.mode = .code ∨ (state.step c next).2.mode.tag? = some tag) ∧
      (state.step c next).2.depth = state.depth := by
  obtain ⟨mode, depth⟩ := state
  cases mode with
  | code => simp [Mode.tag?] at inside
  | inside form =>
    obtain rfl : form = tag := by simpa [Mode.tag?] using inside
    exact ⟨rfl, insideNext_tag? form c next, rfl⟩
  | second form stays =>
    obtain rfl : form = tag := by simpa [Mode.tag?] using inside
    cases stays <;> simp [step, enter, Mode.tag?]
  | comment =>
    obtain rfl : Tag.comment = tag := by simpa [Mode.tag?] using inside
    exact ⟨rfl, .inr rfl, rfl⟩

theorem step_fst_of_tag? {state : State} {c : Char} {next : Option Char} {tag : Tag}
    (inside : (state.step c next).2.mode.tag? = some tag) : (state.step c next).1 = tag := by
  cases before : state.mode.tag? with
  | none =>
    obtain ⟨mode, depth⟩ := state
    obtain rfl := Mode.tag?_eq_none.1 before
    cases ends : endsCode c with
    | false =>
      rw [step_code ends] at inside
      simp [Mode.tag?] at inside
    | true =>
      obtain ⟨form, mode, moves, same, -⟩ := @step_mark depth c ends next
      rw [moves] at inside ⊢
      exact Option.some.inj (same.symm.trans inside)
  | some form =>
    obtain ⟨tagged, ends | stays, -⟩ := step_of_tag? before c next
    · simp [ends, Mode.tag?] at inside
    · exact tagged.trans (Option.some.inj (stays.symm.trans inside))

theorem step_of_code {state : State} {c : Char} {next : Option Char}
    (ends : (state.step c next).2.mode = .code) (other : Option Char) :
    state.step c other = state.step c next := by
  obtain ⟨mode, depth⟩ := state
  cases mode with
  | code =>
    cases mark : endsCode c with
    | false => rw [step_code mark, step_code mark]
    | true =>
      obtain ⟨tag, mode, moved, inside, -⟩ := @step_mark depth c mark next
      rw [moved] at ends
      simp_all [Mode.tag?]
  | inside tag =>
    have closes : insideNext tag c next = .code := ends
    simp only [step, closes, insideNext_of_code closes other]
  | second tag stays => rfl
  | comment => rfl

theorem run_append {state : State} {first : List Char} (ends : (state.run first).2.mode = .code)
    (second : List Char) :
    state.run (first ++ second) =
      ((state.run first).1 ++ ((state.run first).2.run second).1,
        ((state.run first).2.run second).2) := by
  induction first generalizing state with
  | nil => rfl
  | cons c rest ih =>
    rw [run_cons] at ends
    have same : state.step c (rest ++ second).head? = state.step c rest.head? := by
      cases rest with
      | nil => exact step_of_code ends _
      | cons d more => rfl
    rw [List.cons_append, run_cons, run_cons, same, ih ends]
    rfl

end State

end ArturoInsight.Lexical
