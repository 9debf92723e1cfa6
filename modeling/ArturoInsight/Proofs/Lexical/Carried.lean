import ArturoInsight.Proofs.Lexical.Grammar
import ArturoInsight.Proofs.Lexical.WellFormed
import Mathlib.Data.Nat.Find

/-! Strings over the end of a line. A line ends in a string if it opens there and is not closed, or if it was open
before and its closing mark is not on the line. -/

namespace ArturoInsight.Lexical

def Tag.opening : Tag → List Char
  | .verbatim => ['\x7b', ':']
  | .embedded => ['\x7b', '!']
  | .guillemets => ['«', '«']
  | _ => []

/-- The mark that closes a form over several lines, wherever it stands. -/
def Tag.closing : Tag → List Char
  | .verbatim => [':', '\x7d']
  | .embedded => ['\x7d']
  | .guillemets => ['»', '»']
  | _ => []

/-- A string of the form opens in the code of a line and is not closed on the line. -/
def Scan.Opens (scan : Scan) (form : Tag) : Prop :=
  ∃ front body, scan.text = front ++ (form.opening ++ body) ∧
    ((State.ofCarry scan.carryIn).run front).2.mode = .code ∧ ¬ form.closing <:+: body

@[simp] theorem Carry.none_eq_within (form : Tag) : Carry.none = .within form ↔ False := by simp [none, within]

@[simp] theorem Carry.within_eq_within (form other : Tag) : Carry.within form = .within other ↔ form = other := by
  simp [within]

theorem Carry.eq_within_of_active {carry : Carry} {tag : Tag} (active : carry.active? = some tag) :
    carry = .within tag := by
  obtain ⟨inside, form⟩ := carry
  obtain ⟨rfl, rfl⟩ : inside = true ∧ form = some tag := by simpa [active?] using active
  rfl

theorem exists_first_mark {mark text : List Char} (some : mark ≠ []) (found : mark <:+: text) :
    ∃ body rest, text = body ++ mark ++ rest ∧ ¬ mark <:+: body ++ mark.dropLast := by
  induction text using List.reverseRecOn with
  | nil => exact absurd (List.infix_nil.1 found) some
  | append_singleton text c ih =>
    by_cases earlier : mark <:+: text
    · obtain ⟨body, rest, rfl, first⟩ := ih earlier
      exact ⟨body, rest ++ [c], by simp, first⟩
    · obtain ⟨body, whole⟩ := (List.infix_concat_iff.1 found).resolve_right earlier
      refine ⟨body, [], by rw [List.append_nil, whole], ?_⟩
      have front : body ++ mark.dropLast = text := by
        rw [← List.dropLast_append_of_ne_nil some, whole, List.dropLast_concat]
      rwa [front]

section Forms

variable {form : Tag} (multiline : form.isMultiline = true) (depth : Nat)

include multiline

theorem Tag.closing_ne_nil : form.closing ≠ [] := by
  cases form <;> first | contradiction | exact List.cons_ne_nil _ _

theorem State.run_opening (body : List Char) : (State.run ⟨.code, depth⟩ (form.opening ++ body)).2 =
    (State.run ⟨.inside form, depth⟩ body).2 := by
  cases form <;> first | contradiction | rfl

theorem State.run_unclosed {body : List Char} (unclosed : ¬ form.closing <:+: body) :
    (State.run ⟨.inside form, depth⟩ body).2 = ⟨.inside form, depth⟩ := by
  rw [← List.append_nil body]
  cases form with
  | embedded =>
    rw [Tag.closing, List.singleton_infix_iff] at unclosed
    rw [run_braced (.inr rfl) unclosed]
    rfl
  | verbatim =>
    rw [run_verbatim unclosed (by simp)]
    rfl
  | guillemets =>
    rw [run_guillemets (by simpa [Tag.closing] using unclosed)]
    rfl
  | _ => contradiction

theorem State.run_closing {body : List Char} (first : ¬ form.closing <:+: body ++ form.closing.dropLast) :
    (State.run ⟨.inside form, depth⟩ (body ++ form.closing)).2 = ⟨.code, depth⟩ := by
  cases form with
  | embedded =>
    have unclosed : '\x7d' ∉ body := by simpa [Tag.closing, List.singleton_infix_iff] using first
    rw [Tag.closing, run_braced (.inr rfl) unclosed]
    rfl
  | verbatim =>
    have unclosed : ¬ [':', '\x7d'] <:+: body := fun within => first (within.trans List.infix_append_left)
    rw [Tag.closing, run_verbatim unclosed (by simp)]
    rfl
  | guillemets =>
    have unclosed : ¬ ['»', '»'] <:+: body ++ ['»'] := first
    rw [Tag.closing, run_guillemets unclosed]
    rfl
  | _ => contradiction

theorem State.exists_body {c : Char} {rest : List Char}
    (enters : (State.step ⟨.code, depth⟩ c rest.head?).2.mode.tag? = some form) :
    ∃ body, c :: rest = form.opening ++ body := by
  have follows {d : Char} (next : rest.head? = some d) : c :: rest = [c, d] ++ rest.tail :=
    congrArg (c :: ·) (List.cons_head?_tail next).symm
  simp only [State.step, State.stepCode] at enters
  split_ifs at enters with semicolon brace bang colon quote guillemet double opens closes
  all_goals simp only [State.enter, Mode.tag?, Option.some.injEq, reduceCtorEq] at enters
  all_goals subst form
  all_goals try contradiction
  · exact ⟨rest.tail, brace ▸ follows bang⟩
  · exact ⟨rest.tail, brace ▸ follows colon⟩
  · exact ⟨rest.tail, guillemet ▸ follows double⟩

theorem State.carry_inside : State.carry ⟨.inside form, depth⟩ = .within form := by
  simp [carry, multiline]

theorem State.unclosed_of_stays {body : List Char}
    (stays : ∀ more rest, body = more ++ rest → (State.run ⟨.inside form, depth⟩ more).2.mode ≠ .code) :
    ¬ form.closing <:+: body := by
  intro found
  obtain ⟨front, rest, whole, first⟩ := exists_first_mark (Tag.closing_ne_nil multiline) found
  exact stays _ rest whole (congrArg State.mode (run_closing multiline depth first))

end Forms

namespace State

theorem eq_of_code {state : State} (code : state.mode = .code) : state = ⟨.code, state.depth⟩ := by
  rw [← code]

theorem carry_cases (state : State) : state.carry = .none ∨
    ∃ form, state.carry = .within form ∧ state.mode.tag? = some form ∧ form.isMultiline = true := by
  obtain ⟨mode, depth⟩ := state
  cases mode with
  | code => exact .inl rfl
  | comment => exact .inl rfl
  | inside tag =>
    cases multiline : tag.isMultiline with
    | false => exact .inl (by simp [carry, multiline])
    | true => exact .inr ⟨tag, by simp [carry, multiline], rfl, multiline⟩
  | second tag stays =>
    cases both : stays && tag.isMultiline with
    | false => exact .inl (by simp [carry, both])
    | true => exact .inr ⟨tag, by simp [carry, both], rfl, (Bool.and_eq_true_iff.1 both).2⟩

theorem tag?_of_carry {state : State} {form : Tag} (carried : state.carry = .within form) :
    state.mode.tag? = some form ∧ form.isMultiline = true := by
  obtain none | ⟨tag, same, inside, multiline⟩ := state.carry_cases
  · exact absurd (none.symm.trans carried) (by simp)
  · obtain rfl : tag = form := by simpa using same.symm.trans carried
    exact ⟨inside, multiline⟩

theorem mode_run_one {state : State} {c : Char} {next : Option Char} (ends : (state.step c next).2.mode = .code) :
    (state.run [c]).2.mode = .code := by
  rw [run_cons, step_of_code ends]
  exact ends

theorem run_cons_of_ne_nil {front : List Char} (some : front ≠ []) (state : State) (c : Char) (back : List Char) :
    state.run (c :: front) = ((state.step c (front ++ back).head?).1 ::
      ((state.step c (front ++ back).head?).2.run front).1, ((state.step c (front ++ back).head?).2.run front).2) := by
  cases front with
  | nil => contradiction
  | cons d more => rfl

theorem tag?_run {state : State} {tag : Tag} {text : List Char} (inside : state.mode.tag? = some tag) :
    (state.run text).2.mode.tag? = some tag ∨
      ∃ front rest, text = front ++ rest ∧ front ≠ [] ∧ (state.run front).2.mode = .code := by
  induction text generalizing state with
  | nil => exact .inl inside
  | cons c rest ih =>
    obtain ⟨-, ends | stays, -⟩ := step_of_tag? inside c rest.head?
    · exact .inr ⟨[c], rest, rfl, by simp, mode_run_one ends⟩
    · obtain kept | ⟨front, back, rfl, some, code⟩ := ih stays
      · exact .inl kept
      · refine .inr ⟨c :: front, back, rfl, by simp, ?_⟩
        rwa [run_cons_of_ne_nil some state c back]

theorem exists_last_code {state : State} {text front : List Char} (start : front <+: text)
    (code : (state.run front).2.mode = .code) : ∃ front back, text = front ++ back ∧
      (state.run front).2.mode = .code ∧
      ∀ more rest, back = more ++ rest → more ≠ [] → ((state.run front).2.run more).2.mode ≠ .code := by
  induction text using List.reverseRecOn with
  | nil =>
    obtain rfl := List.prefix_nil.1 start
    exact ⟨[], [], rfl, code, by simp⟩
  | append_singleton text c ih =>
    by_cases ends : (state.run (text ++ [c])).2.mode = .code
    · exact ⟨text ++ [c], [], by simp, ends, by simp⟩
    · obtain rfl | within := List.prefix_concat_iff.1 start
      · contradiction
      · obtain ⟨front, back, rfl, code, last⟩ := ih within
        refine ⟨front, back ++ [c], by simp, code, fun more rest whole some => ?_⟩
        obtain rfl | ⟨rest, d, rfl⟩ := List.eq_nil_or_concat' rest
        · rw [List.append_assoc, run_append code, whole, List.append_nil] at ends
          exact ends
        · rw [← List.append_assoc] at whole
          exact last more rest (List.append_inj' whole rfl).1 some

end State

section Line

variable {carry : Carry} {text : List Char} {form : Tag}

theorem exists_body_of_carry {state : State} (code : state.mode = .code)
    (last : ∀ more rest, text = more ++ rest → more ≠ [] → (state.run more).2.mode ≠ .code)
    (carried : (state.run text).2.carry = .within form) :
    ∃ body, text = form.opening ++ body ∧ ¬ form.closing <:+: body := by
  obtain ⟨ends, multiline⟩ := State.tag?_of_carry carried
  rw [State.eq_of_code code] at last carried ends
  cases text with
  | nil => contradiction
  | cons c rest =>
    have leaves : (State.step ⟨.code, state.depth⟩ c rest.head?).2.mode ≠ .code := fun stays =>
      last [c] rest rfl (by simp) (State.mode_run_one stays)
    obtain ⟨tag, inside⟩ := Option.ne_none_iff_exists'.1 fun none => leaves (Mode.tag?_eq_none.1 none)
    have same : tag = form := by
      obtain kept | ⟨front, back, rfl, some, comes⟩ := @State.tag?_run _ _ rest inside
      · exact Option.some.inj (kept.symm.trans ends)
      · refine absurd ?_ (last (c :: front) back rfl (by simp))
        rwa [State.run_cons_of_ne_nil some _ c back]
    subst same
    obtain ⟨body, whole⟩ := State.exists_body multiline state.depth inside
    refine ⟨body, whole, State.unclosed_of_stays multiline state.depth fun more back split comes => ?_⟩
    rw [← State.run_opening multiline] at comes
    have some : tag.opening ++ more ≠ [] := by cases tag <;> first | contradiction | exact List.cons_ne_nil _ _
    exact last _ back (by rw [whole, split, List.append_assoc]) some comes

theorem opens_or_unclosed_of_carryOut (carried : (scanLine carry text).carryOut = .within form) :
    (scanLine carry text).Opens form ∨ carry = .within form ∧ ¬ form.closing <:+: text := by
  obtain ⟨ends, multiline⟩ := State.tag?_of_carry carried
  by_cases comes : ∃ front, front <+: text ∧ ((State.ofCarry carry).run front).2.mode = .code
  · obtain ⟨front, start, code⟩ := comes
    obtain ⟨front, back, rfl, code, last⟩ := State.exists_last_code start code
    have ends : (((State.ofCarry carry).run front).2.run back).2.carry = .within form := by
      rw [← carried, Scan.carryOut, scanLine, State.run_append code]
    obtain ⟨body, rfl, unclosed⟩ := exists_body_of_carry code last ends
    exact .inl ⟨front, body, rfl, code, unclosed⟩
  · cases active : carry.active? with
    | none =>
      have code : State.ofCarry carry = ⟨.code, 0⟩ := by rw [State.ofCarry, active]
      exact absurd ⟨[], List.nil_prefix, congrArg State.mode code⟩ comes
    | some tag =>
      obtain rfl := Carry.eq_within_of_active active
      obtain kept | ⟨front, back, rfl, -, code⟩ := @State.tag?_run (.ofCarry (.within tag)) tag text rfl
      · obtain rfl : tag = form := Option.some.inj (kept.symm.trans ends)
        exact .inr ⟨rfl, State.unclosed_of_stays multiline 0 fun more rest whole code =>
          comes ⟨more, ⟨rest, whole.symm⟩, code⟩⟩
      · exact absurd ⟨front, List.prefix_append front back, code⟩ comes

section Multiline

variable (multiline : form.isMultiline = true)

include multiline

theorem carryOut_of_opens (opens : (scanLine carry text).Opens form) :
    (scanLine carry text).carryOut = .within form := by
  obtain ⟨front, body, whole, code, unclosed⟩ := opens
  obtain rfl : text = front ++ (form.opening ++ body) := whole
  have code : ((State.ofCarry carry).run front).2.mode = .code := code
  calc (scanLine carry (front ++ (form.opening ++ body))).carryOut
      = (((State.ofCarry carry).run front).2.run (form.opening ++ body)).2.carry := by
        rw [Scan.carryOut, scanLine, State.run_append code]
    _ = (State.run ⟨.inside form, ((State.ofCarry carry).run front).2.depth⟩ body).2.carry := by
        rw [State.eq_of_code code, State.run_opening multiline]
    _ = .within form := by rw [State.run_unclosed multiline _ unclosed, State.carry_inside multiline]

theorem carryOut_of_unclosed (unclosed : ¬ form.closing <:+: text) :
    (scanLine (.within form) text).carryOut = .within form := by
  change State.carry (State.run ⟨.inside form, 0⟩ text).2 = _
  rw [State.run_unclosed multiline _ unclosed, State.carry_inside multiline]

theorem carryOut_eq_within_iff : (scanLine carry text).carryOut = .within form ↔
    (scanLine carry text).Opens form ∨ carry = .within form ∧ ¬ form.closing <:+: text := by
  refine ⟨opens_or_unclosed_of_carryOut, ?_⟩
  rintro (opens | ⟨rfl, unclosed⟩)
  · exact carryOut_of_opens multiline opens
  · exact carryOut_of_unclosed multiline unclosed

end Multiline

theorem Scan.Opens.closing_infix {scan : Scan} {other : Tag} (opens : scan.Opens form)
    (starts : scan.carryIn = .within other) (multiline : other.isMultiline = true) :
    other.closing <:+: scan.text := by
  obtain ⟨front, body, whole, code, -⟩ := opens
  by_contra unclosed
  have before : ¬ other.closing <:+: front := fun found => unclosed (whole ▸ found.trans List.infix_append_left)
  rw [starts] at code
  have inside : (State.run ⟨.inside other, 0⟩ front).2.mode = .code := code
  rw [State.run_unclosed multiline 0 before] at inside
  contradiction

end Line

def carryBefore (texts : List (List Char)) (line : Nat) : Carry := carryAfter .none (texts.take line)

section Document

variable {texts : List (List Char)} {line : Nat}

theorem getElem?_scanFrom (carry : Carry) (texts : List (List Char)) (line : Nat) :
    (scanFrom carry texts)[line]? = (texts[line]?).map (scanLine (carryAfter carry (texts.take line))) := by
  induction texts generalizing carry line with
  | nil => rfl
  | cons text rest ih =>
    cases line with
    | zero => rfl
    | succ line => exact ih (scanLine carry text).carryOut line

theorem getElem?_scanLines (texts : List (List Char)) (line : Nat) :
    (scanLines texts)[line]? = (texts[line]?).map (scanLine (carryBefore texts line)) :=
  getElem?_scanFrom .none texts line

theorem carryAfter_append (carry : Carry) (first second : List (List Char)) :
    carryAfter carry (first ++ second) = carryAfter (carryAfter carry first) second := by
  induction first generalizing carry with
  | nil => rfl
  | cons text first ih => exact ih (scanLine carry text).carryOut

theorem carryBefore_succ {text : List Char} (found : texts[line]? = some text) :
    carryBefore texts (line + 1) = (scanLine (carryBefore texts line) text).carryOut := by
  rw [carryBefore, List.take_add_one, found, carryAfter_append]
  rfl

theorem carryBefore_cases (texts : List (List Char)) (line : Nat) : carryBefore texts line = .none ∨
    ∃ form, form.isMultiline = true ∧ carryBefore texts line = .within form := by
  induction line with
  | zero => exact .inl rfl
  | succ line ih =>
    cases found : texts[line]? with
    | none => rwa [carryBefore, List.take_add_one, found, Option.toList_none, List.append_nil]
    | some text =>
      rw [carryBefore_succ found]
      obtain none | ⟨form, within, -, multiline⟩ := (scanLine (carryBefore texts line) text).last.carry_cases
      · exact .inl none
      · exact .inr ⟨form, multiline, within⟩

end Document

end ArturoInsight.Lexical
