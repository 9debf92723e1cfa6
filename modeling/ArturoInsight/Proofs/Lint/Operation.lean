import ArturoInsight.Lint.Operands
import ArturoInsight.Proofs.Lexical.Borders
import ArturoInsight.Proofs.Text.Classes
import ArturoInsight.Proofs.Text.Readers

/-! What a labelled operation is read from: a label, a colon, a left side up to the first operator, that operator and
what follows it. Label, colon and operator stand in code. -/

namespace ArturoInsight.Operands

open Text Lexical

/-- What a left side does not go past: an operator or a semicolon. -/
def halts (c : Char) : Bool := c == ';' || (Operator.ofChar? c).isSome

/-- An operation in the parts that it is written in, the blanks on both sides of the colon by themselves. -/
structure Spelling where
  label : List Char
  gap : List Char
  lead : List Char
  left : List Char
  sign : Char
  right : List Char
  operator : Operator

namespace Spelling

/-- What comes after the colon. -/
def value (spelling : Spelling) : List Char := spelling.lead ++ (spelling.left ++ spelling.sign :: spelling.right)

def text (spelling : Spelling) : List Char := spelling.label ++ (spelling.gap ++ ':' :: spelling.value)

/-- All that comes before the operator. -/
def front (spelling : Spelling) : List Char :=
  spelling.label ++ (spelling.gap ++ ':' :: (spelling.lead ++ spelling.left))

theorem text_eq (spelling : Spelling) : spelling.text = spelling.front ++ spelling.sign :: spelling.right := by
  simp [text, value, front]

theorem length_front (spelling : Spelling) : spelling.front.length =
    spelling.label.length + spelling.gap.length + 1 + spelling.lead.length + spelling.left.length := by
  simp only [front, List.length_append, List.length_cons]
  omega

/-- The operation that stands at a column. -/
def operation (spelling : Spelling) (column : Nat) : Operation where
  column := column + spelling.front.length
  operator := spelling.operator
  left := trim spelling.left
  right := trim (spelling.right.takeWhile (· != ';'))

/-- The parts are as long as they can be, and the operator is the first one after the start of the left side. -/
structure Sound (spelling : Spelling) : Prop where
  some_ : spelling.label ≠ []
  word : ∀ c ∈ spelling.label, isWord c = true
  gap : Blanks spelling.gap
  lead : Blanks spelling.lead
  first : ∀ c ∈ spelling.left.head?, isBlank c = false ∧ c ≠ ';'
  later : ∀ c ∈ spelling.left.tail, halts c = false
  sign : operator? spelling.sign spelling.right = some spelling.operator

structure InCode (spelling : Spelling) (scan : Scan) (column : Nat) : Prop where
  label : scan.codeAt column = true
  colon : scan.codeAt (column + spelling.label.length + spelling.gap.length) = true
  sign : scan.codeAt (column + spelling.front.length) = true

end Spelling

theorem operator?_eq_some {sign : Char} {rest : List Char} {operator : Operator} :
    operator? sign rest = some operator ↔
      Operator.ofChar? sign = some operator ∧ ∃ c ∈ rest.head?, c ≠ ';' := by
  unfold operator?
  cases rest with
  | nil => simp
  | cons c rest => by_cases semicolon : c = ';' <;> simp [semicolon]

theorem mem_signs {sign : Char} {operator : Operator} (signed : Operator.ofChar? sign = some operator) :
    sign ∈ ['+', '-', '*', '/'] := by
  unfold Operator.ofChar? at signed
  split at signed <;> simp_all

theorem halts_eq_false {c : Char} : halts c = false ↔ c ≠ ';' ∧ Operator.ofChar? c = none := by
  simp [halts]

theorem solid_of_operator {sign : Char} {operator : Operator} (signed : Operator.ofChar? sign = some operator) :
    isBlank sign = false ∧ isWord sign = false ∧ sign ≠ ':' ∧ sign ≠ ';' ∧ sign ≠ '\x22' := by
  have signs : ∀ c ∈ ['+', '-', '*', '/'], isBlank c = false ∧ isWord c = false ∧ c ≠ ':' ∧ c ≠ ';' ∧ c ≠ '\x22' := by
    decide +kernel
  exact signs sign (mem_signs signed)

theorem not_halts_of_operator? {c d : Char} {rest : List Char} (passed : operator? c (d :: rest) = none)
    (semicolon : c ≠ ';') (next : d ≠ ';') : halts c = false := by
  rw [halts_eq_false]
  refine ⟨semicolon, ?_⟩
  simpa [operator?, next] using passed

theorem exists_of_split? {text : List Char} {sides : Sides} (cut : split? text = some sides) : ∃ sign,
    text = sides.left ++ sign :: sides.right ∧ operator? sign sides.right = some sides.operator ∧
      ∀ c ∈ sides.left, halts c = false := by
  induction text generalizing sides with
  | nil => contradiction
  | cons c rest ih =>
    cases here : operator? c rest with
    | some operator =>
      simp only [split?, here, Option.some.injEq] at cut
      rw [← cut]
      exact ⟨c, rfl, here, List.forall_mem_nil _⟩
    | none =>
      rw [split?, here] at cut
      by_cases semicolon : c = ';'
      · simp [semicolon] at cut
      · simp only [semicolon, beq_iff_eq, if_false, Option.map_eq_some_iff] at cut
        obtain ⟨inner, later, same⟩ := cut
        obtain ⟨sign, whole, signed, plain⟩ := ih later
        have passed : halts c = false := by
          cases left : inner.left with
          | nil =>
            rw [left, List.nil_append] at whole
            rw [whole] at here
            exact not_halts_of_operator? here semicolon (solid_of_operator (operator?_eq_some.1 signed).1).2.2.2.1
          | cons d more =>
            rw [left, List.cons_append] at whole
            rw [whole] at here
            have inside : d ∈ inner.left := by rw [left]; exact List.mem_cons_self
            exact not_halts_of_operator? here semicolon (halts_eq_false.1 (plain d inside)).1
        rw [← same]
        refine ⟨sign, ?_, signed, List.forall_mem_cons.2 ⟨passed, plain⟩⟩
        rw [whole, List.cons_append]

theorem split?_append {left right : List Char} {sign : Char} {operator : Operator}
    (plain : ∀ c ∈ left, halts c = false) (signed : operator? sign right = some operator) :
    split? (left ++ sign :: right) = some ⟨left, operator, right⟩ := by
  induction left with
  | nil => simp [split?, signed]
  | cons c left ih =>
    obtain ⟨passed, later⟩ := List.forall_mem_cons.1 plain
    obtain ⟨semicolon, other⟩ := halts_eq_false.1 passed
    have here : operator? c (left ++ sign :: right) = none := by
      unfold operator?
      rw [other, ite_self]
    rw [List.cons_append, split?, here]
    simp [semicolon, ih later]

section Sides

variable {value : List Char}

theorem exists_of_sides? {sides : Sides} (read : sides? value = some sides) : ∃ lead sign, Blanks lead ∧
    value = lead ++ (sides.left ++ sign :: sides.right) ∧ operator? sign sides.right = some sides.operator ∧
      (∀ c ∈ sides.left.head?, isBlank c = false ∧ c ≠ ';') ∧ ∀ c ∈ sides.left.tail, halts c = false := by
  obtain ⟨lead, rest, rfl, blanks, stops⟩ := exists_run isBlank value
  rw [sides?, dropWhile_run blanks stops] at read
  cases rest with
  | nil => contradiction
  | cons first rest =>
    have solid : isBlank first = false := stops first rfl
    rcases Option.or_eq_some_iff.1 read with later | ⟨-, blank⟩
    · obtain ⟨semicolon, later⟩ := Option.ite_none_left_eq_some.1 later
      obtain ⟨inner, cut, rfl⟩ := Option.map_eq_some_iff.1 later
      obtain ⟨sign, rfl, signed, plain⟩ := exists_of_split? cut
      refine ⟨lead, sign, blanks, rfl, signed, fun c head => ?_, plain⟩
      obtain rfl : first = c := Option.some.inj head
      exact ⟨solid, by simpa using semicolon⟩
    · obtain ⟨-, blank⟩ := Option.ite_none_right_eq_some.1 blank
      obtain ⟨operator, signed, rfl⟩ := Option.map_eq_some_iff.1 blank
      exact ⟨lead, first, blanks, rfl, signed, by simp, by simp⟩

theorem sides?_append {lead left right : List Char} {first sign : Char} {operator : Operator} (blanks : Blanks lead)
    (solid : isBlank first = false) (semicolon : first ≠ ';') (plain : ∀ c ∈ left, halts c = false)
    (signed : operator? sign right = some operator) :
    sides? (lead ++ (first :: left ++ sign :: right)) = some ⟨first :: left, operator, right⟩ := by
  have stops : ∀ c ∈ (first :: left ++ sign :: right).head?, isBlank c = false := by simpa using solid
  rw [sides?, dropWhile_run blanks stops, List.cons_append]
  simp [semicolon, split?_append plain signed]

end Sides

section Places

variable {scan : Scan} {column : Nat} {spelling : Spelling}

/-- The left side or the operator ends the blanks after the colon. -/
theorem Spelling.Sound.stops (sound : spelling.Sound) :
    ∀ c ∈ (spelling.left ++ spelling.sign :: spelling.right).head?, isBlank c = false := by
  intro c head
  cases left : spelling.left with
  | nil =>
    rw [left] at head
    rw [← Option.some.inj head]
    exact (solid_of_operator (operator?_eq_some.1 sound.sign).1).1
  | cons d more =>
    rw [left] at head
    have first := sound.first d (by rw [left]; rfl)
    rw [← Option.some.inj head]
    exact first.1

theorem Spelling.Sound.ends (sound : spelling.Sound) :
    ∀ c ∈ (spelling.gap ++ ':' :: spelling.value).head?, isWord c = false := by
  intro c head
  cases gap : spelling.gap with
  | nil =>
    rw [gap] at head
    rw [← Option.some.inj head]
    decide
  | cons d more =>
    rw [gap] at head
    rw [← Option.some.inj head]
    exact not_isWord_of_isBlank (sound.gap d (by rw [gap]; exact List.mem_cons_self))

/-- A left side that is not empty is read as far as it goes. -/
theorem Spelling.Sound.reads (sound : spelling.Sound) (some_ : spelling.left ≠ []) :
    sides? spelling.value = some ⟨spelling.left, spelling.operator, spelling.right⟩ := by
  obtain ⟨c, more, left⟩ := List.exists_cons_of_ne_nil some_
  obtain ⟨solid, semicolon⟩ := sound.first c (by rw [left]; rfl)
  have later := sound.later
  rw [left] at later
  rw [Spelling.value, left]
  exact sides?_append sound.lead solid semicolon later sound.sign

theorem at?_text (sound : spelling.Sound)
    (read : sides? spelling.value = some ⟨spelling.left, spelling.operator, spelling.right⟩) :
    at? scan column spelling.text =
      if scan.codeAt column && scan.codeAt (column + spelling.label.length + spelling.gap.length) &&
        scan.codeAt (column + spelling.front.length) then some (spelling.operation column) else none := by
  have named : run? isWord spelling.text = some (spelling.label, spelling.gap ++ ':' :: spelling.value) :=
    run?_eq_some.2 ⟨rfl, sound.some_, sound.word, sound.ends⟩
  have blank : ∀ c ∈ (':' :: spelling.value).head?, isBlank c = false := by
    intro c head
    rw [← Option.some.inj head]
    decide
  have colon : after? [':'] (':' :: spelling.value) = some spelling.value := after?_eq_some.2 rfl
  have lead : spelling.value.takeWhile isBlank = spelling.lead := takeWhile_run sound.lead sound.stops
  have place : column + spelling.label.length + spelling.gap.length + 1 + spelling.lead.length +
      spelling.left.length = column + spelling.front.length := by
    rw [spelling.length_front]
    omega
  simp only [at?, named, Option.bind_eq_bind, Option.bind_some, dropWhile_run sound.gap blank,
    takeWhile_run sound.gap blank, colon, read, lead, place]
  rfl

theorem exists_of_at? {rest : List Char} {operation : Operation} (found : at? scan column rest = some operation) :
    ∃ spelling : Spelling, spelling.Sound ∧ spelling.InCode scan column ∧ rest = spelling.text ∧
      operation = spelling.operation column := by
  obtain ⟨⟨label, tail⟩, named, accepted⟩ := Option.bind_eq_some_iff.1 found
  obtain ⟨value, colon, accepted⟩ := Option.bind_eq_some_iff.1 accepted
  obtain ⟨sides, read, -⟩ := Option.bind_eq_some_iff.1 accepted
  obtain ⟨rfl, some_, word, -⟩ := run?_eq_some.1 named
  obtain ⟨gap, back, rfl, gaps, stops⟩ := exists_run isBlank tail
  obtain ⟨lead, sign, blanks, rfl, signed, first, later⟩ := exists_of_sides? read
  rw [dropWhile_run gaps stops, after?_eq_some] at colon
  rw [colon] at found ⊢
  let spelling : Spelling := ⟨label, gap, lead, sides.left, sign, sides.right, sides.operator⟩
  have sound : spelling.Sound := ⟨some_, word, gaps, blanks, first, later, signed⟩
  have accepted := (at?_text sound read).symm.trans found
  obtain ⟨code, same⟩ := Option.ite_none_right_eq_some.1 accepted
  simp only [Bool.and_eq_true] at code
  exact ⟨spelling, sound, ⟨code.1.1, code.1.2, code.2⟩, rfl, (Option.some.inj same).symm⟩

theorem exists_of_ofLine? {operation : Operation} (found : ofLine? scan = some operation) :
    ∃ (front : List Char) (spelling : Spelling), scan.uncommented = front ++ spelling.text ∧ spelling.Sound ∧
      spelling.InCode scan front.length ∧ operation = spelling.operation front.length := by
  obtain ⟨front, back, whole, accepted⟩ := exists_of_firstPlaceFrom found
  rw [Nat.zero_add] at accepted
  obtain ⟨spelling, sound, code, rfl, same⟩ := exists_of_at? accepted
  exact ⟨front, spelling, whole, sound, code, same⟩

end Places

def familyOf (source : Source) (operand : List Char) : Option Family :=
  Family.ofType? (operandType source.symbols operand)

section Lines

variable {source : Source} {line : Nat} {scan : Scan} {operation : Operation}

theorem ofLine_of_none (none_ : ofLine? scan = none) : ofLine source line scan = [] := by
  rw [ofLine, none_]

theorem ofLine_of_families (found : ofLine? scan = some operation) {left right : Family}
    (first : familyOf source operation.left = some left) (second : familyOf source operation.right = some right) :
    ofLine source line scan = if left = right then [] else [source.issue .error "E001"
      (message operation.operator left right) line scan operation.column scan.text.length] := by
  rw [familyOf] at first second
  simp only [ofLine, found, first, second]

theorem mem_ofLine {issue : Issue} : issue ∈ ofLine source line scan ↔
    ∃ operation left right, ofLine? scan = some operation ∧ familyOf source operation.left = some left ∧
      familyOf source operation.right = some right ∧ left ≠ right ∧
      issue = source.issue .error "E001" (message operation.operator left right) line scan operation.column
        scan.text.length := by
  constructor
  · intro member
    cases found : ofLine? scan with
    | none =>
      rw [ofLine_of_none found] at member
      contradiction
    | some operation =>
      unfold ofLine at member
      simp only [found] at member
      split at member
      next left right first second =>
        split_ifs at member with same
        · contradiction
        · exact ⟨operation, left, right, rfl, first, second, same, List.mem_singleton.1 member⟩
      next => contradiction
  · intro reported
    obtain ⟨operation, left, right, found, first, second, differ, same⟩ := reported
    rw [ofLine_of_families found first second, if_neg differ]
    exact List.mem_singleton.2 same

/-- What is reported of an operation in its line. -/
structure Reported (source : Source) (scan : Scan) (issue : Issue) (operation : Operation) : Prop where
  read : ofLine? scan = some operation
  column : issue.column = operation.column
  stop : issue.endColumn = scan.text.length
  sign : ∃ sign ∈ scan.text[issue.column]?, Operator.ofChar? sign = some operation.operator
  code : scan.codeAt issue.column = true
  families : ∃ left right, familyOf source operation.left = some left ∧ familyOf source operation.right = some right ∧
    left ≠ right ∧ issue.message = message operation.operator left right

theorem Spelling.exists_rest {front : List Char} {spelling : Spelling}
    (whole : scan.uncommented = front ++ spelling.text) :
    ∃ rest, scan.text = (front ++ spelling.front) ++ spelling.sign :: rest := by
  obtain ⟨comment, same⟩ := uncommented_prefix scan
  refine ⟨spelling.right ++ comment, ?_⟩
  rw [← same, whole, spelling.text_eq]
  simp

theorem exists_of_mem_ofLine {issue : Issue} (member : issue ∈ ofLine source line scan) :
    ∃ (front : List Char) (spelling : Spelling), scan.uncommented = front ++ spelling.text ∧ spelling.Sound ∧
      Reported source scan issue (spelling.operation front.length) := by
  obtain ⟨operation, left, right, found, first, second, differ, rfl⟩ := mem_ofLine.1 member
  obtain ⟨front, spelling, whole, sound, code, rfl⟩ := exists_of_ofLine? found
  obtain ⟨rest, text⟩ := Spelling.exists_rest whole
  have sign : scan.text[front.length + spelling.front.length]? = some spelling.sign := by
    rw [text, ← List.length_append, getElem?_append_length, List.head?_cons]
  exact ⟨front, spelling, whole, sound, found, rfl, rfl, ⟨_, sign, (operator?_eq_some.1 sound.sign).1⟩, code.sign,
    left, right, first, second, differ, rfl⟩

end Lines

end ArturoInsight.Operands
