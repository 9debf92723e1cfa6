import ArturoInsight.Proofs.Lexical.Grammar
import ArturoInsight.Proofs.Lexical.Swaps
import ArturoInsight.Proofs.Lint.Operation
import ArturoInsight.Proofs.Lint.Order
import ArturoInsight.Proofs.ValueType

/-! Operations on a number and a string that are both written out. With the number first they are reported whatever
the string holds. With the string first the search for the operator starts in the string: it stops at an operator or
a semicolon there, and then nothing is reported. -/

namespace ArturoInsight.Operands

open Text Lexical ValueType

theorem familyOf_of_quote (source : Source) (rest : List Char) : familyOf source ('\x22' :: rest) = some .string := by
  simp [familyOf, operandType, infer_of_quote, Family.ofType?, ValueType.isNumeric]

theorem familyOf_of_isDigits (source : Source) {operand : List Char} (digits : Literal.isDigits operand = true) :
    familyOf source operand = some .number := by
  simp [familyOf, operandType, infer_of_isDigits digits, Family.ofType?, ValueType.isNumeric]

/-- An operation on a quoted string and a run of digits, and the name that labels it. -/
structure Mismatch where
  name : List Char
  body : List Char
  digits : List Char
  sign : Char
  operator : Operator
  some_ : name ≠ []
  word : ∀ c ∈ name, isWord c = true
  escaped : Escaped body
  numeral : Literal.isDigits digits = true
  signed : Operator.ofChar? sign = some operator

namespace Mismatch

variable (mismatch : Mismatch)

/-- The line with the string on the left. -/
def stringFirst : List Char :=
  mismatch.name ++ ':' :: ' ' :: (quotation mismatch.body ++ ' ' :: mismatch.sign :: ' ' :: mismatch.digits)

/-- The line with the number on the left. -/
def numberFirst : List Char :=
  mismatch.name ++ ':' :: ' ' :: (mismatch.digits ++ ' ' :: mismatch.sign :: ' ' :: quotation mismatch.body)

def stringSpelling : Spelling where
  label := mismatch.name
  gap := []
  lead := [' ']
  left := '\x22' :: (mismatch.body ++ ['\x22', ' '])
  sign := mismatch.sign
  right := ' ' :: mismatch.digits
  operator := mismatch.operator

def numberSpelling : Spelling where
  label := mismatch.name
  gap := []
  lead := [' ']
  left := mismatch.digits ++ [' ']
  sign := mismatch.sign
  right := ' ' :: quotation mismatch.body
  operator := mismatch.operator

theorem stringSpelling_text : mismatch.stringSpelling.text = mismatch.stringFirst := by
  simp [stringSpelling, Spelling.text, Spelling.value, stringFirst, quotation]

theorem numberSpelling_text : mismatch.numberSpelling.text = mismatch.numberFirst := by
  simp [numberSpelling, Spelling.text, Spelling.value, numberFirst, quotation]

variable {mismatch}

theorem endsCode_name : ∀ c ∈ mismatch.name, endsCode c = false :=
  fun c member => endsCode_of_isWord (mismatch.word c member)

theorem endsCode_digits : ∀ c ∈ mismatch.digits, endsCode c = false :=
  fun c member => endsCode_of_isWord (isWord_of_isDigit ((solid_of_isDigits mismatch.numeral).2 c member).1)

theorem endsCode_sign : endsCode mismatch.sign = false := by
  have signs : ∀ c ∈ ['+', '-', '*', '/'], endsCode c = false := by decide
  exact signs _ (mem_signs mismatch.signed)

theorem endsCode_signed : ∀ c ∈ [' ', mismatch.sign, ' '], endsCode c = false :=
  List.forall_mem_cons.2 ⟨by decide, List.forall_mem_cons.2 ⟨endsCode_sign, by decide⟩⟩

theorem operator?_blank (mismatch : Mismatch) (rest : List Char) :
    operator? mismatch.sign (' ' :: rest) = some mismatch.operator :=
  operator?_eq_some.2 ⟨mismatch.signed, ' ', rfl, by decide⟩

theorem trim_digits : trim mismatch.digits = mismatch.digits :=
  trim_of_solid fun c member => ((solid_of_isDigits mismatch.numeral).2 c member).2

theorem halts_digits : ∀ c ∈ mismatch.digits, halts c = false := by
  intro c member
  by_contra stops
  have digit := ((solid_of_isDigits mismatch.numeral).2 c member).1
  have marks : c ∈ [';', '+', '-', '*', '/'] := by
    rcases Bool.or_eq_true_iff.1 (by simpa using stops : halts c = true) with semicolon | sign
    · rw [beq_iff_eq.1 semicolon]
      exact List.mem_cons_self
    · obtain ⟨operator, signed⟩ := Option.isSome_iff_exists.1 sign
      exact List.mem_cons_of_mem _ (mem_signs signed)
  have others : ∀ d ∈ [';', '+', '-', '*', '/'], isDigit d = false := by decide +kernel
  rw [others c marks] at digit
  contradiction

theorem exists_digits (mismatch : Mismatch) : ∃ d more, mismatch.digits = d :: more ∧ isBlank d = false ∧ d ≠ ';' ∧
    ∀ c ∈ more ++ [' '], halts c = false := by
  obtain ⟨some_, solid⟩ := solid_of_isDigits mismatch.numeral
  obtain ⟨d, more, whole⟩ := List.exists_cons_of_ne_nil some_
  have plain := mismatch.halts_digits
  rw [whole] at plain solid
  obtain ⟨first, later⟩ := List.forall_mem_cons.1 plain
  exact ⟨d, more, whole, (solid d List.mem_cons_self).2, (halts_eq_false.1 first).1,
    List.forall_mem_append.2 ⟨later, by decide⟩⟩

theorem sound_numberSpelling : mismatch.numberSpelling.Sound := by
  obtain ⟨d, more, whole, solid, semicolon, later⟩ := mismatch.exists_digits
  refine ⟨mismatch.some_, mismatch.word, blanks_nil, blanks_one, ?_, ?_, mismatch.operator?_blank _⟩
  · simpa [numberSpelling, whole] using ⟨solid, semicolon⟩
  · simpa only [numberSpelling, whole, List.cons_append, List.tail_cons] using later

theorem sound_stringSpelling (plain : mismatch.body.any halts = false) : mismatch.stringSpelling.Sound := by
  refine ⟨mismatch.some_, mismatch.word, blanks_nil, blanks_one, ?_, ?_, mismatch.operator?_blank _⟩
  · intro c head
    rw [← Option.some.inj head]
    decide
  · exact List.forall_mem_append.2 ⟨by simpa using plain, by decide⟩

end Mismatch

theorem ofLine?_of_at? {scan : Scan} {operation : Operation} (found : at? scan 0 scan.uncommented = some operation) :
    ofLine? scan = some operation := by
  unfold ofLine? firstPlace
  cases text : scan.uncommented with
  | nil =>
    rw [text] at found
    contradiction
  | cons c rest =>
    rw [text] at found
    rw [firstPlaceFrom, found]

theorem ofLine_of_spelling {source : Source} {line : Nat} {scan : Scan} {spelling : Spelling} (sound : spelling.Sound)
    (some_ : spelling.left ≠ []) (whole : scan.uncommented = spelling.text) (code : spelling.InCode scan 0)
    {left right : Family} (first : familyOf source (spelling.operation 0).left = some left)
    (second : familyOf source (spelling.operation 0).right = some right) (differ : left ≠ right) :
    ofLine source line scan = [source.issue .error "E001" (message spelling.operator left right) line scan
      spelling.front.length scan.text.length] := by
  have found : at? scan 0 scan.uncommented = some (spelling.operation 0) := by
    rw [whole, at?_text sound (sound.reads some_), code.label, code.colon, code.sign]
    rfl
  rw [ofLine_of_families (ofLine?_of_at? found) first second, if_neg differ]
  simp only [Spelling.operation, Nat.zero_add]

theorem Spelling.Sound.length_left {spelling : Spelling} (sound : spelling.Sound) {body rest : List Char}
    (value : spelling.value = [' '] ++ (quotation body ++ rest)) (stops : body.any halts = true) :
    1 < spelling.lead.length + spelling.left.length ∧
      spelling.lead.length + spelling.left.length < body.length + 2 := by
  have solid : ∀ c ∈ (quotation body ++ rest).head?, isBlank c = false := by
    intro c head
    rw [← Option.some.inj head]
    decide
  have lead : spelling.lead = [' '] := by
    rw [← takeWhile_run sound.lead sound.stops, ← Spelling.value, value, takeWhile_run blanks_one solid]
  have same : spelling.left ++ spelling.sign :: spelling.right = quotation body ++ rest := by
    rw [← dropWhile_run sound.lead sound.stops, ← Spelling.value, value, dropWhile_run blanks_one solid]
  cases left : spelling.left with
  | nil =>
    rw [left] at same
    have other := (solid_of_operator (operator?_eq_some.1 sound.sign).1).2.2.2.2
    exact absurd (List.cons.inj same).1 other
  | cons quote more =>
    rw [left] at same
    have later := sound.later
    rw [left] at later
    have inner : more ++ spelling.sign :: spelling.right = body ++ '\x22' :: rest := by
      simpa [quotation] using (List.cons.inj same).2
    have shorter : more.length < body.length := by
      by_contra longer
      have covers : body <+: more :=
        List.prefix_of_prefix_length_le (List.prefix_append _ _) ⟨_, inner⟩ (Nat.le_of_not_lt longer)
      obtain ⟨c, member, halt⟩ := List.any_eq_true.1 stops
      rw [List.tail_cons] at later
      rw [later c (covers.subset member)] at halt
      contradiction
    rw [lead, List.length_singleton, List.length_cons]
    omega

namespace Mismatch

variable {mismatch : Mismatch} {source : Source} {line : Nat} {carry : Carry}

theorem numberFirst_eq : mismatch.numberFirst =
    (mismatch.name ++ ':' :: ' ' :: (mismatch.digits ++ [' ', mismatch.sign, ' '])) ++
      (quotation mismatch.body ++ []) := by
  simp [numberFirst]

theorem stringFirst_eq : mismatch.stringFirst =
    (mismatch.name ++ [':', ' ']) ++ (quotation mismatch.body ++ ' ' :: mismatch.sign :: ' ' :: mismatch.digits) := by
  simp [stringFirst]

section NumberFirst

theorem endsCode_before : ∀ c ∈ mismatch.name ++ ':' :: ' ' :: (mismatch.digits ++ [' ', mismatch.sign, ' ']),
    endsCode c = false := by
  have colon : ∀ c ∈ [':', ' '], endsCode c = false := by decide
  exact List.forall_mem_append.2 ⟨endsCode_name, List.forall_mem_append.2
    ⟨colon, List.forall_mem_append.2 ⟨endsCode_digits, endsCode_signed⟩⟩⟩

theorem numberSpelling_front :
    mismatch.numberSpelling.front.length = mismatch.name.length + mismatch.digits.length + 3 := by
  simp +arith [Spelling.length_front, numberSpelling]

variable (started : State.ofCarry carry = ⟨.code, 0⟩)

include started

theorem inCode_number : mismatch.numberSpelling.InCode (scanLine carry mismatch.numberFirst) 0 := by
  have size : (mismatch.name ++ ':' :: ' ' :: (mismatch.digits ++ [' ', mismatch.sign, ' '])).length =
      mismatch.name.length + mismatch.digits.length + 5 := by
    simp +arith
  have code (column : Nat) (inside : column ≤ mismatch.name.length + mismatch.digits.length + 3) :
      (scanLine carry mismatch.numberFirst).codeAt column = true := by
    rw [numberFirst_eq, codeAt_around started endsCode_before mismatch.escaped (List.forall_mem_nil _), size,
      Bool.or_eq_true, decide_eq_true_eq]
    omega
  refine ⟨code _ (Nat.zero_le _), code _ ?_, code _ ?_⟩
  · simp +arith [numberSpelling]
  · rw [numberSpelling_front, Nat.zero_add]

theorem ofLine_numberFirst : ofLine source line (scanLine carry mismatch.numberFirst) =
    [source.issue .error "E001" (message mismatch.operator .number .string) line (scanLine carry mismatch.numberFirst)
      (mismatch.name.length + mismatch.digits.length + 3) mismatch.numberFirst.length] := by
  have whole : (scanLine carry mismatch.numberFirst).uncommented = mismatch.numberSpelling.text := by
    rw [numberSpelling_text, numberFirst_eq]
    exact uncommented_around started endsCode_before mismatch.escaped (List.forall_mem_nil _)
  have first : familyOf source (mismatch.numberSpelling.operation 0).left = some .number := by
    rw [Spelling.operation, numberSpelling, trim_append_blanks blanks_one, trim_digits]
    exact familyOf_of_isDigits source mismatch.numeral
  have second : familyOf source (mismatch.numberSpelling.operation 0).right = some .string := by
    have quoted : (' ' :: quotation mismatch.body).takeWhile (· != ';') =
        [' '] ++ '\x22' :: (mismatch.body ++ ['\x22']).takeWhile (· != ';') := by
      simp [quotation]
    rw [Spelling.operation, numberSpelling, quoted, trim_gap blanks_one (by decide)]
    exact familyOf_of_quote source _
  rw [← numberSpelling_front]
  exact ofLine_of_spelling sound_numberSpelling (by simp [numberSpelling]) whole (inCode_number started) first second
    (by decide)

end NumberFirst

section StringFirst

theorem endsCode_label : ∀ c ∈ mismatch.name ++ [':', ' '], endsCode c = false :=
  List.forall_mem_append.2 ⟨endsCode_name, by decide⟩

theorem endsCode_after : ∀ c ∈ ' ' :: mismatch.sign :: ' ' :: mismatch.digits, endsCode c = false := by
  have split : ' ' :: mismatch.sign :: ' ' :: mismatch.digits = [' ', mismatch.sign, ' '] ++ mismatch.digits := rfl
  rw [split]
  exact List.forall_mem_append.2 ⟨endsCode_signed, endsCode_digits⟩

theorem colon_not_mem_name : ':' ∉ mismatch.name := fun member => absurd (mismatch.word ':' member) (by decide +kernel)

theorem colon_not_mem_after : ':' ∉ ' ' :: mismatch.sign :: ' ' :: mismatch.digits := by
  have sign := (solid_of_operator mismatch.signed).2.2.1
  have digit : ':' ∉ mismatch.digits := fun member =>
    absurd ((solid_of_isDigits mismatch.numeral).2 ':' member).1 (by decide +kernel)
  simp [Ne.symm sign, digit]

theorem stringSpelling_front :
    mismatch.stringSpelling.front.length = mismatch.name.length + mismatch.body.length + 5 := by
  simp +arith [Spelling.length_front, stringSpelling]

variable (started : State.ofCarry carry = ⟨.code, 0⟩)

include started

theorem codeAt_stringFirst (column : Nat) : (scanLine carry mismatch.stringFirst).codeAt column =
    (decide (column < mismatch.name.length + 2) ||
      decide (mismatch.name.length + mismatch.body.length + 4 ≤ column)) := by
  have size : (mismatch.name ++ [':', ' ']).length + (quotation mismatch.body).length =
      mismatch.name.length + mismatch.body.length + 4 := by
    simp +arith [quotation]
  rw [stringFirst_eq, codeAt_around started endsCode_label mismatch.escaped endsCode_after, size, List.length_append]
  rfl

theorem uncommented_stringFirst : (scanLine carry mismatch.stringFirst).uncommented = mismatch.stringFirst := by
  rw [stringFirst_eq]
  exact uncommented_around started endsCode_label mismatch.escaped endsCode_after

theorem eq_name_of_colon {front rest : List Char} (whole : mismatch.stringFirst = front ++ ':' :: rest)
    (code : (scanLine carry mismatch.stringFirst).codeAt front.length = true) : front = mismatch.name := by
  have here : mismatch.stringFirst[front.length]? = some ':' := by
    rw [whole, getElem?_append_length, List.head?_cons]
  rw [codeAt_stringFirst started, Bool.or_eq_true, decide_eq_true_eq, decide_eq_true_eq] at code
  rcases code with early | late
  · rcases Nat.lt_trichotomy front.length mismatch.name.length with inside | same | past
    · rw [stringFirst, List.getElem?_append_left inside] at here
      exact absurd (List.mem_of_getElem? here) colon_not_mem_name
    · exact (List.append_inj (whole.symm.trans rfl) same).1
    · have next : front.length - mismatch.name.length = 1 := by omega
      rw [stringFirst, List.getElem?_append_right (Nat.le_of_lt past), next] at here
      exact absurd (Option.some.inj here) (by decide)
  · have size : (mismatch.name ++ ':' :: ' ' :: quotation mismatch.body).length =
        mismatch.name.length + mismatch.body.length + 4 := by
      simp +arith [quotation]
    have split : mismatch.stringFirst = (mismatch.name ++ ':' :: ' ' :: quotation mismatch.body) ++
        ' ' :: mismatch.sign :: ' ' :: mismatch.digits := by
      simp [stringFirst]
    rw [split, List.getElem?_append_right (by rw [size]; exact late)] at here
    exact absurd (List.mem_of_getElem? here) colon_not_mem_after

theorem ofLine?_stringFirst (stops : mismatch.body.any halts = true) :
    ofLine? (scanLine carry mismatch.stringFirst) = none := by
  by_contra found
  obtain ⟨operation, found⟩ := Option.ne_none_iff_exists'.1 found
  obtain ⟨front, spelling, whole, sound, code, -⟩ := exists_of_ofLine? found
  rw [uncommented_stringFirst started] at whole
  have cut : mismatch.stringFirst = (front ++ (spelling.label ++ spelling.gap)) ++ ':' :: spelling.value := by
    simp [whole, Spelling.text]
  have named : front ++ (spelling.label ++ spelling.gap) = mismatch.name := by
    apply eq_name_of_colon started cut
    simpa [Nat.add_assoc] using code.colon
  have value : spelling.value =
      [' '] ++ (quotation mismatch.body ++ ' ' :: mismatch.sign :: ' ' :: mismatch.digits) := by
    rw [named] at cut
    exact (List.cons.inj (List.append_cancel_left cut)).2.symm
  obtain ⟨low, high⟩ := sound.length_left value stops
  have place : front.length + spelling.front.length =
      mismatch.name.length + 1 + (spelling.lead.length + spelling.left.length) := by
    rw [← named, spelling.length_front]
    simp +arith
  have sign := code.sign
  rw [place, codeAt_stringFirst started, Bool.or_eq_true, decide_eq_true_eq, decide_eq_true_eq] at sign
  omega

theorem ofLine_stringFirst : ofLine source line (scanLine carry mismatch.stringFirst) =
    if mismatch.body.any halts then [] else
      [source.issue .error "E001" (message mismatch.operator .string .number) line (scanLine carry mismatch.stringFirst)
        (mismatch.name.length + mismatch.body.length + 5) mismatch.stringFirst.length] := by
  split_ifs with stops
  · exact ofLine_of_none (ofLine?_stringFirst started stops)
  · have plain : mismatch.body.any halts = false := by simpa using stops
    have coded : mismatch.stringSpelling.InCode (scanLine carry mismatch.stringFirst) 0 := by
      refine ⟨?_, ?_, ?_⟩
      · simp [codeAt_stringFirst started]
      · simp [codeAt_stringFirst started, stringSpelling]
      · simp +arith [codeAt_stringFirst started, stringSpelling_front]
    have first : familyOf source (mismatch.stringSpelling.operation 0).left = some .string := by
      rw [Spelling.operation, stringSpelling]
      exact (congrArg _ (trim_gap blanks_nil (by decide) _)).trans (familyOf_of_quote source _)
    have second : familyOf source (mismatch.stringSpelling.operation 0).right = some .number := by
      have uncut : (' ' :: mismatch.digits).takeWhile (· != ';') = [' '] ++ mismatch.digits := by
        refine List.takeWhile_eq_self_iff.2 (List.forall_mem_cons.2 ⟨rfl, fun c member => ?_⟩)
        simpa using (halts_eq_false.1 (halts_digits c member)).1
      rw [Spelling.operation, stringSpelling, uncut, trim_blanks_append blanks_one, trim_digits]
      exact familyOf_of_isDigits source mismatch.numeral
    rw [← stringSpelling_front]
    refine ofLine_of_spelling (sound_stringSpelling plain) (by simp [stringSpelling]) ?_ coded first second (by decide)
    rw [stringSpelling_text]
    exact uncommented_stringFirst started

end StringFirst

end Mismatch

theorem skips_eq_false {scan : Scan} {c : Char} {rest : List Char} (text : scan.text = c :: rest)
    (word : isWord c = true) (closed : scan.carryOut.inString = false) : Source.skips scan = false := by
  have semicolon : c ≠ ';' := by
    intro same
    rw [same] at word
    exact absurd word (by decide +kernel)
  have head : (trim scan.text).head? = some c := by
    rw [head?_trim, text, solids_cons, not_isBlank_of_isWord word]
    rfl
  rw [Source.skips, head, closed]
  simpa using semicolon

theorem Mismatch.skips (mismatch : Mismatch) {carry : Carry} (started : State.ofCarry carry = ⟨.code, 0⟩) :
    Source.skips (scanLine carry mismatch.numberFirst) = false ∧
      Source.skips (scanLine carry mismatch.stringFirst) = false := by
  obtain ⟨c, more, named⟩ := List.exists_cons_of_ne_nil mismatch.some_
  have word : isWord c = true := mismatch.word c (by rw [named]; exact List.mem_cons_self)
  constructor
  · apply skips_eq_false (by rw [Scan.text_scanLine, Mismatch.numberFirst, named]; rfl) word
    rw [Mismatch.numberFirst_eq]
    exact carryOut_around started endsCode_before mismatch.escaped (List.forall_mem_nil _)
  · apply skips_eq_false (by rw [Scan.text_scanLine, Mismatch.stringFirst, named]; rfl) word
    rw [Mismatch.stringFirst_eq]
    exact carryOut_around started endsCode_label mismatch.escaped endsCode_after

/-- What the rule gives on one line. -/
def reported (source : Source) (line : Nat) : List Issue := ((rule.check source).getD []).filter (·.line == line)

/-- A mismatch with the number on the left is reported at its operator, once; one with the string on the left only if
the string holds neither an operator nor a semicolon. -/
theorem reported_mismatch (mismatch : Mismatch) (text : List Char) (file : String) (catalog : Catalog) (line : Nat)
    (scan : Scan) (held : (scanText text)[line]? = some scan) (outside : scan.carryIn.inString = false) :
    let source := Source.ofScans (scanText text) file catalog
    let issue := fun left right column => source.issue .error "E001" (message mismatch.operator left right) line scan
      column scan.text.length
    (scan.text = mismatch.numberFirst → reported source line =
      [issue .number .string (mismatch.name.length + mismatch.digits.length + 3)]) ∧
    (scan.text = mismatch.stringFirst → reported source line = if mismatch.body.any halts then [] else
      [issue .string .number (mismatch.name.length + mismatch.body.length + 5)]) := by
  intro source issue
  obtain ⟨carry, text, -, -, rfl⟩ := exists_sound_scanLine Carry.sound_none (List.mem_of_getElem? held)
  have started : State.ofCarry carry = ⟨.code, 0⟩ := State.ofCarry_of_closed outside
  have lines : ∀ line scan, ∀ issue ∈ ofLine source line scan, issue.line = line :=
    fun _ _ _ member => (place_of_mem member).2.1
  constructor
  · intro same
    obtain rfl : text = mismatch.numberFirst := same
    exact (Rule.filter_byLine lines held (mismatch.skips started).1).trans (Mismatch.ofLine_numberFirst started)
  · intro same
    obtain rfl : text = mismatch.stringFirst := same
    exact (Rule.filter_byLine lines held (mismatch.skips started).2).trans (Mismatch.ofLine_stringFirst started)

/-- The sum of a string and a number, as the value of a label. -/
def sum (body : List Char) (plain : ∀ c ∈ body, c ≠ '\x22' ∧ c ≠ '\\') : Mismatch where
  name := ['x']
  body := body
  digits := ['1']
  sign := '+'
  operator := .plus
  some_ := by decide
  word := by decide
  escaped := escaped_of_forall plain
  numeral := by decide
  signed := rfl

theorem reported_mismatch_sum :
    let line := (sum ['a'] (by decide)).stringFirst
    (scanText line)[0]? = some (scanLine .none line) ∧ (scanLine .none line).carryIn.inString = false ∧
      (reported (.ofScans (scanText line) "main.art" Catalog.shipped) 0).map (·.column) = [7] := by
  intro line
  have held : (scanText line)[0]? = some (scanLine .none line) := by decide +kernel
  refine ⟨held, rfl, ?_⟩
  rw [(reported_mismatch (sum ['a'] (by decide)) line "main.art" Catalog.shipped 0 _ held rfl).2 rfl]
  rfl

/-- A hyphen in the string keeps the sum from being reported. -/
theorem reported_hyphen :
    let line := (sum ['a', '-', 'b'] (by decide)).stringFirst
    (scanText line)[0]? = some (scanLine .none line) ∧ (scanLine .none line).carryIn.inString = false ∧
      reported (.ofScans (scanText line) "main.art" Catalog.shipped) 0 = [] := by
  decide +kernel

end ArturoInsight.Operands
