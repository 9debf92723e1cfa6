import ArturoInsight.Proofs.Cursor.Use
import ArturoInsight.Proofs.Lint.Operation
import ArturoInsight.Proofs.Lint.Order
import ArturoInsight.Proofs.Lint.Uses

/-! Where an operator is reported. It stands in code, between a number and a string; and a word of the line covers it
exactly if it is a hyphen and a letter or digit comes directly before it. -/

namespace ArturoInsight

open Text Lexical

namespace Undefined

/-- A word of a text covers a column. -/
def Covers (text : List Char) (column : Nat) : Prop :=
  ∃ found ∈ finds use text, found.start ≤ column ∧ column < found.stop

variable {front back : List Char} {sign : Char}

theorem before_of_covers (covers : Covers (front ++ sign :: back) front.length)
    (signed : sign ∈ ['+', '-', '*', '/']) : sign = '-' ∧ ∃ c ∈ front.getLast?, isNamePart c = true := by
  obtain ⟨found, member, low, high⟩ := covers
  obtain ⟨before, tail, stands⟩ := exists_stands member
  have plain : IsPlain found.value.word := stands.taken.before (by simp)
  rw [stands.start] at low
  rw [stands.stop] at high
  have char (place : Nat) (inside : place < found.value.word.length) :
      (front ++ sign :: back)[before.length + place]? = some found.value.word[place] := by
    rw [stands.whole, getElem?_append_within inside]
  obtain ⟨place, same⟩ := Nat.exists_eq_add_of_le low
  have inside : place < found.value.word.length := by omega
  have here := char place inside
  rw [← same, getElem?_append_length, List.head?_cons] at here
  have sign_eq : sign = found.value.word[place] := Option.some.inj here
  have hyphen : sign = '-' := by
    have only : ∀ c ∈ ['+', '-', '*', '/'], isNamePart c = true ∨ c = '?' → c = '-' := by decide
    apply only sign signed
    rw [sign_eq]
    exact plain.part (List.getElem_mem inside)
  refine ⟨hyphen, ?_⟩
  cases place with
  | zero =>
    have first := stands.first
    rw [List.head?_eq_getElem?, List.getElem?_eq_getElem inside, Option.any_some, ← sign_eq, hyphen] at first
    exact absurd first (by decide)
  | succ place =>
    have earlier : place < found.value.word.length := Nat.lt_of_succ_lt inside
    refine ⟨found.value.word[place], ?_, plain.isNamePart_of_lt inside⟩
    have last := char place earlier
    rw [List.getElem?_append_left (by omega)] at last
    rw [List.getLast?_eq_getElem?, same]
    exact last

theorem covers_iff (signed : sign ∈ ['+', '-', '*', '/']) (single : front.getLast? ≠ some '-') :
    Covers (front ++ sign :: back) front.length ↔ sign = '-' ∧ ∃ c ∈ front.getLast?, isAsciiWord c = true := by
  constructor
  · intro covers
    obtain ⟨hyphen, c, last, part⟩ := before_of_covers covers signed
    refine ⟨hyphen, c, last, ?_⟩
    rcases Bool.or_eq_true_iff.1 part with letter | same
    · exact letter
    · rw [beq_iff_eq.1 same] at last
      exact absurd last single
  · intro behind
    obtain ⟨hyphen, c, last, letter⟩ := behind
    obtain ⟨front, rfl⟩ := List.getLast?_eq_some_iff.1 last
    obtain ⟨found, member, low, -, next⟩ := exists_covering letter front (sign :: back)
    have further := next ⟨sign, rfl, by rw [hyphen]; decide⟩
    refine ⟨found, by simpa using member, ?_, ?_⟩
    · rw [List.length_append]
      omega
    · rw [List.length_append]
      exact further

end Undefined

namespace Operands

variable {source : Source} {spelling : Spelling}

theorem familyOf_eq_none {operand : List Char} (bare : operand ∈ [[], ['-']]) : familyOf source operand = none := by
  have own : ∀ text ∈ [[], ['-']], ValueType.infer text = .any ∧ Name.isIdentifier text = false := by decide +kernel
  obtain ⟨any, other⟩ := own operand bare
  simp [familyOf, operandType, any, other, Family.ofType?, ValueType.isNumeric]

theorem Spelling.Sound.getLast?_front (sound : spelling.Sound) {family : Family}
    (left : familyOf source (trim spelling.left) = some family) : spelling.front.getLast? ≠ some '-' := by
  intro last
  have whole : spelling.front = (spelling.label ++ (spelling.gap ++ ':' :: spelling.lead)) ++ spelling.left := by
    simp [Spelling.front]
  cases parts : spelling.left with
  | nil =>
    rw [parts, show trim [] = [] from rfl, familyOf_eq_none (by decide)] at left
    contradiction
  | cons first more =>
    rw [whole, List.getLast?_append_of_ne_nil _ (by rw [parts]; simp), parts] at last
    cases more with
    | nil =>
      obtain rfl : first = '-' := by simpa using last
      rw [parts, show trim ['-'] = ['-'] from rfl, familyOf_eq_none (by decide)] at left
      contradiction
    | cons second more =>
      rw [List.getLast?_cons_cons] at last
      have passed := sound.later '-' (by rw [parts]; exact List.mem_of_getLast? last)
      exact absurd passed (by decide)

theorem covers_sign_iff {scan : Scan} {front : List Char} (sound : spelling.Sound) {family : Family}
    (left : familyOf source (trim spelling.left) = some family) (whole : scan.uncommented = front ++ spelling.text) :
    Undefined.Covers scan.uncommented (front.length + spelling.front.length) ↔
      scan.text[front.length + spelling.front.length]? = some '-' ∧
        ∃ c ∈ scan.text[front.length + spelling.front.length - 1]?, isAsciiWord c = true := by
  obtain ⟨rest, text⟩ := Spelling.exists_rest whole
  have some_ : spelling.front ≠ [] := by simp [Spelling.front]
  have last : (front ++ spelling.front).getLast? = spelling.front.getLast? := List.getLast?_append_of_ne_nil _ some_
  have single : (front ++ spelling.front).getLast? ≠ some '-' := by
    rw [last]
    exact sound.getLast?_front left
  have before : scan.text[(front ++ spelling.front).length - 1]? = (front ++ spelling.front).getLast? := by
    have positive : 0 < (front ++ spelling.front).length :=
      List.length_pos_iff.2 (List.append_ne_nil_of_right_ne_nil _ some_)
    rw [text, List.getElem?_append_left (by omega), List.getLast?_eq_getElem?]
  have here : scan.text[(front ++ spelling.front).length]? = some spelling.sign := by
    rw [text, getElem?_append_length, List.head?_cons]
  rw [← List.length_append, before, here, whole, spelling.text_eq, ← List.append_assoc,
    Undefined.covers_iff (mem_signs (operator?_eq_some.1 sound.sign).1) single, Option.some.injEq]

end Operands

/-- What is reported of operators is code between a number and a string; a word covers it exactly if it is a hyphen
behind a letter or digit. -/
theorem operator_covered_iff (text : List Char) (file : String) (catalog : Catalog) :
    let source := Source.ofScans (scanText text) file catalog
    ∀ issue ∈ Linter.found Linter.defaultRules source, issue.code = "E001" → ∃ scan operation,
      source.scans[issue.line]? = some scan ∧ Operands.Reported source scan issue operation ∧
        (Undefined.Covers scan.uncommented issue.column ↔ scan.text[issue.column]? = some '-' ∧
          ∃ c ∈ scan.text[issue.column - 1]?, isAsciiWord c = true) := by
  intro source issue member code
  obtain ⟨line, scan, held, -, member⟩ := Linter.mem_found_operands.1 ⟨member, code⟩
  obtain ⟨front, spelling, whole, sound, reported⟩ := Operands.exists_of_mem_ofLine member
  obtain ⟨left, right, family, -⟩ := reported.families
  refine ⟨scan, _, ?_, reported, ?_⟩
  · rwa [(Operands.place_of_mem member).2.1]
  · rw [reported.column]
    exact Operands.covers_sign_iff sound family whole

/-- A document with one operation, whose operator is no hyphen in a word. -/
theorem operator_covered_iff_spaced :
    let source := Source.ofScans (scanText "x: 1 - \"a\"".toList) "main.art" Catalog.shipped
    ∃ issue ∈ Linter.found Linter.defaultRules source, issue.code = "E001" ∧ ∃ scan ∈ source.scans[issue.line]?,
      ¬ Undefined.Covers scan.uncommented issue.column := by
  intro source
  have reported : ∃ issue ∈ Linter.found Linter.defaultRules source, issue.code = "E001" ∧
      ∃ scan ∈ source.scans[issue.line]?, scan.text[issue.column - 1]? = some ' ' := by decide +kernel
  obtain ⟨issue, member, code, scan, held, space⟩ := reported
  obtain ⟨other, operation, same, -, covered⟩ :=
    operator_covered_iff "x: 1 - \"a\"".toList "main.art" Catalog.shipped issue member code
  obtain rfl : other = scan := Option.some.inj (same.symm.trans held)
  refine ⟨issue, member, code, other, held, fun covers => ?_⟩
  obtain ⟨-, c, before, letter⟩ := covered.1 covers
  rw [← Option.some.inj (space.symm.trans before)] at letter
  exact absurd letter (by decide)

/-- A name with a hyphen in it, bound and used, is taken for a subtraction of what its two halves name. -/
theorem operator_in_name :
    let source := Source.ofScans (scanText "a: \"x\"\na-1: 2\nb: a-1".toList) "main.art" Catalog.shipped
    ∃ issue ∈ Linter.found Linter.defaultRules source, issue.code = "E001" ∧ ∃ scan ∈ source.scans[issue.line]?,
      ∃ found ∈ finds Undefined.use scan.uncommented, found.start ≤ issue.column ∧ issue.column < found.stop ∧
        source.symbols.has found.value.word = true := by
  decide +kernel

end ArturoInsight
