import ArturoInsight.Proofs.Text.Classes
import ArturoInsight.Proofs.Text.Starts
import ArturoInsight.ValueType

/-! The rules of types agree on functions: a value is of a function's or a method's type exactly when it starts
with what constructs one. What follows the start of a value, if it goes on with no word, does not count. -/

namespace ArturoInsight

open Text

namespace ValueType

theorem startsWithWord_eq (word : String) (text : List Char) :
    startsWithWord word text = (after? word.toList text).any fun rest => !rest.head?.any isWord := by
  unfold startsWithWord
  cases after? word.toList text <;> rfl

theorem startsWithWord_append {word : String} {rest : List Char}
    (apart : ∀ c ∈ rest.head?, c ∉ word.toList ∧ isWord c = false) (text : List Char) :
    startsWithWord word (text ++ rest) = startsWithWord word text := by
  rw [startsWithWord_eq, startsWithWord_eq, after?_append fun c head => (apart c head).1, Option.any_map]
  congr 1
  funext tail
  cases tail with
  | nil =>
    cases rest with
    | nil => rfl
    | cons c rest => simp [(apart c rfl).2]
  | cons c tail => rfl

theorem not_isWord_of_blanks {gap : List Char} (blanks : Blanks gap) : ∀ c ∈ gap.head?, isWord c = false :=
  fun c head => not_isWord_of_isBlank (blanks c (List.mem_of_mem_head? head))

theorem startsWithWord_trimEnd {word : String} (solid : ∀ c ∈ word.toList, isBlank c = false) (text : List Char) :
    startsWithWord word (trimEnd text) = startsWithWord word text := by
  obtain ⟨gap, blanks, whole⟩ := exists_trimEnd text
  conv_rhs => rw [whole]
  exact (startsWithWord_append (fun c head => ⟨not_mem_of_blanks solid blanks c head,
    not_isWord_of_blanks blanks c head⟩) _).symm

theorem startsFunction_append {rest : List Char} (stops : ∀ c ∈ rest.head?, isWord c = false ∧ c ≠ '$')
    (text : List Char) : startsFunction (text ++ rest) = startsFunction text := by
  have apart {word : String} (letters : ∀ c ∈ word.toList, isWord c = true) :
      ∀ c ∈ rest.head?, c ∉ word.toList ∧ isWord c = false := by
    intro c head
    refine ⟨fun inside => ?_, (stops c head).1⟩
    have other := (stops c head).1
    rw [letters c inside] at other
    contradiction
  have dollar : ((text ++ rest).head? == some '$') = (text.head? == some '$') := by
    cases text with
    | nil =>
      cases rest with
      | nil => rfl
      | cons c rest => simpa using (stops c rfl).2
    | cons c text => rfl
  unfold startsFunction
  rw [startsWithWord_append (apart (by decide)), startsWithWord_append (apart (by decide)), dollar]

theorem startsFunction_trimEnd (text : List Char) : startsFunction (trimEnd text) = startsFunction text := by
  obtain ⟨gap, blanks, whole⟩ := exists_trimEnd text
  conv_rhs => rw [whole]
  refine (startsFunction_append (fun c head => ⟨not_isWord_of_blanks blanks c head, ?_⟩) _).symm
  rintro rfl
  exact absurd (blanks '$' (List.mem_of_mem_head? head)) (by decide)

section Digits

variable {c : Char} (digit : isDigit c = false)

include digit

theorem not_isDigits_cons (rest : List Char) : Literal.isDigits (c :: rest) = false := by
  simp [Literal.isDigits, digit]

theorem not_isSplitDigits_cons {mark : Char} (other : c ≠ mark) (rest : List Char) :
    Literal.isSplitDigits mark (c :: rest) = false := by
  have takes : (c :: rest).takeWhile (· != mark) = c :: rest.takeWhile (· != mark) :=
    List.takeWhile_cons_of_pos (by simpa using other)
  unfold Literal.isSplitDigits upTo?
  rw [takes]
  cases (c :: rest).dropWhile (· != mark) with
  | nil => rfl
  | cons d more => simp [not_isDigits_cons digit]

end Digits

theorem infer_of_quote (rest : List Char) : infer ('\x22' :: rest) = .string := by
  have digit : isDigit '\x22' = false := by decide +kernel
  have trimmed : trim ('\x22' :: rest) = '\x22' :: trimEnd rest := trim_gap blanks_nil (by decide) rest
  rw [infer, trimmed]
  generalize trimEnd rest = rest
  have logical : String.ofList ('\x22' :: rest) ∉ ["true", "false", "maybe"] := by
    intro member
    have others : ∀ word ∈ ["true", "false", "maybe"], word.toList.head? ≠ some '\x22' := by decide
    have other := others _ member
    rw [String.toList_ofList] at other
    contradiction
  have integer : Literal.isInteger ('\x22' :: rest) = false := not_isDigits_cons digit rest
  have floating : Literal.isFloating ('\x22' :: rest) = false := not_isSplitDigits_cons digit (by decide) rest
  have rational := not_isSplitDigits_cons digit (by decide : '\x22' ≠ ':') rest
  simp only [ofTrimmed, integer, floating, rational, List.contains_iff_mem, logical]
  simp

theorem solid_of_isDigits {text : List Char} (digits : Literal.isDigits text = true) :
    text ≠ [] ∧ ∀ c ∈ text, isDigit c = true ∧ isBlank c = false := by
  simp only [Literal.isDigits, Bool.and_eq_true, Bool.not_eq_true', List.isEmpty_eq_false_iff,
    List.all_eq_true] at digits
  obtain ⟨some_, all⟩ := digits
  exact ⟨some_, fun c member => ⟨all c member, not_isBlank_of_isWord (isWord_of_isDigit (all c member))⟩⟩

theorem infer_of_isDigits {text : List Char} (digits : Literal.isDigits text = true) : infer text = .integer := by
  obtain ⟨some_, solid⟩ := solid_of_isDigits digits
  have unsigned : Literal.unsigned text = text := by
    unfold Literal.unsigned
    split
    next rest =>
      have minus := (solid '-' List.mem_cons_self).1
      exact absurd minus (by decide +kernel)
    next => rfl
  have trimmed : trim text = text := trim_of_solid fun c member => (solid c member).2
  rw [infer, trimmed, ofTrimmed, Literal.isInteger, unsigned, digits, if_pos rfl]

theorem exists_of_startsWithWord {word : String} {text : List Char} (starts : startsWithWord word text = true) :
    ∃ rest, text = word.toList ++ rest := by
  unfold startsWithWord at starts
  split at starts
  next rest found => exact ⟨rest, after?_eq_some.1 found⟩
  next => contradiction

theorem exists_of_startsFunction {text : List Char} (starts : startsFunction text = true) :
    ∃ c ∈ ['f', 'm', '$'], ∃ rest, text = c :: rest := by
  rw [startsFunction, Bool.or_eq_true, Bool.or_eq_true, beq_iff_eq] at starts
  obtain (function | method) | dollar := starts
  · obtain ⟨rest, rfl⟩ := exists_of_startsWithWord function
    exact ⟨'f', by decide, _, rfl⟩
  · obtain ⟨rest, rfl⟩ := exists_of_startsWithWord method
    exact ⟨'m', by decide, _, rfl⟩
  · obtain ⟨rest, rfl⟩ := List.head?_eq_some_iff.1 dollar
    exact ⟨'$', by decide, rest, rfl⟩

theorem ofTrimmed_of_startsFunction {text : List Char} (starts : startsFunction text = true) :
    ofTrimmed text = if startsWithWord "method" text then .method else .function := by
  have words : ∀ word ∈ ["true", "false", "maybe", "null"], startsFunction word.toList = false := by decide
  have logical : ["true", "false", "maybe"].contains (String.ofList text) = false := by
    by_contra word
    rw [Bool.not_eq_false] at word
    have member := List.contains_iff_mem.1 word
    have fails := words _ (List.mem_append_left ["null"] member)
    rw [String.toList_ofList, starts] at fails
    contradiction
  have null : (text == "null".toList) = false := by
    by_contra word
    have same : text = "null".toList := by simpa using word
    rw [same, words "null" (by decide)] at starts
    contradiction
  obtain ⟨c, first, rest, rfl⟩ := exists_of_startsFunction starts
  have plain : ∀ c ∈ ['f', 'm', '$'], isDigit c = false ∧
      c ∉ ['-', '.', ':', '\x22', '\x7b', '«', '\x60', '#', '[', '\x27'] := by
    decide
  obtain ⟨digit, other⟩ := plain c first
  simp only [List.mem_cons, List.not_mem_nil, or_false, not_or] at other
  have unsigned : Literal.unsigned (c :: rest) = c :: rest := by
    unfold Literal.unsigned
    split
    next same => exact absurd (List.cons.inj same).1 other.1
    next => rfl
  have integer : Literal.isInteger (c :: rest) = false := by
    rw [Literal.isInteger, unsigned, not_isDigits_cons digit]
  have floating : Literal.isFloating (c :: rest) = false := by
    rw [Literal.isFloating, unsigned, not_isSplitDigits_cons digit other.2.1]
  have rational := not_isSplitDigits_cons digit other.2.2.1 rest
  have character : isCharacter (c :: rest) = false := by
    unfold isCharacter
    split
    next same => simp [← (List.cons.inj same).1, other]
    next => rfl
  have dictionary : "#[".toList.isPrefixOf (c :: rest) = false := by
    simp [List.isPrefixOf, Ne.symm other.2.2.2.2.2.2.2.1]
  simp only [ofTrimmed, integer, floating, rational, logical, null, character, dictionary, starts, other,
    List.head?_cons, Option.some_beq_some, beq_iff_eq, Bool.or_eq_true, Bool.false_eq_true, or_self, if_false, if_true]

theorem not_mem_of_ofTrimmed {text : List Char} (fails : startsFunction text = false) :
    ofTrimmed text ∉ [.function, .method] := by
  have other : startsWithWord "method" text = false := by
    rw [startsFunction, Bool.or_eq_false_iff, Bool.or_eq_false_iff] at fails
    exact fails.1.2
  have rule {p : Prop} [Decidable p] {first later : ValueType} (plain : first ∉ [function, method])
      (others : later ∉ [function, method]) : (if p then first else later) ∉ [function, method] := by
    split_ifs <;> assumption
  simp only [ofTrimmed, other, fails, Bool.false_eq_true, if_false]
  repeat apply rule (by decide)
  decide

theorem startsFunction_iff (text : List Char) :
    startsFunction text = true ↔ ofTrimmed text = .function ∨ ofTrimmed text = .method := by
  constructor
  · intro starts
    rw [ofTrimmed_of_startsFunction starts]
    split_ifs
    · exact .inr rfl
    · exact .inl rfl
  · intro function
    by_contra fails
    exact not_mem_of_ofTrimmed (by simpa using fails) (by simpa using function)

end ValueType

theorem isFunctionValue_iff (value : List Char) : isFunctionValue value = true ↔
    ValueType.infer value = .function ∨ ValueType.infer value = .method :=
  ValueType.startsFunction_iff (trim value)

theorem isFunctionValue_append {rest : List Char}
    (stops : ∀ c ∈ rest.head?, isBlank c = false ∧ isWord c = false ∧ c ≠ '$') (text : List Char) :
    isFunctionValue (trim (text ++ rest)) = isFunctionValue text := by
  have started : trimStart (text ++ rest) = trimStart text ++ rest :=
    (takeWhile_append_stop text fun c head => (stops c head).1).2
  calc isFunctionValue (trim (text ++ rest))
      = ValueType.startsFunction (trim (text ++ rest)) := by rw [isFunctionValue, trim_trim]
    _ = ValueType.startsFunction (trimStart text ++ rest) := by
        rw [trim, ValueType.startsFunction_trimEnd, started]
    _ = ValueType.startsFunction (trimStart text) :=
        ValueType.startsFunction_append (fun c head => (stops c head).2) _
    _ = isFunctionValue text := (ValueType.startsFunction_trimEnd _).symm

end ArturoInsight
