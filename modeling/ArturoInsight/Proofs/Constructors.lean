import ArturoInsight.Proofs.Symbol.Grammar
import ArturoInsight.Proofs.ValueType

/-! What constructs a function: a dollar sign, or one of two words as the whole of the first name. The rules of
types only ask that no word character follows the word, so that a longer name counts as well where a hyphen or a
question mark goes on with it. -/

namespace ArturoInsight

open Text

def constructors : List (List Char) := ["function", "method"].map String.toList

/-- The value starts with a dollar sign, or its first name is one of those words. -/
def Constructs (value : List Char) : Prop :=
  (trim value).head? = some '$' ∨ ∃ word ∈ constructors, Name.Leads word (trim value)

/-- The first name of the value only starts with one of those words, and a hyphen or a question mark comes next. -/
def Continues (value : List Char) : Prop :=
  ∃ word ∈ constructors, ∃ c ∈ ['-', '?'], word ++ [c] <+: trim value

theorem exists_constructor {word : List Char} (member : word ∈ constructors) :
    ∃ first run, word = first :: run ∧ isNameStart first = true ∧ first ≠ '$' ∧ ∀ c ∈ run, isNamePart c = true := by
  have shape : ∀ word ∈ constructors, word ≠ [] ∧ (∀ c ∈ word.head?.toList, isNameStart c = true ∧ c ≠ '$') ∧
      ∀ c ∈ word.tail, isNamePart c = true := by
    decide
  obtain ⟨some_, start, parts⟩ := shape word member
  obtain ⟨first, run, rfl⟩ := List.exists_cons_of_ne_nil some_
  obtain ⟨start, other⟩ := start first List.mem_cons_self
  exact ⟨first, run, rfl, start, other, parts⟩

theorem ValueType.startsWithWord_iff {word : String} {text : List Char} : startsWithWord word text = true ↔
    ∃ rest, text = word.toList ++ rest ∧ ∀ c ∈ rest.head?, isWord c = false := by
  rw [startsWithWord_eq]
  simp only [Option.any_eq_true, after?_eq_some, Bool.not_eq_true', Option.any_eq_false,
    Option.mem_def]

theorem isFunctionValue_iff_starts (value : List Char) : isFunctionValue value = true ↔
    (trim value).head? = some '$' ∨
      ∃ word ∈ constructors, ∃ rest, trim value = word ++ rest ∧ ∀ c ∈ rest.head?, isWord c = false := by
  rw [isFunctionValue, ValueType.startsFunction, Bool.or_eq_true, Bool.or_eq_true, beq_iff_eq,
    ValueType.startsWithWord_iff, ValueType.startsWithWord_iff, or_comm]
  simp [constructors]

theorem not_constructs_of_continues {value : List Char} (continues : Continues value) : ¬ Constructs value := by
  obtain ⟨word, member, c, next, starts⟩ := continues
  obtain ⟨first, run, rfl, start, other, parts⟩ := exists_constructor member
  obtain ⟨rest, whole⟩ := starts
  rw [Constructs, ← whole]
  rintro (dollar | ⟨leading, known, leads⟩)
  · exact other (Option.some.inj dollar)
  · have apart : ∀ left ∈ constructors, ∀ right ∈ constructors, left.head? = right.head? → left = right := by
      decide
    have heads : leading.head? = (first :: run).head? := by
      obtain ⟨tail, same⟩ := leads.starts
      obtain ⟨head, body, rfl, -⟩ := exists_constructor known
      have same : some head = some first := congrArg List.head? same
      exact same
    obtain rfl := apart leading known _ member heads
    rw [List.append_assoc] at leads
    have ends := leads.ends start parts c rfl
    have goes : ∀ c ∈ ['-', '?'], isNamePart c = true ∨ c = '?' := by decide
    rcases goes c next with part | mark
    · rw [part] at ends
      exact absurd ends.1 (by decide)
    · exact ends.2 mark

theorem isFunctionValue_of_continues {value : List Char} (continues : Continues value) :
    isFunctionValue value = true := by
  obtain ⟨word, member, c, next, rest, whole⟩ := continues
  refine (isFunctionValue_iff_starts value).2 (.inr ⟨word, member, c :: rest, ?_, ?_⟩)
  · rw [← whole, List.append_assoc, List.singleton_append]
  · have plain : ∀ c ∈ ['-', '?'], isWord c = false := by decide
    simpa using plain c next

theorem constructs_or_continues {value : List Char} (function : isFunctionValue value = true) :
    Constructs value ∨ Continues value := by
  rcases (isFunctionValue_iff_starts value).1 function with dollar | ⟨word, member, rest, whole, stops⟩
  · exact .inl (.inl dollar)
  by_cases ends : ∀ c ∈ rest.head?, isNamePart c = false ∧ c ≠ '?'
  · obtain ⟨first, run, rfl, start, -, parts⟩ := exists_constructor member
    refine .inl (.inr ⟨_, member, ?_⟩)
    rw [whole]
    exact Name.leads_of_ends (.plain start parts) ends
  · right
    push Not at ends
    obtain ⟨c, head, goes⟩ := ends
    obtain ⟨tail, rfl⟩ := List.head?_eq_some_iff.1 head
    refine ⟨word, member, c, ?_, tail, by rw [whole, List.append_assoc, List.singleton_append]⟩
    by_cases part : isNamePart c = true
    · rw [eq_hyphen part (stops c rfl)]
      exact List.mem_cons_self
    · rw [goes (by simpa using part)]
      decide

theorem isFunctionValue_of_constructs {value : List Char} (ascii : ∀ c ∈ value, isAscii c = true)
    (constructs : Constructs value) : isFunctionValue value = true := by
  refine (isFunctionValue_iff_starts value).2 (constructs.imp_right ?_)
  rintro ⟨word, member, leads⟩
  obtain ⟨first, run, rfl, start, -, parts⟩ := exists_constructor member
  obtain ⟨rest, whole⟩ := leads.starts
  refine ⟨_, member, rest, whole.symm, fun c head => ?_⟩
  have inside : c ∈ value := by
    apply mem_of_mem_trim
    rw [← whole]
    exact List.mem_append_right _ (List.mem_of_mem_head? head)
  rw [← whole] at leads
  have other := (leads.ends start parts c head).1
  by_contra word
  rw [isNamePart_of_isWord (ascii c inside) (by simpa using word)] at other
  contradiction

/-- The value of a binding is taken for a function exactly when the types say so, and that is when it constructs
one or when a hyphen or a question mark goes on with the word that would. Only in the second case the two part. -/
theorem isFunctionValue_iff_constructs {value : List Char} (ascii : ∀ c ∈ value, isAscii c = true) :
    (isFunctionValue value = true ↔
        ValueType.infer value = .function ∨ ValueType.infer value = .method) ∧
      (isFunctionValue value = true ↔ Constructs value ∨ Continues value) ∧
      ((isFunctionValue value = true ↔ Constructs value) ↔ ¬ Continues value) := by
  refine ⟨isFunctionValue_iff value, ⟨constructs_or_continues, ?_⟩, ⟨fun same continues => ?_, fun stops => ?_⟩⟩
  · rintro (constructs | continues)
    · exact isFunctionValue_of_constructs ascii constructs
    · exact isFunctionValue_of_continues continues
  · exact not_constructs_of_continues continues (same.1 (isFunctionValue_of_continues continues))
  · exact ⟨fun function => (constructs_or_continues function).resolve_right stops,
      isFunctionValue_of_constructs ascii⟩

theorem isFunctionValue_iff_constructs_closure : (∀ c ∈ " $[x][x]".toList, isAscii c = true) ∧
    (isFunctionValue " $[x][x]".toList = true ↔
        ValueType.infer " $[x][x]".toList = .function ∨ ValueType.infer " $[x][x]".toList = .method) ∧
      (isFunctionValue " $[x][x]".toList = true ↔ Constructs " $[x][x]".toList ∨ Continues " $[x][x]".toList) ∧
      ((isFunctionValue " $[x][x]".toList = true ↔ Constructs " $[x][x]".toList) ↔
        ¬ Continues " $[x][x]".toList) :=
  ⟨by decide, isFunctionValue_iff_constructs (by decide)⟩

/-- A call of another builtin is taken for a method. -/
theorem method_of_question : ValueType.infer "method? x".toList = .method ∧
    isFunctionValue "method? x".toList = true ∧ ¬ Constructs "method? x".toList := by
  have goes : Continues "method? x".toList :=
    ⟨"method".toList, by decide, '?', by decide, " x".toList, by decide⟩
  exact ⟨by decide, by decide, not_constructs_of_continues goes⟩

end ArturoInsight
