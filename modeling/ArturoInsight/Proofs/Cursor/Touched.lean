import ArturoInsight.Proofs.Cursor.Word

/-! The word that a cursor touches: how it is spelled and where it stands. It is found from every place in it, and a
letter, a digit or an underscore is always in the word that a cursor behind it finds. -/

namespace ArturoInsight

open Text Lexical

namespace WordSpan

/-- A span has a word of the line as it stands there, from its first letter, digit or underscore on. -/
structure Covers (span : WordSpan) (text : List Char) : Prop where
  held : text.extract span.start span.stop = span.word
  spelled : ∃ first rest mark, span.word = first :: rest ++ mark ∧ isAsciiWord first = true ∧
    (∀ c ∈ rest, isNamePart c = true) ∧ (mark = [] ∨ mark = ['?'])
  opens : ∀ c ∈ span.before? text, isAsciiWord c = false

end WordSpan

section Spelling

theorem isAsciiWord_of_isNamePart {c : Char} (part : isNamePart c = true) (other : c ≠ '-') : isAsciiWord c = true := by
  simpa [isNamePart, other] using part

theorem not_isAsciiWord_of_not_isNamePart {c : Char} (other : isNamePart c = false) : isAsciiWord c = false := by
  simp only [isNamePart, Bool.or_eq_false_iff] at other
  exact other.1

variable {front signs word back : List Char} (stands : SignedWord front signs word back)

include stands

theorem SignedWord.spelled : ∃ first rest mark, word = first :: rest ++ mark ∧ isAsciiWord first = true ∧
    (∀ c ∈ rest, isNamePart c = true) ∧ (mark = [] ∨ mark = ['?']) := by
  obtain ⟨run, mark, rfl, some_, parts, ends⟩ := taken_iff_exists_ends.1 stands.taken
  obtain ⟨first, rest, rfl⟩ := List.exists_cons_of_ne_nil some_
  obtain ⟨part, parts⟩ := List.forall_mem_cons.1 parts
  have other : first ≠ '-' := fun minus => stands.starts (by rw [minus]; rfl)
  exact ⟨first, rest, mark, rfl, isAsciiWord_of_isNamePart part other, parts, ends.symm.imp_left And.left⟩

theorem SignedWord.not_isAsciiWord : ∀ c ∈ (front ++ signs).getLast?, isAsciiWord c = false := by
  intro c last
  obtain rfl | ⟨signs, sign, rfl⟩ := List.eq_nil_or_concat' signs
  · rw [List.append_nil] at last
    exact not_isAsciiWord_of_not_isNamePart (stands.left c last)
  · rw [← List.append_assoc, List.getLast?_concat, Option.mem_some_iff] at last
    rw [← last, stands.signs sign (by simp)]
    decide

theorem SignedWord.covers (line : Nat) :
    WordSpan.Covers ⟨word, line, front.length + signs.length⟩ (front ++ (signs ++ (word ++ back))) := by
  refine ⟨?_, stands.spelled, ?_⟩
  · rw [WordSpan.stop, ← List.append_assoc, ← List.length_append]
    simp
  · rw [← List.append_assoc, WordSpan.before?_append List.length_append.symm]
    exact stands.not_isAsciiWord

end Spelling

section Found

theorem exists_ofRun? {lead rest : List Char} {c : Char} (letter : isAsciiWord c = true) (line place : Nat) :
    ∃ span, WordSpan.ofRun? line place (lead ++ c :: rest) = some span ∧ span.start ≤ place + lead.length ∧
      place + lead.length < span.stop := by
  obtain ⟨signs, tail, rfl, signed, stops⟩ := exists_run (· == '-') lead
  have minus : (c == '-') = false := by
    rw [beq_eq_false_iff_ne]
    rintro rfl
    exact absurd letter (by decide)
  have starts : ∀ d ∈ (tail ++ c :: rest).head?, (d == '-') = false := by
    cases tail with
    | nil => simpa using minus
    | cons d tail => exact stops
  have other : tail ++ c :: rest ≠ ['?'] := by
    intro mark
    have inside : c ∈ ['?'] := mark ▸ List.mem_append_right tail List.mem_cons_self
    rw [List.mem_singleton.1 inside] at letter
    exact absurd letter (by decide)
  refine ⟨⟨tail ++ c :: rest, line, place + signs.length⟩, ?_, ?_, ?_⟩
  · rw [List.append_assoc, WordSpan.ofRun?, dropWhile_run signed starts, if_neg (by simpa using other),
      List.length_append, Nat.add_sub_cancel]
  · simp only [List.length_append]
    omega
  · simp only [WordSpan.stop, List.length_append, List.length_cons]
    omega

variable {text : List Char} (feeds : '\n' ∉ text) {line : Nat}

include feeds

theorem wordAt_of_wordAt {character : Int} {span : WordSpan} (found : wordAt text character line = some span) :
    span.Covers text ∧ span.line = line ∧
      ∀ other : Int, span.start < other → other ≤ span.stop → wordAt text other line = some span := by
  obtain ⟨front, signs, back, stands, rfl, place, -, -⟩ := exists_of_wordAt feeds found
  rw [WordSpan.stop, place]
  refine ⟨stands.covers line, rfl, fun other low high => ?_⟩
  have feeds : front.getLast? ≠ some '\n' := fun last => feeds (List.mem_append_left _ (List.mem_of_getLast? last))
  obtain ⟨cursor, rfl⟩ := Int.eq_ofNat_of_zero_le (a := other) (by omega)
  dsimp only at low high
  exact stands.wordAt_eq feeds (by omega) (by omega) (fun same => by omega) line

theorem exists_wordAt {place : Nat} {c : Char} (held : text[place]? = some c) (letter : isAsciiWord c = true)
    (line : Nat) :
    ∃ span, wordAt text (place + 1 : Nat) line = some span ∧ span.start ≤ place ∧ place < span.stop := by
  obtain ⟨before, after, rfl, rfl⟩ : ∃ before after, text = (before ++ [c]) ++ after ∧ place = before.length := by
    obtain ⟨inside, rfl⟩ := List.getElem?_eq_some_iff.1 held
    exact ⟨text.take place, text.drop (place + 1), by simp, by simp [Nat.le_of_lt inside]⟩
  obtain ⟨front, run, mark, back, around⟩ := exists_around (fun feed => feeds (List.mem_append_left after feed)) after
  obtain ⟨lead, rfl⟩ : front <+: before := by
    have bounds : front <+: before ++ [c] :=
      List.prefix_of_prefix_length_le ⟨_, around.whole.symm⟩ (List.prefix_append _ after) around.low
    refine (List.prefix_concat_iff.1 bounds).resolve_left ?_
    rintro rfl
    have part := (around.left c List.getLast?_concat).1
    rw [Name.isNamePart_of_isAsciiWord c letter] at part
    contradiction
  obtain ⟨rest, read⟩ : lead ++ [c] <+: run ++ mark := by
    have whole : (lead ++ [c]) ++ after = (run ++ mark) ++ back := by
      have whole := around.whole
      rw [List.append_assoc front, List.append_assoc front] at whole
      simpa using List.append_cancel_left whole
    have high := around.high
    simp only [List.length_append, List.length_singleton] at high
    refine List.prefix_of_prefix_length_le (List.prefix_append _ after) ⟨back, whole.symm⟩ ?_
    simp only [List.length_append, List.length_singleton]
    omega
  obtain ⟨span, covers, low, high⟩ := @exists_ofRun? lead rest c letter line front.length
  refine ⟨span, ?_, by rwa [List.length_append], by rwa [List.length_append]⟩
  have reads := around.reads line
  rwa [← read, List.append_assoc lead, List.singleton_append, covers, List.length_append, List.length_singleton]
    at reads

end Found

/-- In a line without line feeds the word that a cursor finds is found by every cursor in it or directly behind it.
It stands in the line, is spelled as a word, and nothing that a word may start with is before it. No letter, digit or
underscore is left out: the cursor behind it finds a word that it is in. -/
theorem wordAt_anywhere {text : List Char} (feeds : '\n' ∉ text) (line : Nat) :
    (∀ (character : Int) span, wordAt text character line = some span → span.Covers text ∧ span.line = line ∧
      ∀ other : Int, span.start < other → other ≤ span.stop → wordAt text other line = some span) ∧
    ∀ (place : Nat) c, text[place]? = some c → isAsciiWord c = true →
      ∃ span, wordAt text (place + 1 : Nat) line = some span ∧ span.start ≤ place ∧ place < span.stop :=
  ⟨fun _ _ found => wordAt_of_wordAt feeds found, fun _ _ held letter => exists_wordAt feeds held letter line⟩

/-- A cursor on the minus signs finds the same as one in front of the question mark. -/
theorem wordAt_anywhere_signed : '\n' ∉ "x: --key-2?".toList ∧
    wordAt "x: --key-2?".toList 4 0 = some ⟨"key-2?".toList, 0, 5⟩ ∧
    (⟨"key-2?".toList, 0, 5⟩ : WordSpan).Covers "x: --key-2?".toList ∧
    wordAt "x: --key-2?".toList 10 0 = some ⟨"key-2?".toList, 0, 5⟩ := by
  have feeds : '\n' ∉ "x: --key-2?".toList := by decide
  have found : wordAt "x: --key-2?".toList 4 0 = some ⟨"key-2?".toList, 0, 5⟩ := by decide
  obtain ⟨covers, -, anywhere⟩ := (wordAt_anywhere feeds 0).1 4 _ found
  exact ⟨feeds, found, covers, anywhere 10 (by decide) (by decide)⟩

end ArturoInsight
