import ArturoInsight.Proofs.Cursor.Parameters
import ArturoInsight.Proofs.Symbol.Grammar

/-! The parameters of a function, written as names and types with blanks between them. Every name is read, in
their order. A type leaves nothing unless small letters start it and do not fill it: what follows them is read as
one more parameter. -/

namespace ArturoInsight

open Text
open Pattern (functionLead parameterBlock_eq)

section Words

theorem words_append_blank {c : Char} (blank : isBlank c = true) {word : List Char} (some_ : word ≠ [])
    (solid : ∀ c ∈ word, isBlank c = false) (rest : List Char) : words (word ++ c :: rest) = word :: words rest := by
  simp [words, pieces_append_cut blank solid, some_]

theorem words_cons_blank {c : Char} (blank : isBlank c = true) (rest : List Char) :
    words (c :: rest) = words rest := by
  simp [words, pieces_cons_of_cut blank]

theorem words_gap {gap : List Char} (blanks : Blanks gap) (rest : List Char) : words (gap ++ rest) = words rest := by
  induction gap with
  | nil => rfl
  | cons c gap ih =>
    obtain ⟨here, later⟩ := List.forall_mem_cons.1 blanks
    rw [List.cons_append, words_cons_blank here, ih later]

theorem words_solid {word : List Char} (some_ : word ≠ []) (solid : ∀ c ∈ word, isBlank c = false) :
    words word = [word] := by
  simp [words, pieces_of_forall_not_cut solid, some_]

theorem words_append {word rest : List Char} (some_ : word ≠ []) (solid : ∀ c ∈ word, isBlank c = false)
    (apart : ∀ c ∈ rest.head?, isBlank c = true) : words (word ++ rest) = word :: words rest := by
  cases rest with
  | nil =>
    rw [List.append_nil, words_solid some_ solid]
    rfl
  | cons c rest =>
    have blank : isBlank c = true := apart c rfl
    rw [words_append_blank blank some_ solid, words_cons_blank blank]

end Words

/-- A word among the parameters of a function: a name, or the type of the name before it. -/
inductive ParameterWord where
  | name (text : List Char) (formed : Name.Formed text)
  | type (letters : List Char) (some_ : letters ≠ [])
      (plain : ∀ c ∈ letters, isAsciiLetter c = true ∨ isAsciiDigit c = true)

namespace ParameterWord

def text : ParameterWord → List Char
  | name text .. => text
  | type letters .. => ':' :: letters

def name? : ParameterWord → Option (List Char)
  | name text .. => some text
  | type .. => none

/-- What follows the small letters that start a type. -/
def remainder : ParameterWord → List Char
  | name .. => []
  | type letters .. => if letters.head?.any isLower then letters.dropWhile isLower else []

/-- What is read of the word as a parameter. -/
def read? (word : ParameterWord) : Option (List Char) :=
  word.name?.or (if word.remainder = [] then none else some word.remainder)

theorem isNamePart_of_plain {c : Char} (plain : isAsciiLetter c = true ∨ isAsciiDigit c = true) :
    isNamePart c = true := by
  rcases plain with letter | digit
  · simp [isNamePart, isAsciiWord, letter]
  · simp [isNamePart, isAsciiWord, digit]

theorem text_ne_nil (word : ParameterWord) : word.text ≠ [] := by
  cases word with
  | name text formed => cases formed <;> simp [ParameterWord.text]
  | type => simp [ParameterWord.text]

theorem mem_text {word : ParameterWord} {c : Char} (member : c ∈ word.text) :
    isNamePart c = true ∨ c = '?' ∨ c = ':' := by
  cases word with
  | name text formed => exact (formed.part member).imp_right .inl
  | type letters some_ plain =>
    rcases List.mem_cons.1 member with colon | inside
    · exact .inr (.inr colon)
    · exact .inl (isNamePart_of_plain (plain c inside))

theorem solid {word : ParameterWord} : ∀ c ∈ word.text, isBlank c = false := by
  intro c member
  obtain part | rfl | rfl := mem_text member
  · exact Name.not_isBlank_of_isNamePart part
  · decide
  · decide

end ParameterWord

/-- A text that spells words, with blanks between them and perhaps around them. -/
inductive Spells : List ParameterWord → List Char → Prop where
  | blank {gap : List Char} : Blanks gap → Spells [] gap
  | word {gap rest : List Char} {words : List ParameterWord} (word : ParameterWord) : Blanks gap →
      (∀ c ∈ rest.head?, isBlank c = true) → Spells words rest → Spells (word :: words) (gap ++ (word.text ++ rest))

theorem Spells.last (word : ParameterWord) : Spells [word] word.text := by
  simpa using Spells.word word blanks_nil (by simp) (.blank blanks_nil)

theorem Spells.front {words : List ParameterWord} {block : List Char} (word : ParameterWord)
    (spells : Spells words block) : Spells (word :: words) (word.text ++ ' ' :: block) := by
  have blank : isBlank ' ' = true := by decide
  have padded : Spells words (' ' :: block) := by
    cases spells with
    | blank blanks => exact .blank (List.forall_mem_cons.2 ⟨blank, blanks⟩)
    | word word blanks apart more => exact .word word (List.forall_mem_cons.2 ⟨blank, blanks⟩) apart more
  exact .word word blanks_nil (by simpa using blank) padded

theorem Spells.words_eq {parameters : List ParameterWord} {block : List Char} (spells : Spells parameters block) :
    words block = parameters.map ParameterWord.text := by
  induction spells with
  | blank blanks => simpa [words, pieces] using words_gap blanks []
  | word word blanks apart _ ih =>
    rw [words_gap blanks, words_append word.text_ne_nil ParameterWord.solid apart, ih, List.map_cons]

theorem Spells.ne_bracket {parameters : List ParameterWord} {block : List Char} (spells : Spells parameters block) :
    ∀ c ∈ block, c ≠ ']' := by
  have other {gap : List Char} (blanks : Blanks gap) : ∀ c ∈ gap, c ≠ ']' := by
    rintro _ member rfl
    exact absurd (blanks ']' member) (by decide)
  induction spells with
  | blank blanks => exact other blanks
  | word word blanks _ _ ih =>
    refine List.forall_mem_append.2 ⟨other blanks, List.forall_mem_append.2 ⟨?_, ih⟩⟩
    rintro _ member rfl
    obtain part | mark | colon := ParameterWord.mem_text member
    · exact absurd part (by decide)
    · exact absurd mark (by decide)
    · exact absurd colon (by decide)

theorem parameterBlock_none {before : Option Char} {c : Char} (other : c ∉ ['f', 'm', '$']) (rest : List Char) :
    parameterBlock before (c :: rest) = none := by
  simp only [List.mem_cons, List.not_mem_nil, or_false, not_or] at other
  obtain ⟨function, method, dollar⟩ := other
  have nothing : functionLead before (c :: rest) = none := by
    simp [functionLead, keyword?, after?, Ne.symm function, Ne.symm method, Ne.symm dollar]
  rw [parameterBlock_eq, nothing]
  rfl

theorem parameterBlock_function {block : List Char} (other : ∀ c ∈ block, c ≠ ']') (tail : List Char) :
    parameterBlock (some ' ') ("function [".toList ++ (block ++ ']' :: tail)) = some (block, tail) := by
  have word : after? "function".toList ("function [".toList ++ (block ++ ']' :: tail)) =
      some (" [".toList ++ (block ++ ']' :: tail)) := after?_eq_some.2 rfl
  have first : trimStart (" [".toList ++ (block ++ ']' :: tail)) = ['['] ++ (block ++ ']' :: tail) :=
    trimStart_run blanks_one (by simp +decide)
  have opens : after? ['['] (['['] ++ (block ++ ']' :: tail)) = some (block ++ ']' :: tail) := after?_eq_some.2 rfl
  rw [parameterBlock_eq, functionLead, keyword?, if_neg (by decide), word, Option.some_or, Option.bind_some, first,
    bracketed?, opens]
  exact upTo?_append other tail

theorem finds_parameterBlock {block : List Char} (other : ∀ c ∈ block, c ≠ ']') (tail : List Char) :
    (finds parameterBlock ("f: function [".toList ++ (block ++ ']' :: tail))).head?.map (·.value) = some block := by
  have name : parameterBlock none ('f' :: ": function [".toList ++ (block ++ ']' :: tail)) = none := by
    rw [parameterBlock_eq]
    rfl
  have whole : "function [".toList ++ (block ++ ']' :: tail) = ("function [".toList ++ (block ++ [']'])) ++ tail := by
    simp
  have reads := parameterBlock_function other tail
  rw [whole] at reads
  calc (finds parameterBlock ("f: function [".toList ++ (block ++ ']' :: tail))).head?.map (·.value)
      = (findsFrom parameterBlock 3 0 (some ' ') ("function [".toList ++ (block ++ ']' :: tail))).head?.map
          (·.value) := by
        rw [finds]
        exact congrArg (fun found => found.head?.map (·.value)) <|
          (findsFrom_none name).trans <| (findsFrom_none (parameterBlock_none (by decide) _)).trans <|
            findsFrom_none (parameterBlock_none (by decide) _)
    _ = some block := by
        rw [whole, findsFrom_some (by simp) reads]
        rfl

section Dropping

variable {letters : List Char} (plain : ∀ c ∈ letters, isAsciiLetter c = true ∨ isAsciiDigit c = true)

include plain

theorem ne_colon_of_plain : ∀ c ∈ letters, c ≠ ':' := by
  rintro _ member rfl
  exact absurd (plain ':' member) (by decide)

theorem dropAnnotations_type : dropAnnotations false (':' :: letters) =
    if letters.head?.any isLower then letters.dropWhile isLower else ':' :: letters := by
  have other := ne_colon_of_plain plain
  have kept {text : List Char} (plain : ∀ c ∈ text, c ≠ ':') : dropAnnotations false text = text := by
    simpa [dropAnnotations] using dropAnnotations_append plain []
  rw [dropAnnotations, kept other]
  cases started : letters.head?.any isLower with
  | false => simp
  | true =>
    obtain ⟨small, rest, rfl, lower, stops⟩ := exists_run isLower letters
    have tail : dropAnnotations true rest = rest := by
      cases rest with
      | nil => rfl
      | cons c rest =>
        obtain ⟨here, later⟩ := List.forall_mem_cons.1 (List.forall_mem_append.1 other).2
        have capital : isLower c = false := stops c rfl
        rw [dropAnnotations, kept later]
        simp [capital, here]
    have whole : dropAnnotations true (small ++ rest) = rest := by rw [dropAnnotations_lower lower, tail]
    simp [whole, dropWhile_run lower stops]

end Dropping

namespace ParameterWord

def kept (word : List Char) : Bool := !word.isEmpty && word.head? != some ':'

theorem filter_kept (word : ParameterWord) : [dropAnnotations false word.text].filter kept = word.read?.toList := by
  cases word with
  | name text formed =>
    have other : ∀ c ∈ text, c ≠ ':' := by
      rintro _ member rfl
      exact absurd (formed.part member) (by decide)
    have same : dropAnnotations false text = text := by simpa [dropAnnotations] using dropAnnotations_append other []
    have some_ : text ≠ [] := (ParameterWord.name text formed).text_ne_nil
    obtain ⟨first, rest, rfl⟩ := List.exists_cons_of_ne_nil some_
    have head : first ≠ ':' := other first List.mem_cons_self
    rw [ParameterWord.text, same]
    simp [kept, read?, name?, head]
  | type letters some_ plain =>
    rw [ParameterWord.text, dropAnnotations_type plain]
    split_ifs with started
    · have read : (ParameterWord.type letters some_ plain).read? =
          if letters.dropWhile isLower = [] then none else some (letters.dropWhile isLower) := by
        simp [read?, name?, remainder, started]
      rw [read]
      cases rest : letters.dropWhile isLower with
      | nil => rfl
      | cons c rest_ =>
        have inside : c ∈ letters := (List.dropWhile_suffix isLower).subset (by rw [rest]; exact List.mem_cons_self)
        have head : c ≠ ':' := ne_colon_of_plain plain c inside
        simp [kept, head]
    · simp [kept, read?, name?, remainder, started]

theorem filter_map_text (words : List ParameterWord) :
    ((words.map text).map (dropAnnotations false)).filter kept = words.filterMap read? := by
  induction words with
  | nil => rfl
  | cons word words ih =>
    calc (((word :: words).map text).map (dropAnnotations false)).filter kept
        = [dropAnnotations false word.text].filter kept ++
            ((words.map text).map (dropAnnotations false)).filter kept := List.filter_append [_] _
      _ = word.read?.toList ++ words.filterMap read? := by rw [filter_kept, ih]
      _ = (word :: words).filterMap read? := by cases read : word.read? <;> simp [read]

theorem length_filterMap_read? (words : List ParameterWord) : (words.filterMap read?).length =
    (words.filterMap name?).length + (words.filter fun word => word.remainder != []).length := by
  induction words with
  | nil => rfl
  | cons word words ih =>
    cases word with
    | name text formed =>
      simp [read?, name?, remainder, ih]
      omega
    | type letters some_ plain =>
      have nameless : (ParameterWord.type letters some_ plain).name? = none := rfl
      rw [List.filterMap_cons_none nameless]
      by_cases rest : (ParameterWord.type letters some_ plain).remainder = []
      · simp [read?, nameless, rest, ih]
      · simp [read?, nameless, rest, ih]
        omega

theorem filterMap_read?_eq_iff (words : List ParameterWord) :
    words.filterMap read? = words.filterMap name? ↔ ∀ word ∈ words, word.remainder = [] := by
  constructor
  · intro same
    have count := length_filterMap_read? words
    rw [same] at count
    have none_ : words.filter (fun word => word.remainder != []) = [] := List.length_eq_zero_iff.1 (by omega)
    simpa using List.filter_eq_nil_iff.1 none_
  · intro nothing
    refine List.filterMap_congr fun word member => ?_
    simp [read?, nothing word member]

end ParameterWord

/-- The parameters of a function are its names and the remainders of its types, in order; they are the names alone
exactly when no type has a remainder. -/
theorem parameters_of_spells {words : List ParameterWord} {block : List Char} (spells : Spells words block) :
    parameters ("f: function [".toList ++ (block ++ "][x]".toList)) = words.filterMap ParameterWord.read? ∧
      (parameters ("f: function [".toList ++ (block ++ "][x]".toList)) = words.filterMap ParameterWord.name? ↔
        ∀ word ∈ words, word.remainder = []) := by
  have read : parameters ("f: function [".toList ++ (block ++ "][x]".toList)) =
      words.filterMap ParameterWord.read? := by
    obtain ⟨found, head, value⟩ := Option.map_eq_some_iff.1 (finds_parameterBlock spells.ne_bracket "[x]".toList)
    have head : (finds parameterBlock ("f: function [".toList ++ (block ++ "][x]".toList))).head? = some found := head
    rw [parameters, head]
    simp only [value, spells.words_eq]
    exact ParameterWord.filter_map_text words
  rw [read]
  exact ⟨rfl, ParameterWord.filterMap_read?_eq_iff words⟩

theorem parameters_of_spells_typed : ∃ words : List ParameterWord, Spells words "a :int b?".toList ∧
    words.map ParameterWord.text = ["a".toList, ":int".toList, "b?".toList] ∧
    parameters ("f: function [".toList ++ ("a :int b?".toList ++ "][x]".toList)) =
        words.filterMap ParameterWord.read? ∧
      (parameters ("f: function [".toList ++ ("a :int b?".toList ++ "][x]".toList)) =
          words.filterMap ParameterWord.name? ↔ ∀ word ∈ words, word.remainder = []) := by
  have spells : Spells [.name ['a'] (Name.isName_iff.1 (by decide)), .type ['i', 'n', 't'] (by decide) (by decide),
      .name ['b', '?'] (Name.isName_iff.1 (by decide))] "a :int b?".toList :=
    .front _ (.front _ (.last _))
  exact ⟨_, spells, rfl, parameters_of_spells spells⟩

/-- The digits of a type are taken for a parameter. -/
theorem parameters_of_digits : ∃ words : List ParameterWord, Spells words "a :int32".toList ∧
    words.filterMap ParameterWord.name? = ["a".toList] ∧
    parameters ("f: function [".toList ++ ("a :int32".toList ++ "][x]".toList)) = ["a".toList, "32".toList] := by
  have spells : Spells [.name ['a'] (Name.isName_iff.1 (by decide)),
      .type ['i', 'n', 't', '3', '2'] (by decide) (by decide)] "a :int32".toList :=
    .front _ (.last _)
  exact ⟨_, spells, rfl, by decide⟩

end ArturoInsight
