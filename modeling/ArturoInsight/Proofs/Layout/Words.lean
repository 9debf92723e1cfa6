import ArturoInsight.Layout.Code
import ArturoInsight.Proofs.Text.Readers
import Mathlib.Tactic.SplitIfs

/-! A stretch of code as words: operators, and single characters that are not part of one. Its layout
keeps the words and writes the blanks between them anew, one at an operator, else at most one. -/

namespace ArturoInsight.Layout

open Text

structure Word where
  gap : List Char
  text : List Char
  isOperator : Bool
deriving DecidableEq, Repr

/-- The words of a stretch of code and the blanks after the last one. `gap` holds the blanks read so
far; the second character of an operator is skipped. -/
def wordsFrom (gap : List Char) (skip : Bool) : List Char → List Word × List Char
  | [] => ([], gap)
  | c :: rest =>
    if skip then wordsFrom [] false rest
    else if isBlank c then wordsFrom (gap ++ [c]) false rest
    else
      let (text, isOperator) := match operator? (!gap.isEmpty) (c :: rest) with
        | some (sign, _) => (sign, true)
        | none => ([c], false)
      let (more, last) := wordsFrom [] (text.length == 2) rest
      (⟨gap, text, isOperator⟩ :: more, last)

def words (text : List Char) : List Word × List Char := wordsFrom [] false text

def collapse (gap : List Char) : List Char := if 2 ≤ gap.length then [' '] else gap

def space (left : Bool) (gap : List Char) (right : Bool) : List Char :=
  if left || right then [' '] else collapse gap

/-- Words with their new gaps, where `after` tells whether an operator stands before them. -/
def rendered (after : Bool) : List Word → List Char → List Char
  | [], last => space after last false
  | word :: rest, last =>
    space after word.gap word.isOperator ++ word.text ++ rendered word.isOperator rest last

def laid (after : Bool) (text : List Char) : List Char :=
  rendered after (words text).1 (words text).2

def isSign (c : Char) : Bool := ['+', '*', '/', '=', '<', '>'].contains c

def firmOperators : List (List Char) :=
  [['-', '>'], ['=', '>'], ['<', '='], ['>', '='], ['<', '>'], ['+', '+'],
    ['+'], ['*'], ['/'], ['='], ['<'], ['>']]

theorem isSign_iff {c : Char} : isSign c = true ↔ [c] ∈ firmOperators := by
  simp [isSign, firmOperators]

theorem operator?_some {spaced : Bool} {text sign tail : List Char}
    (found : operator? spaced text = some (sign, tail)) :
    text = sign ++ tail ∧ (sign ∈ firmOperators ∨
      sign = ['-'] ∧ spaced = true ∧ tail.head?.any isBlank = true) := by
  unfold operator? at found
  split at found
  case h_7 c rest _ _ _ _ _ _ =>
    split_ifs at found with mark minus
    · obtain ⟨rfl, rfl⟩ : [c] = sign ∧ rest = tail := by simpa using found
      exact ⟨rfl, .inl (isSign_iff.1 mark)⟩
    · obtain ⟨rfl, rfl⟩ : ['-'] = sign ∧ rest = tail := by simpa using found
      simp only [Bool.and_eq_true, beq_iff_eq] at minus
      exact ⟨by rw [minus.1.1]; rfl, .inr ⟨rfl, minus.1.2, minus.2⟩⟩
  case h_8 => simp at found
  all_goals
    simp only [Option.some.injEq, Prod.mk.injEq] at found
    obtain ⟨rfl, rfl⟩ := found
    exact ⟨rfl, .inl (by decide)⟩

theorem operator?_eq_none_iff {spaced : Bool} {c : Char} {rest : List Char} :
    operator? spaced (c :: rest) = none ↔ isSign c = false ∧
      ¬ (c = '-' ∧ (rest.head? = some '>' ∨ spaced = true ∧ rest.head?.any isBlank = true)) := by
  unfold operator?
  split
  case h_7 first more arrow _ _ _ _ _ same =>
    obtain ⟨rfl, rfl⟩ := List.cons.inj same
    change (if isSign c then _ else _) = _ ↔ _
    have noArrow : c = '-' → rest.head? ≠ some '>' := by
      rintro minus follows
      cases rest with
      | nil => simp at follows
      | cons d more => exact arrow more minus (by simpa using follows)
    by_cases minus : c = '-' <;> cases mark : isSign c <;> simp_all
  case h_8 => contradiction
  all_goals simp_all [isSign]

theorem operator?_sign {c : Char} (mark : isSign c = true) (spaced : Bool) {rest : List Char}
    (alone : ∀ d ∈ rest.head?, [c, d] ∉ firmOperators) :
    operator? spaced (c :: rest) = some ([c], rest) := by
  unfold operator?
  split
  case h_7 first more _ _ _ _ _ _ same =>
    obtain ⟨rfl, rfl⟩ := List.cons.inj same
    exact if_pos mark
  case h_8 => contradiction
  all_goals
    rename_i same
    obtain ⟨rfl, rfl⟩ := List.cons.inj same
    exact absurd (by decide) (alone _ rfl)

theorem operator?_minus {rest : List Char} (follows : rest.head?.any isBlank = true) :
    operator? true ('-' :: rest) = some (['-'], rest) := by
  cases found : operator? true ('-' :: rest) with
  | none =>
    have apart := (operator?_eq_none_iff.1 found).2
    simp [follows] at apart
  | some pair =>
    obtain ⟨sign, tail⟩ := pair
    obtain ⟨whole, firm | ⟨rfl, -⟩⟩ := operator?_some found
    · have arrow : ∀ sign ∈ firmOperators, sign.head? = some '-' → sign = ['-', '>'] := by decide
      obtain ⟨c, more, rfl⟩ := List.exists_cons_of_ne_nil (show sign ≠ [] by rintro rfl; exact absurd firm (by decide))
      obtain ⟨rfl, rfl⟩ : '-' = c ∧ rest = more ++ tail := by simpa using whole
      obtain rfl : more = ['>'] := by simpa using arrow _ firm rfl
      exact absurd follows (by simp +decide)
    · simpa using whole.symm

theorem firmOperators_cases {sign : List Char} (firm : sign ∈ firmOperators) :
    (∃ c, isSign c = true ∧ sign = [c]) ∨ ∃ c d, isSign d = true ∧ sign = [c, d] ∧
      ∀ spaced tail, operator? spaced (c :: d :: tail) = some ([c, d], tail) := by
  simp only [firmOperators, List.mem_cons, List.not_mem_nil, or_false] at firm
  rcases firm with rfl | rfl | rfl | rfl | rfl | rfl | rfl | rfl | rfl | rfl | rfl | rfl
  all_goals
    first
    | exact .inr ⟨_, _, by decide, rfl, fun _ _ => rfl⟩
    | exact .inl ⟨_, by decide, rfl⟩

theorem operator?_firm {sign : List Char} (firm : sign ∈ firmOperators) (spaced : Bool)
    {tail : List Char} (apart : ∀ c ∈ tail.head?, isSign c = false) :
    operator? spaced (sign ++ tail) = some (sign, tail) := by
  obtain ⟨c, mark, rfl⟩ | ⟨c, d, -, rfl, found⟩ := firmOperators_cases firm
  · apply operator?_sign mark
    intro d follows longer
    obtain ⟨_, _, same⟩ | ⟨_, e, second, same, -⟩ := firmOperators_cases longer
    · simp at same
    · obtain ⟨rfl, rfl⟩ : c = _ ∧ d = e := by simpa using same
      simp [apart d follows] at second
  · exact found spaced tail

theorem not_isBlank_of_mem_sign {spaced : Bool} {text sign tail : List Char}
    (found : operator? spaced text = some (sign, tail)) {c : Char} (member : c ∈ sign) :
    isBlank c = false := by
  obtain ⟨-, firm | ⟨rfl, -⟩⟩ := operator?_some found
  · have solid : ∀ sign ∈ firmOperators, ∀ c ∈ sign, isBlank c = false := by decide
    exact solid sign firm c member
  · obtain rfl := List.mem_singleton.1 member
    decide

theorem sign_ne_nil {spaced : Bool} {text sign tail : List Char}
    (found : operator? spaced text = some (sign, tail)) : sign ≠ [] := by
  obtain ⟨-, firm | ⟨rfl, -⟩⟩ := operator?_some found
  · rintro rfl
    exact absurd firm (by decide)
  · simp

theorem head?_sign_append {spaced : Bool} {text sign tail : List Char}
    (found : operator? spaced text = some (sign, tail)) (rest : List Char) :
    ∀ c ∈ (sign ++ rest).head?, isBlank c = false := by
  obtain ⟨c, more, rfl⟩ := List.exists_cons_of_ne_nil (sign_ne_nil found)
  rintro d ⟨⟩
  exact not_isBlank_of_mem_sign found List.mem_cons_self

theorem length_sign_le {spaced : Bool} {text sign tail : List Char}
    (found : operator? spaced text = some (sign, tail)) : sign.length ≤ 2 := by
  obtain ⟨-, firm | ⟨rfl, -⟩⟩ := operator?_some found
  · have short : ∀ sign ∈ firmOperators, sign.length ≤ 2 := by decide
    exact short sign firm
  · simp

section Equations

variable {gap : List Char} (blanks : Blanks gap)

include blanks

theorem wordsFrom_blanks (seen rest : List Char) :
    wordsFrom seen false (gap ++ rest) = wordsFrom (seen ++ gap) false rest := by
  induction gap generalizing seen with
  | nil => simp
  | cons c gap ih =>
    have blank : isBlank c = true := blanks c List.mem_cons_self
    rw [List.cons_append, wordsFrom, if_neg Bool.false_ne_true, if_pos blank,
      ih fun d member => blanks d (List.mem_cons_of_mem c member)]
    simp

theorem words_blanks : words gap = ([], gap) := by
  simpa [words, wordsFrom] using wordsFrom_blanks blanks [] []

theorem words_plain {c : Char} {rest : List Char} (solid : isBlank c = false)
    (plain : operator? (!gap.isEmpty) (c :: rest) = none) :
    words (gap ++ c :: rest) = (⟨gap, [c], false⟩ :: (words rest).1, (words rest).2) := by
  rw [words, wordsFrom_blanks blanks]
  simp [wordsFrom, solid, plain, words]

theorem words_operator {sign tail : List Char}
    (found : operator? (!gap.isEmpty) (sign ++ tail) = some (sign, tail)) :
    words (gap ++ (sign ++ tail)) = (⟨gap, sign, true⟩ :: (words tail).1, (words tail).2) := by
  rw [words, wordsFrom_blanks blanks]
  obtain ⟨c, more, rfl⟩ := List.exists_cons_of_ne_nil (sign_ne_nil found)
  have solid : isBlank c = false := not_isBlank_of_mem_sign found List.mem_cons_self
  have short := length_sign_le found
  rw [List.cons_append] at found
  rw [List.cons_append, List.nil_append, wordsFrom, if_neg Bool.false_ne_true,
    if_neg (by simp [solid]), found]
  cases more with
  | nil => rfl
  | cons d more =>
    obtain rfl : more = [] := by
      simp only [List.length_cons] at short
      exact List.eq_nil_of_length_eq_zero (by omega)
    rfl

end Equations

/-- A stretch of code is blanks, or blanks, a word and a stretch of code. -/
theorem words_induction {motive : List Char → Prop}
    (blanks : ∀ gap, Blanks gap → motive gap)
    (plain : ∀ gap c rest, Blanks gap → isBlank c = false →
      operator? (!gap.isEmpty) (c :: rest) = none → motive rest → motive (gap ++ c :: rest))
    (operator : ∀ gap sign tail, Blanks gap →
      operator? (!gap.isEmpty) (sign ++ tail) = some (sign, tail) → motive tail →
      motive (gap ++ (sign ++ tail)))
    (text : List Char) : motive text := by
  induction size : text.length using Nat.strongRecOn generalizing text with
  | ind n shorter =>
    obtain ⟨gap, gapped, rfl | ⟨c, rest, solid, rfl⟩⟩ := exists_gap text
    · exact blanks text gapped
    simp only [List.length_append, List.length_cons] at size
    cases found : operator? (!gap.isEmpty) (c :: rest) with
    | none => exact plain gap c rest gapped solid found (shorter rest.length (by omega) rest rfl)
    | some pair =>
      obtain ⟨sign, tail⟩ := pair
      have whole := (operator?_some found).1
      have signed := List.length_pos_iff.2 (sign_ne_nil found)
      have lengths := congrArg List.length whole
      simp only [List.length_cons, List.length_append] at lengths
      rw [whole] at found ⊢
      exact operator gap sign tail gapped found (shorter tail.length (by omega) tail rfl)

section Laid

variable {gap : List Char} (blanks : Blanks gap) (after : Bool)

include blanks

theorem laid_blanks : laid after gap = space after gap false := by
  rw [laid, words_blanks blanks]
  rfl

theorem laid_plain {c : Char} {rest : List Char} (solid : isBlank c = false)
    (plain : operator? (!gap.isEmpty) (c :: rest) = none) :
    laid after (gap ++ c :: rest) = space after gap false ++ c :: laid false rest := by
  rw [laid, words_plain blanks solid plain]
  simp [rendered, laid]

theorem laid_operator {sign tail : List Char}
    (found : operator? (!gap.isEmpty) (sign ++ tail) = some (sign, tail)) :
    laid after (gap ++ (sign ++ tail)) = ' ' :: sign ++ laid true tail := by
  rw [laid, words_operator blanks found]
  simp [rendered, laid, space]

end Laid

end ArturoInsight.Layout
