import ArturoInsight.Text.Class
import Mathlib.Tactic.ByContra
import Mathlib.Tactic.SplitIfs

/-! No character is a blank and part of a word. The characters of names are those of ASCII words, and the hyphen. -/

namespace ArturoInsight.Text

/-- No code point is in a range of both. -/
def Ranges.apart (first second : Ranges) : Bool :=
  first.all fun left => second.all fun right => left.2 < right.1 || right.2 < left.1

theorem Ranges.has_eq_false {first second : Ranges} (apart : first.apart second = true) {point : Nat}
    (inside : first.has point = true) : second.has point = false := by
  obtain ⟨left, member, bounds⟩ := List.any_eq_true.1 inside
  rw [has, List.any_eq_false]
  intro right other
  have differ := List.all_eq_true.1 (List.all_eq_true.1 apart left member) right other
  simp only [Bool.or_eq_true, decide_eq_true_eq] at differ bounds ⊢
  omega

theorem blankRanges_apart : blankRanges.apart letterRanges = true ∧ blankRanges.apart digitRanges = true ∧
    blankRanges.apart numeralRanges = true := by
  decide +kernel

theorem isBlank_cases {c : Char} (blank : isBlank c = true) :
    c.toNat ≤ 32 ∨ isAscii c = false ∧ blankRanges.has c.toNat = true := by
  simp only [isBlank, isAsciiBlank, Bool.or_eq_true, Bool.and_eq_true, decide_eq_true_eq, beq_iff_eq,
    Bool.not_eq_true'] at blank
  obtain ((rfl | ascii) | control) | other := blank
  · exact .inl (by decide)
  · exact .inl (by omega)
  · exact .inl (by omega)
  · exact .inr other

theorem not_isWord_of_isBlank {c : Char} (blank : isBlank c = true) : isWord c = false := by
  obtain small | ⟨other, inside⟩ := isBlank_cases blank
  · have ascii : isAscii c = true := by simp only [isAscii, decide_eq_true_eq]; omega
    have mark : c ≠ '_' := by
      rintro rfl
      exact absurd small (by decide)
    simp only [isWord, isLetter, isDigit, isAsciiLetter, isLower, isUpper, isAsciiDigit, ascii, mark,
      Bool.not_true, Bool.false_and, Bool.or_false, Bool.or_eq_false_iff, Bool.and_eq_false_iff,
      decide_eq_false_iff_not, beq_eq_false_iff_ne, ne_eq, not_false_eq_true, and_true]
    omega
  · have large : ¬ c.toNat < 128 := by simpa [isAscii] using other
    obtain ⟨letters, digits, numerals⟩ := blankRanges_apart
    have mark : c ≠ '_' := by
      rintro rfl
      exact absurd large (by decide)
    simp only [isWord, isLetter, isDigit, isAsciiLetter, isLower, isUpper, isAsciiDigit,
      Ranges.has_eq_false letters inside, Ranges.has_eq_false digits inside,
      Ranges.has_eq_false numerals inside, mark, Bool.and_false, Bool.or_false, Bool.or_eq_false_iff,
      Bool.and_eq_false_iff, decide_eq_false_iff_not, beq_eq_false_iff_ne, ne_eq, not_false_eq_true,
      and_true]
    omega

theorem not_isBlank_of_isWord {c : Char} (word : isWord c = true) : isBlank c = false := by
  by_contra blank
  rw [not_isWord_of_isBlank (by simpa using blank)] at word
  contradiction

theorem isWord_of_isLetter {c : Char} (letter : isLetter c = true) : isWord c = true := by
  simp [isWord, letter]

theorem isWord_of_isDigit {c : Char} (digit : isDigit c = true) : isWord c = true := by
  simp [isWord, digit]

theorem isWord_of_isLower {c : Char} (small : isLower c = true) : isWord c = true := by
  simp [isWord, isLetter, isAsciiLetter, small]

theorem isWord_of_isHexDigit {c : Char} (digit : isHexDigit c = true) : isWord c = true := by
  simp only [isHexDigit, isWord, isLetter, isDigit, isAsciiLetter, isAsciiDigit, isLower, isUpper,
    Bool.or_eq_true, Bool.and_eq_true, decide_eq_true_eq] at digit ⊢
  omega

theorem not_isLetter_of_isBlank (c : Char) (blank : isBlank c = true) : isLetter c = false := by
  by_contra letter
  have word := isWord_of_isLetter (by simpa using letter)
  rw [not_isWord_of_isBlank blank] at word
  contradiction

/-- Of the characters of names only the hyphen is no word character. -/
theorem eq_hyphen {c : Char} (part : isNamePart c = true) (other : isWord c = false) : c = '-' := by
  simp only [isNamePart, isAsciiWord, Bool.or_eq_true, beq_iff_eq] at part
  simp only [isWord, isLetter, isDigit, Bool.or_eq_false_iff, beq_eq_false_iff_ne] at other
  obtain ⟨⟨⟨⟨letter, -⟩, digit, -⟩, line⟩, -⟩ := other
  simpa [letter, digit, line] using part

theorem isNamePart_of_isWord {c : Char} (ascii : isAscii c = true) (word : isWord c = true) : isNamePart c = true := by
  simp only [isWord, isLetter, isDigit, ascii, Bool.not_true, Bool.false_and, Bool.or_false] at word
  rw [isNamePart, isAsciiWord, word, Bool.true_or]

end ArturoInsight.Text
