import ArturoInsight.Proofs.Layout.Words

/-! The replacements that lay out a stretch of code, in two passes over its characters, write its words
with their new gaps. -/

namespace ArturoInsight.Layout

open Text

section Squeezing

theorem replaceFrom_manyBlanks (before other : Option Char) (text : List Char) :
    replaceFrom manyBlanks 0 before text = replaceFrom manyBlanks 0 other text := by
  cases text <;> rfl

theorem squeezed_solid {c : Char} (solid : isBlank c = false) (rest : List Char) :
    replace manyBlanks (c :: rest) = c :: replace manyBlanks rest := by
  have fails : manyBlanks none (c :: rest) = none := by
    cases rest <;> simp [manyBlanks, solid]
  rw [replace, replaceFrom_none fails, replaceFrom_manyBlanks]
  rfl

theorem squeezed_solids {solids : List Char} (solid : ∀ c ∈ solids, isBlank c = false)
    (rest : List Char) : replace manyBlanks (solids ++ rest) = solids ++ replace manyBlanks rest := by
  induction solids with
  | nil => rfl
  | cons c solids ih =>
    rw [List.cons_append, squeezed_solid (solid c List.mem_cons_self),
      ih fun d member => solid d (List.mem_cons_of_mem c member)]
    rfl

theorem squeezed_gap {gap rest : List Char} (blanks : Blanks gap)
    (solid : ∀ c ∈ rest.head?, isBlank c = false) :
    replace manyBlanks (gap ++ rest) = collapse gap ++ replace manyBlanks rest := by
  match gap with
  | [] => rfl
  | [c] =>
    have fails : manyBlanks none (c :: rest) = none := by
      cases rest with
      | nil => rfl
      | cons d rest => simp [manyBlanks, solid d rfl]
    rw [List.singleton_append, replace, replaceFrom_none fails, replaceFrom_manyBlanks]
    rfl
  | c :: d :: more =>
    have reads : manyBlanks none (c :: d :: more ++ rest) = some ([' '], rest) := by
      have first : isBlank c = true := blanks c (by simp)
      have second : isBlank d = true := blanks d (by simp)
      change (if isBlank c && isBlank d then some ([' '], trimStart (c :: d :: more ++ rest)) else none) = _
      rw [if_pos (by simp [first, second]), trimStart_run blanks solid]
    rw [replace, replaceFrom_some (by simp) reads, replaceFrom_manyBlanks _ none]
    simp [collapse, replace]

end Squeezing

section Spreading

variable {gap : List Char} (blanks : Blanks gap) (before : Option Char)

include blanks

theorem spacedOperator_gap {rest : List Char} (solid : ∀ c ∈ rest.head?, isBlank c = false) :
    spacedOperator before (gap ++ rest) =
      (operator? (!gap.isEmpty || before.any isBlank) rest).map
        fun found => ([' '] ++ found.1 ++ [' '], trimStart found.2) := by
  have spaced : ((gap ++ rest).head?.any isBlank || before.any isBlank) =
      (!gap.isEmpty || before.any isBlank) := by
    cases gap with
    | nil => cases rest <;> simp_all
    | cons c gap => simp [blanks c List.mem_cons_self]
  simp only [spacedOperator, spaced, trimStart_run blanks solid]

theorem spread_plain {rest : List Char} (solid : ∀ c ∈ rest.head?, isBlank c = false)
    (plain : operator? (!gap.isEmpty || before.any isBlank) rest = none) :
    replaceFrom spacedOperator 0 before (gap ++ rest) =
      gap ++ replaceFrom spacedOperator 0 (gap.getLast?.or before) rest := by
  induction gap generalizing before with
  | nil => rfl
  | cons c gap ih =>
    have blank : isBlank c = true := blanks c List.mem_cons_self
    have fails : spacedOperator before (c :: gap ++ rest) = none := by
      rw [spacedOperator_gap blanks before solid, plain]
      rfl
    rw [List.cons_append] at fails ⊢
    rw [replaceFrom_none fails, getLast?_cons_or, ih fun d member => blanks d (List.mem_cons_of_mem c member)]
    · rfl
    · simpa [blank] using plain

theorem spread_operator {sign tail : List Char}
    (found : operator? (!gap.isEmpty || before.any isBlank) (sign ++ tail) = some (sign, tail)) :
    replaceFrom spacedOperator 0 before (gap ++ (sign ++ tail)) =
      ' ' :: sign ++ ' ' :: replaceFrom spacedOperator 0
        ((tail.takeWhile isBlank).getLast?.or sign.getLast?) (trimStart tail) := by
  have signed := sign_ne_nil found
  have head := head?_sign_append found tail
  have whole : gap ++ (sign ++ tail) = gap ++ sign ++ tail.takeWhile isBlank ++ trimStart tail := by
    simp [trimStart, List.takeWhile_append_dropWhile]
  have reads : spacedOperator before (gap ++ sign ++ tail.takeWhile isBlank ++ trimStart tail) =
      some ([' '] ++ sign ++ [' '], trimStart tail) := by
    rw [← whole, spacedOperator_gap blanks before head, found]
    rfl
  have last : (gap ++ sign ++ tail.takeWhile isBlank).getLast? =
      (tail.takeWhile isBlank).getLast?.or sign.getLast? := by
    rw [List.getLast?_append, List.getLast?_append, List.getLast?_eq_some_getLast signed]
    cases (tail.takeWhile isBlank).getLast? <;> rfl
  rw [whole, replaceFrom_some (by simp [signed]) reads, last]
  simp

end Spreading

theorem any_isBlank_getLast? {gap : List Char} (blanks : Blanks gap) {before : Option Char}
    (solid : before.any isBlank = false) :
    (gap.getLast?.or before).any isBlank = !gap.isEmpty := by
  cases last : gap.getLast? with
  | none => simpa [List.getLast?_eq_none_iff.1 last] using solid
  | some c =>
    have member := List.mem_of_getLast? last
    cases gap with
    | nil => simp at member
    | cons d gap => simpa using blanks c member

theorem squeezed_spread (text : List Char) (before : Option Char)
    (solid : before.any isBlank = false) :
    replace manyBlanks (replaceFrom spacedOperator 0 before text) = laid false text ∧
      replace manyBlanks (' ' :: replaceFrom spacedOperator 0
        ((text.takeWhile isBlank).getLast?.or before) (trimStart text)) = laid true text := by
  have one : ∀ {rest : List Char}, (∀ c ∈ rest.head?, isBlank c = false) →
      replace manyBlanks (' ' :: rest) = ' ' :: replace manyBlanks rest :=
    fun head => squeezed_gap blanks_one head
  induction text using words_induction generalizing before with
  | blanks gap blanks =>
    rw [laid_blanks blanks, laid_blanks blanks, trimStart_blanks blanks]
    have none : ∀ c ∈ ([] : List Char).head?, isBlank c = false := by simp
    refine ⟨?_, one none⟩
    have whole := spread_plain blanks before none rfl
    rw [List.append_nil] at whole
    rw [whole]
    exact (squeezed_gap blanks none).trans (List.append_nil _)
  | plain gap c rest blanks solidC plain ih =>
    have head : ∀ d ∈ (c :: rest).head?, isBlank d = false := by simp [solidC]
    have word : replaceFrom spacedOperator 0 (gap.getLast?.or before) (c :: rest) =
        c :: replaceFrom spacedOperator 0 (some c) rest := by
      apply replaceFrom_none
      have fails := spacedOperator_gap blanks_nil (gap.getLast?.or before) head
      rw [List.nil_append, any_isBlank_getLast? blanks solid] at fails
      simpa [plain] using fails
    have later := (ih (some c) (by simpa using solidC)).1
    rw [laid_plain blanks _ solidC plain, laid_plain blanks _ solidC plain,
      takeWhile_run blanks head, trimStart_run blanks head, word, one (by simp [solidC]),
      squeezed_solid solidC, later]
    refine ⟨?_, rfl⟩
    rw [spread_plain blanks before head (by simpa [solid] using plain), word,
      squeezed_gap blanks (by simp [solidC]), squeezed_solid solidC, later]
    rfl
  | operator gap sign tail blanks found ih =>
    have solidSign : ∀ c ∈ sign, isBlank c = false := fun c => not_isBlank_of_mem_sign found
    have head {rest : List Char} := head?_sign_append found rest
    have last : sign.getLast?.any isBlank = false := by
      rw [List.getLast?_eq_some_getLast (sign_ne_nil found)]
      exact solidSign _ (List.getLast_mem _)
    have later := (ih sign.getLast? last).2
    have first := spread_operator blanks before (by simpa [solid] using found)
    have second := spread_operator blanks_nil (gap.getLast?.or before)
      (by simpa [any_isBlank_getLast? blanks solid] using found)
    rw [List.nil_append] at second
    rw [laid_operator blanks _ found, laid_operator blanks _ found, takeWhile_run blanks head,
      trimStart_run blanks head, first, second, ← later]
    constructor
    · rw [List.cons_append, one head, squeezed_solids solidSign]
      rfl
    · have two : Blanks [' ', ' '] := by decide
      refine (squeezed_gap two head).trans ?_
      rw [squeezed_solids solidSign]
      rfl

theorem code_eq_laid (atStart : Bool) (text : List Char) :
    code atStart text = laid false (if atStart then spaceLabel text else text) :=
  (squeezed_spread _ none rfl).1

end ArturoInsight.Layout
