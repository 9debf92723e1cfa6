import ArturoInsight.Layout.Code
import ArturoInsight.Proofs.Symbol.Name

/-! Labels: a word, blanks and a colon at the start of a stretch of code. -/

namespace ArturoInsight.Layout

open Text

structure Labelled (text name gap rest : List Char) : Prop where
  whole : text = name ++ (gap ++ ':' :: rest)
  taken : Name.Taken (gap ++ ':' :: rest) name
  word : name.head?.any isAsciiWord = true
  blanks : ∀ c ∈ gap, isAsciiBlank c = true

/-- Two colons, or blanks before the colon alone, make something other than a label. -/
def labels (gap rest : List Char) : Bool :=
  rest.head? != some ':' && (gap.isEmpty || rest.head?.any isAsciiBlank)

theorem spaceLabel_of_labelled {text name gap rest : List Char}
    (labelled : Labelled text name gap rest) :
    spaceLabel text =
      if labels gap rest then name ++ ':' :: ' ' :: rest.dropWhile isAsciiBlank else text := by
  obtain ⟨whole, taken, word, blanks⟩ := labelled
  have found := Name.token?_eq_some.2 ⟨whole, taken, word⟩
  have stops : ∀ c ∈ (':' :: rest).head?, isAsciiBlank c = false := by simp +decide
  have parted : (gap ++ ':' :: rest).head?.any isAsciiBlank = !gap.isEmpty := by
    cases gap with
    | nil => simp +decide
    | cons c gap => simp [blanks c List.mem_cons_self]
  have colon : after? [':'] (':' :: rest) = some rest := by simp [after?]
  have other : (rest.head? == some ':' || !gap.isEmpty && !rest.head?.any isAsciiBlank) =
      !labels gap rest := by
    simp only [labels, bne, Bool.not_and, Bool.not_or, Bool.not_not]
  simp only [spaceLabel, found, dropWhile_run blanks stops, colon, parted, other]
  cases labels gap rest <;> simp

theorem exists_labelled {text : List Char} (changes : spaceLabel text ≠ text) :
    ∃ name gap rest, Labelled text name gap rest := by
  unfold spaceLabel at changes
  split at changes
  · contradiction
  next name tail found =>
    obtain ⟨whole, taken, word⟩ := Name.token?_eq_some.1 found
    obtain ⟨gap, after, rfl, blanks, stops⟩ := exists_run isAsciiBlank tail
    rw [dropWhile_run blanks stops] at changes
    cases after with
    | nil => simp [after?] at changes
    | cons c rest =>
      by_cases colon : c = ':'
      · subst colon
        exact ⟨name, gap, rest, whole, taken, word, blanks⟩
      · have none : after? [':'] (c :: rest) = none := by simp [after?, Ne.symm colon]
        simp [none] at changes

theorem spaceLabel_cases (text : List Char) : spaceLabel text = text ∨
    ∃ name gap rest, Labelled text name gap rest ∧ labels gap rest = true ∧
      spaceLabel text = name ++ ':' :: ' ' :: rest.dropWhile isAsciiBlank := by
  by_cases changes : spaceLabel text = text
  · exact .inl changes
  · obtain ⟨name, gap, rest, labelled⟩ := exists_labelled changes
    have written := spaceLabel_of_labelled labelled
    rw [written] at changes
    split_ifs at written changes with label
    · exact .inr ⟨name, gap, rest, labelled, label, written⟩
    · contradiction

theorem spaceLabel_ne_nil {text : List Char} (some_ : text ≠ []) : spaceLabel text ≠ [] := by
  obtain same | ⟨name, gap, rest, -, -, written⟩ := spaceLabel_cases text
  · rwa [same]
  · simp [written]

theorem solids_spaceLabel (text : List Char) : solids (spaceLabel text) = solids text := by
  obtain same | ⟨name, gap, rest, labelled, -, written⟩ := spaceLabel_cases text
  · rw [same]
  · obtain ⟨run, tail, rfl, ascii, stops⟩ := exists_run isAsciiBlank rest
    have gaps := solids_eq_nil.2 fun c member => isBlank_of_isAsciiBlank (labelled.blanks c member)
    have runs := solids_eq_nil.2 fun c member => isBlank_of_isAsciiBlank (ascii c member)
    rw [written, labelled.whole, dropWhile_run ascii stops]
    simp +decide only [solids_append, solids_cons, gaps, runs, List.nil_append, if_true]

end ArturoInsight.Layout
