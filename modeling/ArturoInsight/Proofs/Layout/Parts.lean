import ArturoInsight.Proofs.Layout.Again
import ArturoInsight.Proofs.Layout.Content

/-! The stretches of a laid out line: those of the line in their layout, without the blanks at the
start of the first and at the end of the last. -/

namespace ArturoInsight.Layout

open Text Lexical

def startParts : List (Tag × List Char) → List (Tag × List Char)
  | [] => []
  | (tag, text) :: rest => (tag, trimStart text) :: rest

def beforeEnd (cut : Bool) (part : Tag × List Char) : List (Tag × List Char) → List (Tag × List Char)
  | [] => if ended cut part.2 = [] then [] else [(part.1, ended cut part.2)]
  | next :: more => part :: next :: more

def endParts (cut : Bool) (parts : List (Tag × List Char)) : List (Tag × List Char) :=
  parts.foldr (beforeEnd cut) []

@[simp] theorem endParts_cons (cut : Bool) (part : Tag × List Char) (rest : List (Tag × List Char)) :
    endParts cut (part :: rest) = beforeEnd cut part (endParts cut rest) := rfl

theorem beforeEnd_of_ne_nil {cut : Bool} {part : Tag × List Char} {rest : List (Tag × List Char)}
    (some_ : rest ≠ []) : beforeEnd cut part rest = part :: rest := by
  cases rest with
  | nil => contradiction
  | cons next more => rfl

def isCut (scan : Scan) : Bool := scan.endTag.isCode || scan.commentStart.isSome

def contentParts (scan : Scan) : List (Tag × List Char) :=
  endParts (isCut scan)
    (startParts (laidParts (labelFirst (stretches (scan.cells.dropWhile isBlankCell)))))

theorem rdropWhile_append {first second : List Cell} :
    (first ++ second).rdropWhile isBlankCell =
      if second.rdropWhile isBlankCell = [] then first.rdropWhile isBlankCell
      else first ++ second.rdropWhile isBlankCell := by
  simp only [List.rdropWhile, List.reverse_append, List.dropWhile_append, List.isEmpty_iff,
    List.reverse_eq_nil_iff]
  split_ifs <;> simp

theorem rdropWhile_mark (tag : Tag) (text : List Char) :
    (mark tag text).rdropWhile isBlankCell = mark tag (trimEnd text) := by
  rw [mark, List.rdropWhile, ← List.map_reverse, List.dropWhile_map, ← List.map_reverse]
  rfl

theorem filled_endParts {cut : Bool} {parts : List (Tag × List Char)} (filled : Filled parts) :
    Filled (endParts cut parts) := by
  induction parts with
  | nil => exact filled
  | cons part rest ih =>
    obtain ⟨some_, later⟩ := List.forall_mem_cons.1 filled
    rw [endParts_cons]
    cases last : endParts cut rest with
    | nil =>
      rw [beforeEnd]
      split_ifs with nothing
      · exact List.forall_mem_nil _
      · exact List.forall_mem_singleton.2 nothing
    | cons next more => exact List.forall_mem_cons.2 ⟨some_, last ▸ ih later⟩

theorem unstretch_endParts {parts : List (Tag × List Char)} (filled : Filled parts) :
    unstretch (endParts true parts) = (unstretch parts).rdropWhile isBlankCell := by
  induction parts with
  | nil => rfl
  | cons part rest ih =>
    obtain ⟨-, later⟩ := List.forall_mem_cons.1 filled
    rw [endParts_cons, unstretch_cons, rdropWhile_append, ← ih later,
      if_congr (unstretch_eq_nil (filled_endParts later)) rfl rfl, rdropWhile_mark]
    split_ifs with last
    · rw [last, beforeEnd]
      split_ifs with nothing
      · have nothing : trimEnd part.2 = [] := nothing
        rw [nothing]
        rfl
      · rw [unstretch_cons]
        exact List.append_nil _
    · rw [beforeEnd_of_ne_nil last, unstretch_cons]

theorem endParts_false {parts : List (Tag × List Char)} (filled : Filled parts) :
    endParts false parts = parts := by
  induction parts with
  | nil => rfl
  | cons part rest ih =>
    obtain ⟨some_, later⟩ := List.forall_mem_cons.1 filled
    rw [endParts_cons, ih later]
    cases rest with
    | nil => exact if_neg some_
    | cons next more => rfl

theorem head?_beforeEnd {cut : Bool} {part : Tag × List Char} {rest : List (Tag × List Char)} :
    ∀ next ∈ (beforeEnd cut part rest).head?, next.1 = part.1 := by
  intro next head
  cases rest with
  | nil =>
    rw [beforeEnd] at head
    split_ifs at head
    · simp at head
    · obtain rfl : (part.1, ended cut part.2) = next := by simpa using head
      rfl
  | cons _ _ =>
    obtain rfl : part = next := by simpa [beforeEnd_of_ne_nil] using head
    rfl

theorem Proper.endParts {cut : Bool} {parts : List (Tag × List Char)} (proper : Proper parts) :
    Proper (endParts cut parts) := by
  induction proper with
  | nil => exact .nil
  | @cons tag text rest some_ differ proper ih =>
    rw [endParts_cons]
    have later : ∀ next ∈ (Layout.endParts cut rest).head?, next.1 ≠ tag := by
      intro next head
      cases rest with
      | nil => simp [Layout.endParts] at head
      | cons first rest =>
        rw [head?_beforeEnd next head]
        exact differ first rfl
    cases last : Layout.endParts cut rest with
    | nil =>
      rw [beforeEnd]
      split_ifs with nothing
      · exact .nil
      · exact .cons nothing (by simp) .nil
    | cons next more =>
      rw [last] at ih later
      exact .cons some_ later ih

def Begun (parts : List (Tag × List Char)) : Prop :=
  ∀ part ∈ parts.head?, ∃ c more, part.2 = c :: more ∧ isBlank c = false

theorem begun_stretches (cells : List Cell) : Begun (stretches (cells.dropWhile isBlankCell)) := by
  intro part head
  obtain ⟨rest, whole⟩ := List.head?_eq_some_iff.1 head
  have proper := proper_stretches (cells.dropWhile isBlankCell)
  have text := unstretch_stretches (cells.dropWhile isBlankCell)
  rw [whole] at proper text
  obtain ⟨c, more, same⟩ := List.exists_cons_of_ne_nil (proper.filled part List.mem_cons_self)
  have stops := List.head?_dropWhile_not isBlankCell cells
  rw [← text, unstretch_cons, same] at stops
  exact ⟨c, more, same, by simpa [isBlankCell] using stops⟩

def firstText (tag : Tag) (text : List Char) : List Char :=
  trimStart (if tag.isCode then laid false (spaceLabel text) else text)

theorem startParts_laidParts (tag : Tag) (text : List Char) (rest : List (Tag × List Char)) :
    startParts (laidParts (labelFirst ((tag, text) :: rest))) =
      (tag, firstText tag text) :: laidParts rest := by
  rw [labelFirst, laidParts_cons, startParts, firstText]
  cases code : tag.isCode <;> simp

theorem solids_firstText (tag : Tag) (text : List Char) : solids (firstText tag text) = solids text := by
  rw [firstText, solids_trimStart]
  split_ifs
  · rw [solids_laid, solids_spaceLabel]
  · rfl

theorem filled_laidParts {parts : List (Tag × List Char)} (filled : Filled parts) :
    Filled (laidParts parts) := by
  induction parts with
  | nil => exact filled
  | cons part rest ih =>
    obtain ⟨tag, text⟩ := part
    obtain ⟨some_, later⟩ := List.forall_mem_cons.1 filled
    rw [laidParts_cons]
    refine List.forall_mem_cons.2 ⟨?_, ih later⟩
    split_ifs
    · exact laid_ne_nil false some_
    · exact some_

theorem proper_startParts {parts : List (Tag × List Char)} (proper : Proper parts) (begun : Begun parts) :
    Proper (startParts (laidParts (labelFirst parts))) := by
  cases parts with
  | nil => exact .nil
  | cons part rest =>
    obtain ⟨tag, text⟩ := part
    rw [startParts_laidParts]
    have ⟨_, later⟩ := List.forall_mem_cons.1 proper.filled
    refine proper.of_tags ?_ (List.forall_mem_cons.2 ⟨?_, filled_laidParts later⟩)
    · simp [laidParts]
    · intro nothing
      obtain ⟨c, more, rfl, solid⟩ := begun _ rfl
      have same := solids_firstText tag (c :: more)
      have nothing : firstText tag (c :: more) = [] := nothing
      rw [nothing, solids_cons, solid] at same
      contradiction

theorem dropWhile_mark_append {tag : Tag} {text : List Char} (solid : solids text ≠ []) (rest : List Cell) :
    (mark tag text ++ rest).dropWhile isBlankCell = mark tag (trimStart text) ++ rest := by
  obtain ⟨gap, blanks, rfl | ⟨c, more, solidC, rfl⟩⟩ := exists_gap text
  · exact absurd (solids_eq_nil.2 blanks) solid
  · have cells : ∀ cell ∈ mark tag gap, isBlankCell cell = true := by simpa [mark, isBlankCell] using blanks
    rw [trimStart_run blanks (by simpa using solidC), mark_append, List.append_assoc,
      List.dropWhile_append_of_pos cells]
    simp [isBlankCell, solidC]

theorem unstretch_startParts {parts : List (Tag × List Char)} (begun : Begun parts) :
    unstretch (startParts (laidParts (labelFirst parts))) =
      (unstretch (laidParts (labelFirst parts))).dropWhile isBlankCell := by
  cases parts with
  | nil => rfl
  | cons part rest =>
    obtain ⟨tag, text⟩ := part
    obtain ⟨c, more, rfl, solid⟩ := begun _ rfl
    rw [startParts_laidParts, labelFirst, laidParts_cons, unstretch_cons, unstretch_cons,
      dropWhile_mark_append, firstText]
    · cases tag.isCode <;> rfl
    · have same := solids_firstText tag (c :: more)
      rw [firstText, solids_trimStart] at same
      cases code : tag.isCode <;> simp [code] at same ⊢ <;> simp [same, solids_cons, solid]

theorem proper_contentParts (scan : Scan) : Proper (contentParts scan) :=
  (proper_startParts (proper_stretches _) (begun_stretches _)).endParts

theorem unstretch_contentParts (scan : Scan) : unstretch (contentParts scan) = contentCells scan := by
  have begun := begun_stretches scan.cells
  have filled := (proper_startParts (proper_stretches _) begun).filled
  rw [contentParts, contentCells, ← unstretch_startParts begun]
  cases cut : isCut scan with
  | true =>
    rw [unstretch_endParts filled]
    exact (if_pos cut).symm
  | false =>
    rw [endParts_false filled]
    exact (if_neg (by simpa [isCut] using cut)).symm

end ArturoInsight.Layout
