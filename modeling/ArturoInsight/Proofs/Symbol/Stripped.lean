import ArturoInsight.Proofs.Lexical.Stripped
import ArturoInsight.Proofs.Symbol.Binding
import ArturoInsight.Proofs.Symbol.Gaps
import ArturoInsight.Proofs.Symbol.Gathered
import ArturoInsight.Proofs.Symbol.Name

/-! The symbols of a text without its comments. Blanks at the end of a line belong to none of its names and values, and
of the tags only those of the line itself are looked at. -/

namespace ArturoInsight

open Text Lexical

theorem after?_colon_of_blanks {gap : List Char} (blanks : Blanks gap) :
    after? [':'] (gap.dropWhile isAsciiBlank) = none := by
  refine Option.eq_none_iff_forall_ne_some.2 fun rest colon => ?_
  have member : ':' ∈ gap.dropWhile isAsciiBlank := by simp [after?_eq_some.1 colon]
  exact absurd (blanks ':' ((List.dropWhile_sublist _).subset member)) (by decide)

section Line

variable {left right : Scan} {column : Nat}

theorem Binding.at?_of_codeAt {rest : List Char}
    (codes : ∀ place < column + rest.length, left.codeAt place = right.codeAt place) (before : Option Char) :
    at? left column before rest = at? right column before rest := by
  unfold at?
  split_ifs
  · rfl
  cases reads : Name.read? rest with
  | none => rfl
  | some found =>
    obtain ⟨name, tail⟩ := found
    simp only [Option.bind_eq_bind, Option.bind_some]
    cases found : after? [':'] (tail.dropWhile isAsciiBlank) with
    | none => rfl
    | some after =>
      obtain ⟨positive, within⟩ := Name.colon_within reads found
      rw [Option.bind_some, Option.bind_some, codes column (by omega), codes (column + name.length + _) (by omega)]

variable {gap : List Char} (blanks : Blanks gap)

include blanks

namespace Binding

theorem annotates_gap (spaces after : List Char) : annotates spaces (after ++ gap) = annotates spaces after := by
  cases after with
  | cons c after => rfl
  | nil =>
    cases gap with
    | nil => rfl
    | cons c gap => simp [annotates, not_isLetter_of_isBlank c (blanks c List.mem_cons_self)]

theorem at?_gap (scan : Scan) (column : Nat) (before : Option Char) (text : List Char) :
    at? scan column before (text ++ gap) = at? scan column before text := by
  unfold at?
  split_ifs
  · rfl
  have stops : ∀ c ∈ gap.head?, isNamePart c = false ∧ c ≠ '?' := by
    intro c head
    have blank := blanks c (List.mem_of_mem_head? head)
    refine ⟨not_isNamePart_of_isBlank blank, ?_⟩
    rintro rfl
    exact absurd blank (by decide)
  rw [Name.read?_append stops]
  cases Name.read? text with
  | none => rfl
  | some found =>
    obtain ⟨name, tail⟩ := found
    obtain ⟨run, rest, rfl, ascii, ends⟩ := exists_run isAsciiBlank tail
    cases rest with
    | nil =>
      have alone : Blanks run := fun c member => isBlank_of_isAsciiBlank (ascii c member)
      have both : Blanks (run ++ gap) := List.forall_mem_append.2 ⟨alone, blanks⟩
      simp only [Option.map_some, Option.bind_eq_bind, Option.bind_some, List.append_nil,
        after?_colon_of_blanks alone, after?_colon_of_blanks both, Option.bind_none]
    | cons c rest =>
      have goes (tail : List Char) : ∀ d ∈ (c :: tail).head?, isAsciiBlank d = false := by simpa using ends c rfl
      have colon : after? [':'] (c :: (rest ++ gap)) = (after? [':'] (c :: rest)).map (· ++ gap) :=
        after?_gap blanks (by decide) (c :: rest)
      simp only [Option.map_some, Option.bind_eq_bind, Option.bind_some, List.append_assoc, List.cons_append,
        takeWhile_run ascii (goes _), dropWhile_run ascii (goes _), colon]
      cases after? [':'] (c :: rest) with
      | none => rfl
      | some after => simp [annotates_gap blanks, trim_append_blanks blanks]

theorem at?_blanks (scan : Scan) (column : Nat) (before : Option Char) : at? scan column before gap = none := by
  have left := at?_gap blanks scan column before []
  rw [List.nil_append] at left
  rw [left]
  unfold at?
  split_ifs <;> rfl

theorem firstPlaceFrom_gap {text : List Char} (column : Nat) (before : Option Char)
    (codes : ∀ place < column + text.length, left.codeAt place = right.codeAt place) :
    firstPlaceFrom (at? left) column before (text ++ gap) = firstPlaceFrom (at? right) column before text := by
  induction text generalizing column before with
  | nil =>
    have passed : firstPlaceFrom (at? left) column before (gap ++ []) =
        firstPlaceFrom (at? left) (column + gap.length) (gap.getLast?.or before) [] := by
      apply firstPlaceFrom_fails
      rintro front back rfl -
      rw [List.append_nil]
      exact at?_blanks (List.forall_mem_append.1 blanks).2 left _ _
    rw [List.append_nil] at passed
    exact passed
  | cons c text ih =>
    have here : at? left column before (c :: (text ++ gap)) = at? right column before (c :: text) := by
      rw [← List.cons_append, at?_gap blanks, at?_of_codeAt codes]
    rw [List.length_cons] at codes
    have later := ih (column + 1) (some c) fun place low => codes place (by omega)
    rw [List.cons_append, firstPlaceFrom, firstPlaceFrom, here, later]

end Binding

theorem definedTypes_gap {text : List Char} (codes : ∀ place < text.length, left.codeAt place = right.codeAt place) :
    definedTypes left (text ++ gap) = definedTypes right text := by
  have nothing (before : Option Char) : definition before [] = none := by
    unfold definition
    split_ifs <;> rfl
  have found : finds definition (text ++ gap) = finds definition text :=
    findsFrom_leavesGap nothing leavesGap_definition blanks text 0 none (Nat.zero_le _)
  rw [definedTypes, definedTypes, found]
  congr 1
  apply List.filter_congr
  intro place member
  obtain ⟨front, back, rfl, start, after, reads⟩ := exists_of_mem_findsFrom member
  rw [start, Nat.zero_add]
  apply codes
  cases back with
  | nil =>
    rw [nothing] at reads
    contradiction
  | cons c back => simp

end Line

theorem Lexical.Stripped.same_names {old new : Scan} (stripped : Stripped old new) :
    Binding.ofLine? old old.uncommented = Binding.ofLine? new new.uncommented ∧
      definedTypes old old.uncommented = definedTypes new new.uncommented := by
  obtain ⟨returns, all, text⟩ := stripped.text
  have blanks : Blanks returns := by
    intro c member
    rw [all c member]
    decide
  have whole : new.uncommented = new.text := by
    rw [Scan.uncommented, stripped.commentStart]
  have codes : ∀ place < new.text.length, old.codeAt place = new.codeAt place := by
    intro place low
    rw [← stripped.length] at low
    obtain ⟨rest, tags⟩ := stripped.tags
    rw [Scan.codeAt, Scan.codeAt, List.getD_eq_getElem?_getD, List.getD_eq_getElem?_getD, ← tags,
      List.getElem?_append_left low, List.getElem?_eq_getElem low, Option.getD_some, Option.getD_some]
  rw [text, whole]
  exact ⟨Binding.firstPlaceFrom_gap blanks 0 none (by simpa using codes), definedTypes_gap blanks codes⟩

/-- A text without its comments has as many lines, none of them with a comment and each tagged as before up to where a
comment was, with the same string state around it; and it has the same symbols. -/
theorem stripComments_faithful (text : List Char) :
    List.Forall₂ Stripped (scanText text) (scanText (stripComments text)) ∧
      Symbols.ofText (stripComments text) = Symbols.ofText text := by
  have lines := stripped_stripComments text
  refine ⟨lines, ?_⟩
  have alike := lines.imp fun old new stripped => by
    obtain ⟨binding, types⟩ := stripped.same_names
    have read (line : Nat) : Symbols.read? line old = Symbols.read? line new :=
      congrArg (Option.map (Symbol.ofBinding line)) binding
    exact And.intro types read
  rw [Symbols.ofText, Symbols.ofText, Symbols.ofScans, Symbols.ofScans, Symbols.addFrom_eq, Symbols.addFrom_eq]
  exact (Symbols.gather_congr alike .empty 0).symm

end ArturoInsight
