import ArturoInsight.Proofs.Document.Edits
import ArturoInsight.Proofs.Layout.Content

/-! The layout is faithful: its edits carry a document over to its layout, whose lines scan as the lines
did and hold the same code, strings and comments. -/

namespace ArturoInsight.Layout

open Text Lexical

/-- What the scans of a line before and after its layout agree on. -/
structure Faithful (old new : Scan) : Prop where
  carryIn : new.carryIn = old.carryIn
  carryOut : new.carryOut = old.carryOut
  code : codeCells new.cells = codeCells old.cells
  strings : stringCells new.cells = stringCells old.cells
  comment : trimEnd (commentText new.cells) = trimEnd (commentText old.cells)
  inside : old.carryIn.inString = true → new.text = old.text

theorem faithful_laidLine (size : Int) (depth : Nat) (carry : Carry) (text : List Char) :
    Faithful (scanLine carry text)
      (scanLine carry (laidLine { size := size } depth (scanLine carry text))) := by
  obtain ⟨last, same⟩ := @scanLine_laidLine carry text size depth
  refine ⟨rfl, congrArg State.carry last, same.code.symm, same.strings.symm, same.comment.symm, ?_⟩
  intro inside
  have inside : carry.inString = true := inside
  have kept : isKept (scanLine carry text) = true := by simp [isKept, scanLine, inside]
  exact if_pos kept

theorem faithful_laidLinesFrom (size : Int) (depth : Nat) (carry : Carry) (texts : List (List Char)) :
    List.Forall₂ Faithful (scanFrom carry texts)
      (scanFrom carry (laidLinesFrom { size := size } depth (scanFrom carry texts))) := by
  induction texts generalizing depth carry with
  | nil => exact .nil
  | cons text rest ih =>
    have first := faithful_laidLine size depth carry text
    refine .cons first ?_
    rw [first.carryOut]
    exact ih _ _

theorem length_laidLinesFrom (options : Options) (depth : Nat) (scans : List Scan) :
    (laidLinesFrom options depth scans).length = scans.length := by
  induction scans generalizing depth with
  | nil => rfl
  | cons scan rest ih => simp [laidLinesFrom, ih]

theorem length_laidLines (options : Options) (texts : List (List Char)) :
    (laidLines options texts).length = texts.length := by
  rw [laidLines, length_laidLinesFrom, scanLines, length_scanFrom]

theorem applyAll_changes (before olds news : List (List Char)) (lengths : olds.length = news.length) :
    Edit.applyAll ((((olds.zip news).zipIdx before.length).filter fun ((old, new), _) => old != new).map
      fun ((old, new), line) => ⟨.onLine line 0 old.length, new⟩) (before ++ olds) = before ++ news := by
  induction olds generalizing before news with
  | nil =>
    obtain rfl := List.length_eq_zero_iff.1 lengths.symm
    rfl
  | cons old olds ih =>
    obtain ⟨new, news, rfl⟩ := List.exists_cons_of_length_pos (by rw [← lengths]; simp)
    have later := ih (before ++ [old]) news (by simpa using lengths)
    rw [List.length_append, List.length_singleton, List.append_assoc, List.singleton_append,
      List.append_assoc, List.singleton_append] at later
    rw [List.zip_cons_cons, List.zipIdx_cons, List.filter_cons]
    split_ifs with differs
    · rw [List.map_cons, Edit.applyAll, List.foldr_cons, ← Edit.applyAll, later, Edit.apply_onLine]
    · rw [later]
      simp only [bne_iff_ne, ne_eq, Decidable.not_not] at differs
      rw [differs]

theorem mem_changes {olds news : List (List Char)} {edit : Edit} :
    edit ∈ changes olds news ↔ ∃ line old new, olds[line]? = some old ∧ news[line]? = some new ∧ old ≠ new ∧
      edit = ⟨.onLine line 0 old.length, new⟩ := by
  simp only [changes, List.mem_map, List.mem_filter, List.mem_zipIdx_iff_getElem?]
  constructor
  · rintro ⟨⟨⟨old, new⟩, line⟩, ⟨found, differs⟩, rfl⟩
    obtain ⟨first, second⟩ := List.getElem?_zip_eq_some.1 found
    exact ⟨line, old, new, first, second, by simpa using differs, rfl⟩
  · rintro ⟨line, old, new, first, second, differs, rfl⟩
    exact ⟨((old, new), line), ⟨List.getElem?_zip_eq_some.2 ⟨first, second⟩, by simpa using differs⟩, rfl⟩

theorem pairwise_changes (olds news : List (List Char)) :
    (changes olds news).Pairwise fun first second => first.region.first.line < second.region.first.line := by
  rw [changes, List.pairwise_map]
  exact (pairwise_zipIdx _).filter _

/-- Where every indentation can be written, the edits of a document, at most one for each line and only where a line
changes, give its layout; and the layout holds line by line what the document held. Where one cannot be written,
there are neither a layout nor edits, for the same reason. -/
theorem edits_faithful (size : Int) (texts : List (List Char)) :
    match lines { size := size } texts with
    | .error excess => edits size texts = .error excess ∧
        ∃ depth ∈ depths texts, excessOf? [' '] (size * depth) = some excess
    | .ok news => (∀ depth ∈ depths texts, excessOf? [' '] (size * depth) = none) ∧
        ∃ found, edits size texts = .ok found ∧ Edit.applyAll found texts = news ∧
          news.length = texts.length ∧
          (∀ edit ∈ found, ∃ line old new, texts[line]? = some old ∧ news[line]? = some new ∧ old ≠ new ∧
            edit = ⟨.onLine line 0 old.length, new⟩) ∧
          (found.Pairwise fun first second => first.region.first.line < second.region.first.line) ∧
          List.Forall₂ Faithful (scanLines texts) (scanLines news) := by
  cases laid : lines { size := size } texts with
  | error excess => exact ⟨by rw [edits, laid]; rfl, exists_depth_of_lines_eq_error laid⟩
  | ok news =>
    obtain ⟨fits, rfl⟩ := lines_eq_ok.1 laid
    have lengths := length_laidLines { size := size } texts
    have carried := applyAll_changes [] texts (laidLines { size := size } texts) lengths.symm
    refine ⟨fits, changes texts (laidLines { size := size } texts), by rw [edits, laid]; rfl, ?_, lengths,
      fun edit => mem_changes.1, pairwise_changes _ _, faithful_laidLinesFrom size 0 .none texts⟩
    simpa [changes] using carried

/-- A negative size gives no indentation, but this one does not even give a length. -/
theorem edits_of_uncountable :
    let size : Int := -10000000000000000000
    let texts := ["[".toList, "x".toList]
    lines { size := size } texts = .error .uncountable ∧ edits size texts = .error .uncountable := by
  decide +kernel

end ArturoInsight.Layout
