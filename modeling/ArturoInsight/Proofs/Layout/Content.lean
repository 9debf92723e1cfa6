import ArturoInsight.Proofs.Layout.Label
import ArturoInsight.Proofs.Layout.Laid
import ArturoInsight.Proofs.Layout.Relaid
import ArturoInsight.Proofs.Layout.Stretches

/-! The content of a laid out line as cells. It scans as the line did, and holds the same code, strings
and comment. -/

namespace ArturoInsight.Layout

open Text Lexical

def labelFirst : List (Tag × List Char) → List (Tag × List Char)
  | [] => []
  | (tag, text) :: rest => (tag, if tag.isCode then spaceLabel text else text) :: rest

def laidParts (parts : List (Tag × List Char)) : List (Tag × List Char) :=
  parts.map fun part => (part.1, stretch false part)

def contentCells (scan : Scan) : List Cell :=
  let parts := laidParts (labelFirst (stretches (scan.cells.dropWhile isBlankCell)))
  let line := (unstretch parts).dropWhile isBlankCell
  if scan.endTag.isCode || scan.commentStart.isSome then line.rdropWhile isBlankCell else line

theorem map_fst_unstretch_laidParts (parts : List (Tag × List Char)) :
    (unstretch (laidParts parts)).map (·.1) = parts.flatMap (stretch false) := by
  induction parts with
  | nil => rfl
  | cons part rest ih =>
    rw [laidParts, List.map_cons, unstretch_cons, List.map_append, map_fst_mark, List.flatMap_cons, ← ih]
    rfl

theorem stretch_true (tag : Tag) (text : List Char) :
    stretch true (tag, text) = stretch false (tag, if tag.isCode then spaceLabel text else text) := by
  cases code : tag.isCode <;> simp [stretch, code, code_eq_laid]

theorem map_fst_contentCells (scan : Scan) : (contentCells scan).map (·.1) = content scan := by
  have started : scan.cells.dropWhile isBlankCell = scan.cells.dropWhile fun cell => isBlank cell.1 := rfl
  unfold contentCells content
  rw [started]
  cases stretches (scan.cells.dropWhile fun cell => isBlank cell.1) with
  | nil => split_ifs <;> rfl
  | cons first rest =>
    have parts : (unstretch (laidParts (labelFirst (first :: rest)))).map (·.1) =
        stretch true first ++ rest.flatMap (stretch false) := by
      rw [map_fst_unstretch_laidParts]
      exact congrArg (· ++ _) (stretch_true first.1 first.2).symm
    split_ifs
    · refine (map_fst_rdropWhile _).trans ?_
      rw [map_fst_dropWhile, parts]
    · refine (map_fst_dropWhile _).trans ?_
      rw [parts]

theorem laidParts_cons (tag : Tag) (text : List Char) (rest : List (Tag × List Char)) :
    laidParts ((tag, text) :: rest) =
      (tag, if tag.isCode then laid false text else text) :: laidParts rest := by
  simp [laidParts, stretch, code_eq_laid]

theorem proper_labelFirst {parts : List (Tag × List Char)} (proper : Proper parts) :
    Proper (labelFirst parts) := by
  cases parts with
  | nil => exact .nil
  | cons part rest =>
    obtain ⟨tag, text⟩ := part
    obtain ⟨some_, later⟩ := List.forall_mem_cons.1 proper.filled
    refine proper.of_tags rfl (List.forall_mem_cons.2 ⟨?_, later⟩)
    split_ifs
    · exact spaceLabel_ne_nil some_
    · exact some_

theorem relaid_laidParts {parts : List (Tag × List Char)} (proper : Proper parts) :
    Relaid none (unstretch parts) (unstretch (laidParts parts)) := by
  induction parts with
  | nil => exact .nil
  | cons part rest ih =>
    obtain ⟨tag, text⟩ := part
    rw [laidParts_cons, unstretch_cons, unstretch_cons]
    have later := ih proper.tail
    cases code : tag.isCode with
    | true => exact relaid_laid code later proper.head?_unstretch text none (by simp)
    | false =>
      have kept (text : List Char) : Relaid none (mark tag text ++ unstretch rest)
          (mark tag text ++ unstretch (laidParts rest)) := by
        induction text with
        | nil => exact later
        | cons c text more => exact .other code more
      exact kept text

theorem inert_name {name tail : List Char} (taken : Name.Taken tail name) : Inert name := by
  intro c member
  have part := taken.part member
  refine ⟨?_, ?_, ?_⟩
  · simp only [endsCode, Bool.or_eq_false_iff, beq_eq_false_iff_ne]
    refine ⟨⟨⟨?_, ?_⟩, ?_⟩, ?_⟩ <;> rintro rfl <;> exact absurd part (by decide)
  all_goals
    rintro rfl
    exact absurd part (by decide)

theorem scans_spaceLabel {depth : Nat} {tag : Tag} {text : List Char} {rest : List Cell} {last : State}
    (code : tag.isCode = true) (scans : Scans ⟨.code, depth⟩ (mark tag text ++ rest) last) :
    Scans ⟨.code, depth⟩ (mark tag (spaceLabel text) ++ rest) last ∧
      SameContent (mark tag text ++ rest) (mark tag (spaceLabel text) ++ rest) := by
  obtain same | ⟨name, gap, after, labelled, -, written⟩ := spaceLabel_cases text
  · rw [same]
    exact ⟨scans, rfl, rfl, rfl⟩
  obtain ⟨run, tail, rfl, ascii, stops⟩ := exists_run isAsciiBlank after
  rw [dropWhile_run ascii stops] at written
  have gaps : Blanks gap := fun c member => isBlank_of_isAsciiBlank (labelled.blanks c member)
  have runs : Blanks run := fun c member => isBlank_of_isAsciiBlank (ascii c member)
  have named := inert_name labelled.taken
  have whole : text = name ++ gap ++ [':'] ++ run ++ tail := by rw [labelled.whole]; simp
  have label : spaceLabel text = name ++ [':'] ++ [' '] ++ tail := by rw [written]; simp
  have colon : Inert [':'] := by unfold Inert; decide
  have before : Inert (name ++ gap ++ [':'] ++ run) :=
    inert_append (inert_append (inert_append named (inert_blanks gaps)) colon) (inert_blanks runs)
  have after : Inert (name ++ [':'] ++ [' ']) :=
    inert_append (inert_append named colon) (inert_blanks (by decide))
  constructor
  · rw [label, mark_append, List.append_assoc]
    rw [whole, mark_append, List.append_assoc] at scans
    obtain ⟨same, later⟩ := (scans_inert before).1 scans
    exact (scans_inert after).2 ⟨fun _ => same (by simp), later⟩
  · apply sameContent_of_filter
    intro shown overlooks
    rw [label, whole]
    simp only [mark_append, List.filter_append, filter_mark_of_blanks overlooks code gaps,
      filter_mark_of_blanks overlooks code runs,
      filter_mark_of_blanks overlooks code blanks_one, List.append_nil]

theorem scans_labelFirst {depth : Nat} {parts : List (Tag × List Char)} {last : State}
    (scans : Scans ⟨.code, depth⟩ (unstretch parts) last) :
    Scans ⟨.code, depth⟩ (unstretch (labelFirst parts)) last ∧
      SameContent (unstretch parts) (unstretch (labelFirst parts)) := by
  match parts with
  | [] => exact ⟨scans, rfl, rfl, rfl⟩
  | (tag, text) :: rest =>
    rw [unstretch_cons] at scans
    cases code : tag.isCode with
    | true => simpa [labelFirst, code] using scans_spaceLabel code scans
    | false => simpa [labelFirst, code] using ⟨scans, rfl, rfl, rfl⟩

theorem ends_of_trimmed {scan : Scan} (fits : Fits scan.last [])
    (trimmed : scan.endTag.isCode || scan.commentStart.isSome) :
    scan.last.mode = .code ∨ scan.last.mode = .comment := by
  rw [Bool.or_eq_true] at trimmed
  obtain code | comment := trimmed
  · exact .inl (fits.mode_of_endTag code)
  · right
    by_contra other
    simp [Scan.commentStart, other] at comment

def labelCells (cells : List Cell) : List Cell := unstretch (labelFirst (stretches (cells.dropWhile isBlankCell)))

def laidCells (cells : List Cell) : List Cell :=
  unstretch (laidParts (labelFirst (stretches (cells.dropWhile isBlankCell))))

theorem relaid_laidCells (cells : List Cell) : Relaid none (labelCells cells) (laidCells cells) :=
  relaid_laidParts (proper_labelFirst (proper_stretches (cells.dropWhile isBlankCell)))

theorem scans_laidCells {depth : Nat} {cells : List Cell} {last : State} (scans : Scans ⟨.code, depth⟩ cells last) :
    Scans ⟨.code, depth⟩ (labelCells cells) last ∧ Scans ⟨.code, depth⟩ (laidCells cells) last ∧
      SameContent cells (laidCells cells) := by
  have started := scans_dropWhile scans
  have sameStarted := sameContent_dropWhile scans
  rw [← unstretch_stretches (cells.dropWhile isBlankCell)] at started sameStarted
  obtain ⟨labelled, sameLabelled⟩ := scans_labelFirst started
  have relaid := relaid_laidCells cells
  have laid := relaid.scans (fits_code _ _) (by simp) labelled
  have sameLaid := sameContent_of_filter fun shown overlooks => relaid.filter_eq overlooks
  exact ⟨labelled, laid, (sameStarted.trans sameLabelled).trans sameLaid⟩

theorem contentCells_eq (scan : Scan) : contentCells scan =
    if scan.endTag.isCode || scan.commentStart.isSome then
      ((laidCells scan.cells).dropWhile isBlankCell).rdropWhile isBlankCell
    else (laidCells scan.cells).dropWhile isBlankCell := rfl

theorem scans_contentCells {scan : Scan} {depth : Nat}
    (scans : Scans ⟨.code, depth⟩ scan.cells scan.last) :
    Scans ⟨.code, depth⟩ (contentCells scan) scan.last ∧ SameContent scan.cells (contentCells scan) := by
  have fits (cells : List Cell) : Fits ⟨.code, depth⟩ (cells.map (·.1)) := fits_code _ _
  obtain ⟨-, laid, same⟩ := scans_laidCells scans
  have line := scans_dropWhile laid
  have sameLine := same.trans (sameContent_dropWhile laid)
  rw [contentCells_eq]
  split_ifs with trimmed
  · have ends := ends_of_trimmed (scans.fits_last (fits _)) trimmed
    exact ⟨scans_rdropWhile (fun _ => id) (fits _) ends line, sameLine.trans (sameContent_rdropWhile (fits _) ends line)⟩
  · exact ⟨line, sameLine⟩

theorem eq_of_mem_padding {size : Int} {depth : Nat} {c : Char}
    (member : c ∈ padding { size := size } depth) : c = ' ' := by
  obtain ⟨unit, units, inside⟩ := List.mem_flatten.1 member
  rw [List.eq_of_mem_replicate units] at inside
  exact List.mem_singleton.1 inside

theorem blanks_padding (size : Int) (depth : Nat) : Blanks (padding { size := size } depth) := by
  intro c member
  rw [eq_of_mem_padding member]
  decide

section Line

variable {carry : Carry} {text : List Char}

theorem scans_of_not_isKept (moves : isKept (scanLine carry text) = false) :
    State.ofCarry carry = ⟨.code, 0⟩ := by
  have outside : carry.inString = false := by
    simp only [isKept, Bool.or_eq_false_iff] at moves
    exact moves.1.1
  simp [State.ofCarry, Carry.active?, outside]

def lineCells (size : Int) (depth : Nat) (scan : Scan) : List Cell :=
  mark .code (padding { size := size } (depth - leadingClosers scan.cells)) ++ contentCells scan

theorem map_fst_lineCells {size : Int} {depth : Nat} {scan : Scan} (moves : isKept scan = false) :
    (lineCells size depth scan).map (·.1) = laidLine { size := size } depth scan := by
  simp [lineCells, laidLine, moves, map_fst_contentCells]

theorem scans_lineCells (size : Int) (depth : Nat) (moves : isKept (scanLine carry text) = false) :
    Scans ⟨.code, 0⟩ (lineCells size depth (scanLine carry text)) (scanLine carry text).last ∧
      SameContent (scanLine carry text).cells (lineCells size depth (scanLine carry text)) := by
  have started := scans_of_not_isKept moves
  have scans := scans_cells_scanLine carry text
  rw [started] at scans
  obtain ⟨content, same⟩ := scans_contentCells scans
  have blanks := blanks_padding size (depth - leadingClosers (scanLine carry text).cells)
  refine ⟨(scans_inert (inert_blanks blanks)).2 ⟨fun _ => rfl, content⟩, same.trans ?_⟩
  apply sameContent_of_filter
  intro shown overlooks
  have hidden := @filter_mark_of_blanks shown overlooks .code rfl _ blanks
  simp [lineCells, hidden]

theorem scanLine_laidLine (size : Int) (depth : Nat) :
    (scanLine carry (laidLine { size := size } depth (scanLine carry text))).last =
        (scanLine carry text).last ∧
      SameContent (scanLine carry text).cells
        (scanLine carry (laidLine { size := size } depth (scanLine carry text))).cells := by
  cases kept : isKept (scanLine carry text) with
  | true =>
    have same : laidLine { size := size } depth (scanLine carry text) = text := if_pos kept
    rw [same]
    exact ⟨rfl, rfl, rfl, rfl⟩
  | false =>
    obtain ⟨scans, same⟩ := scans_lineCells size depth kept
    rw [← scans_of_not_isKept kept] at scans
    rw [← map_fst_lineCells kept, cells_scanLine_of_scans scans, scans.scanLine_eq]
    exact ⟨rfl, same⟩

end Line

end ArturoInsight.Layout
