import ArturoInsight.Proofs.Layout.Faithful
import ArturoInsight.Proofs.Layout.Parts
import ArturoInsight.Proofs.Text.Lines

/-! The layout of a text has the lines that it was joined from: no line of a layout holds a line feed, and
no carriage return ends one. -/

namespace ArturoInsight.Layout

open Text Lexical

section Members

theorem mem_laid {after : Bool} {text : List Char} {c : Char} (member : c ∈ laid after text) :
    c = ' ' ∨ c ∈ text := by
  have spaced {gap : List Char} {left right : Bool} (inside : c ∈ space left gap right) : c = ' ' ∨ c ∈ gap := by
    unfold space collapse at inside
    split_ifs at inside
    · exact .inl (by simpa using inside)
    · exact .inl (by simpa using inside)
    · exact .inr inside
  induction text using words_induction generalizing after with
  | blanks gap blanks =>
    rw [laid_blanks blanks] at member
    exact spaced member
  | plain gap d rest blanks solid plain ih =>
    rw [laid_plain blanks _ solid plain, List.mem_append, List.mem_cons] at member
    rw [List.mem_append, List.mem_cons]
    obtain inside | rfl | later := member
    · exact (spaced inside).imp_right .inl
    · exact .inr (.inr (.inl rfl))
    · exact (ih later).imp_right fun more => .inr (.inr more)
  | operator gap sign tail blanks found ih =>
    rw [laid_operator blanks _ found, List.cons_append, List.mem_cons, List.mem_append] at member
    rw [List.mem_append, List.mem_append]
    obtain rfl | inside | later := member
    · exact .inl rfl
    · exact .inr (.inr (.inl inside))
    · exact (ih later).imp_right fun more => .inr (.inr more)

theorem mem_spaceLabel {text : List Char} {c : Char} (member : c ∈ spaceLabel text) :
    c = ' ' ∨ c ∈ text := by
  obtain same | ⟨name, gap, rest, labelled, -, written⟩ := spaceLabel_cases text
  · exact .inr (same ▸ member)
  · have tail := (List.dropWhile_suffix (l := rest) isAsciiBlank).subset
    rw [written] at member
    rw [labelled.whole]
    simp only [List.mem_append, List.mem_cons] at member ⊢
    tauto

theorem mem_stretch {atStart : Bool} {part : Tag × List Char} {c : Char}
    (member : c ∈ stretch atStart part) : c = ' ' ∨ c ∈ part.2 := by
  unfold stretch at member
  split_ifs at member
  · rw [code_eq_laid] at member
    obtain space | inside := mem_laid member
    · exact .inl space
    · cases atStart
      · exact .inr inside
      · exact mem_spaceLabel inside
  · exact .inr member

theorem mem_of_mem_stretches {cells : List Cell} {part : Tag × List Char} (member : part ∈ stretches cells)
    {c : Char} (inside : c ∈ part.2) : c ∈ cells.map (·.1) := by
  rw [← unstretch_stretches cells, unstretch, List.map_flatMap]
  exact List.mem_flatMap.2 ⟨part, member, by simpa using inside⟩

theorem mem_content {scan : Scan} {c : Char} (member : c ∈ content scan) :
    c = ' ' ∨ c ∈ scan.cells.map (·.1) := by
  have started := (List.dropWhile_suffix (fun cell : Cell => isBlank cell.1) (l := scan.cells)).subset
  have whole {part : Tag × List Char} {atStart : Bool}
      (stretched : part ∈ stretches (scan.cells.dropWhile fun cell => isBlank cell.1))
      (inside : c ∈ stretch atStart part) : c = ' ' ∨ c ∈ scan.cells.map (·.1) :=
    (mem_stretch inside).imp_right fun inside =>
      List.map_subset _ started (mem_of_mem_stretches stretched inside)
  unfold content at member
  cases split : stretches (scan.cells.dropWhile fun cell => isBlank cell.1) with
  | nil =>
    rw [split] at member
    split_ifs at member <;> contradiction
  | cons first rest =>
    rw [split] at member whole
    have parts : c ∈ stretch true first ++ rest.flatMap (stretch false) := by
      split_ifs at member
      · exact (List.dropWhile_suffix isBlank).subset ((List.rdropWhile_prefix isBlank _).subset member)
      · exact (List.dropWhile_suffix isBlank).subset member
    obtain inside | later := List.mem_append.1 parts
    · exact whole List.mem_cons_self inside
    · obtain ⟨part, stretched, inside⟩ := List.mem_flatMap.1 later
      exact whole (List.mem_cons_of_mem first stretched) inside

end Members

section LineEnd

theorem getLast?_of_scans {state last : State} {cells : List Cell} (fits : Fits state (cells.map (·.1)))
    (scans : Scans state cells last) {tag : Tag} (inside : last.mode.tag? = some tag) (some_ : cells ≠ []) :
    cells.getLast?.map (·.2) = some tag := by
  induction cells generalizing state with
  | nil => contradiction
  | cons cell rest ih =>
    obtain ⟨tagged, later⟩ := scans_cons.1 scans
    cases rest with
    | nil =>
      rw [scans_nil.1 later] at inside
      rw [List.getLast?_singleton, Option.map_some, ← tagged]
      exact congrArg some (State.step_fst_of_tag? inside)
    | cons next more => simpa using ih fits.step later (by simp)

theorem getLast?_stringCells {cells : List Cell} {cell : Cell} (last : cells.getLast? = some cell)
    (string : cell.2.isString = true) : (stringCells cells).getLast? = some cell := by
  obtain ⟨before, rfl⟩ := List.getLast?_eq_some_iff.1 last
  simp [stringCells, string]

theorem exists_string_of_not_isCut {scan : Scan} (fits : Fits scan.last []) (kept : isCut scan = false) :
    ∃ tag, scan.last.mode.tag? = some tag ∧ tag.isString = true := by
  simp only [isCut, Bool.or_eq_false_iff] at kept
  obtain ⟨other, open_⟩ := kept
  have comment : scan.last.mode ≠ .comment := by
    intro comment
    simp [Scan.commentStart, comment] at open_
  cases inside : scan.last.mode.tag? with
  | none =>
    rw [Scan.endTag, State.endTag, Mode.tag?_eq_none.1 inside, State.codeTag] at other
    split_ifs at other
    · contradiction
    · contradiction
  | some tag => exact ⟨tag, rfl, (fits.form tag inside).resolve_right comment⟩

theorem exists_getLast? {depth : Nat} {cells : List Cell} {last : State} {tag : Tag}
    (scans : Scans ⟨.code, depth⟩ cells last) (inside : last.mode.tag? = some tag)
    (string : tag.isString = true) :
    ∃ cell, cells.getLast? = some cell ∧ (stringCells cells).getLast? = some cell := by
  have some_ : cells ≠ [] := by
    rintro rfl
    rw [scans_nil.1 scans] at inside
    simp [Mode.tag?] at inside
  have tagged := getLast?_of_scans (fits_code _ _) scans inside some_
  obtain ⟨cell, found, rfl⟩ := Option.map_eq_some_iff.1 tagged
  exact ⟨cell, found, getLast?_stringCells found string⟩

theorem getLast?_content {depth : Nat} {scan : Scan} (scans : Scans ⟨.code, depth⟩ scan.cells scan.last)
    {c : Char} (last : (content scan).getLast? = some c) (blank : isBlank c = true) :
    (scan.cells.map (·.1)).getLast? = some c := by
  cases cut : isCut scan with
  | true =>
    unfold content at last
    split_ifs at last with trimmed
    · rw [getLast?_trimEnd last] at blank
      contradiction
    · exact absurd cut trimmed
  | false =>
    obtain ⟨tag, inside, string⟩ := exists_string_of_not_isCut (scans.fits_last (fits_code _ _)) cut
    obtain ⟨laid, same⟩ := scans_contentCells scans
    obtain ⟨cell, found, shown⟩ := exists_getLast? scans inside string
    obtain ⟨cell', found', shown'⟩ := exists_getLast? laid inside string
    rw [← same.strings, shown, Option.some.injEq] at shown'
    rw [← map_fst_contentCells, List.getLast?_map, found', ← shown'] at last
    rw [List.getLast?_map, found]
    exact last

theorem isLine_laidLine (size : Int) (depth : Nat) {carry : Carry} {text : List Char} (whole : IsLine text) :
    IsLine (laidLine { size := size } depth (scanLine carry text)) := by
  cases moves : isKept (scanLine carry text) with
  | true => rwa [show laidLine { size := size } depth (scanLine carry text) = text from if_pos moves]
  | false =>
    have scans := scans_cells_scanLine carry text
    rw [scans_of_not_isKept moves] at scans
    have written : laidLine { size := size } depth (scanLine carry text) =
        padding { size := size } (depth - leadingClosers (scanLine carry text).cells) ++
          content (scanLine carry text) := if_neg (by simp [moves])
    rw [written]
    constructor
    · intro feed
      obtain inside | inside := List.mem_append.1 feed
      · exact absurd (eq_of_mem_padding inside) (by decide)
      · obtain space | inside := mem_content inside
        · exact absurd space (by decide)
        · rw [map_fst_cells] at inside
          exact whole.feeds inside
    · intro last
      rw [List.getLast?_append, Option.or_eq_some_iff] at last
      obtain last | ⟨-, last⟩ := last
      · have ends := getLast?_content scans last (by decide)
        rw [map_fst_cells] at ends
        exact whole.returns ends
      · exact absurd (eq_of_mem_padding (List.mem_of_getLast? last)) (by decide)

end LineEnd

theorem isLine_laidLinesFrom (size : Int) (depth : Nat) (carry : Carry) {texts : List (List Char)}
    (whole : ∀ text ∈ texts, IsLine text) :
    ∀ text ∈ laidLinesFrom { size := size } depth (scanFrom carry texts), IsLine text := by
  induction texts generalizing depth carry with
  | nil => simp [scanFrom, laidLinesFrom]
  | cons text rest ih =>
    obtain ⟨first, later⟩ := List.forall_mem_cons.1 whole
    exact List.forall_mem_cons.2 ⟨isLine_laidLine size depth first, ih _ _ later⟩

theorem lines_joinLines_lines {size : Int} {content : List Char} {news : List (List Char)}
    (laid : lines { size := size } (Text.lines content) = .ok news) : Text.lines (joinLines news) = news := by
  obtain ⟨-, rfl⟩ := lines_eq_ok.1 laid
  refine lines_joinLines ?_ (isLine_laidLinesFrom size 0 .none fun text => isLine_of_mem_lines)
  intro none
  have lengths := length_laidLines { size := size } (Text.lines content)
  rw [none] at lengths
  exact lines_ne_nil content (List.length_eq_zero_iff.1 lengths.symm)

end ArturoInsight.Layout
