import ArturoInsight.Proofs.Layout.LineEnds
import ArturoInsight.Proofs.Layout.Settled

/-! The layout of a layout. A document in its layout is laid out again line by line from the same nesting,
so that it stays as it is exactly when all of its lines are final. -/

namespace ArturoInsight.Layout

open Text Lexical

section Views

theorem leadingClosers_solidCells (cells : List Cell) :
    leadingClosers (solidCells cells) = leadingClosers cells := by
  induction cells with
  | nil => rfl
  | cons cell rest ih =>
    obtain ⟨c, tag⟩ := cell
    have kept : solidCells ((c, tag) :: rest) =
        if isBlank c then solidCells rest else (c, tag) :: solidCells rest := by
      cases blank : isBlank c <;> simp [solidCells, blank]
    cases blank : isBlank c with
    | true => simpa [kept, blank, leadingClosers] using ih
    | false => simp [kept, blank, leadingClosers, ih]

theorem countP_code {marks : Char → Bool} (solid : ∀ c, marks c = true → isBlank c = false) (cells : List Cell) :
    (cells.filter (·.2.isCode)).countP (marks ·.1) = (codeCells cells).countP (marks ·.1) := by
  rw [codeCells, List.countP_filter, List.countP_filter]
  apply List.countP_congr
  intro cell _
  cases marked : marks cell.1 with
  | false => simp
  | true => simp [solid cell.1 marked]

theorem solids_map_fst (cells : List Cell) : solids (cells.map (·.1)) = (solidCells cells).map (·.1) := by
  rw [solids, solidCells, List.filter_map]
  rfl

theorem isBlankText_eq (text : List Char) : isBlankText text = (solids text).isEmpty := by
  rw [Bool.eq_iff_iff, List.isEmpty_iff, solids_eq_nil]
  exact List.all_eq_true

theorem isKept_eq (scan : Scan) : isKept scan =
    (scan.carryIn.inString || (solids scan.text).isEmpty || (solids scan.text).head? == some ';') := by
  rw [isKept, isBlankText_eq, head?_trim]

end Views

section Line

variable {carry : Carry} {text : List Char}

theorem nesting_eq (scan : Scan) : nesting scan =
    ((codeCells scan.cells).countP (isOpener ·.1) : Int) - (codeCells scan.cells).countP (isCloser ·.1) := by
  have opener : ∀ c, isOpener c = true → isBlank c = false := by
    intro c opens
    simp only [isOpener, Bool.or_eq_true, beq_iff_eq] at opens
    rcases opens with rfl | rfl <;> decide
  have closer : ∀ c, isCloser c = true → isBlank c = false := by
    intro c closes
    simp only [isCloser, Bool.or_eq_true, beq_iff_eq] at closes
    rcases closes with rfl | rfl <;> decide
  rw [nesting, countP_code opener, countP_code closer]

theorem again_laidLine (size : Int) (depth : Nat) {old new : Scan} (isOld : old = scanLine carry text)
    (isNew : new = scanLine carry (laidLine { size := size } depth old)) :
    isKept new = isKept old ∧ leadingClosers new.cells = leadingClosers old.cells ∧
      nesting new = nesting old ∧ new.last = old.last := by
  subst isOld
  obtain ⟨last, same⟩ := @scanLine_laidLine carry text size depth
  rw [← isNew] at last same
  have newText : solids new.text = (solidCells new.cells).map (·.1) := by
    rw [← solids_map_fst, isNew, map_fst_cells]
    rfl
  have oldText : solids text = (solidCells (scanLine carry text).cells).map (·.1) := by
    rw [← solids_map_fst, map_fst_cells]
  refine ⟨?_, ?_, ?_, last⟩
  · have carried : new.carryIn = carry := by rw [isNew]; rfl
    rw [isKept_eq, isKept_eq, carried, newText, ← same.solid, ← oldText]
    rfl
  · rw [← leadingClosers_solidCells, ← same.solid, leadingClosers_solidCells]
  · rw [nesting_eq, nesting_eq, same.code]

theorem dropWhile_rdropWhile (cells : List Cell) :
    ((cells.dropWhile isBlankCell).rdropWhile isBlankCell).dropWhile isBlankCell =
      (cells.dropWhile isBlankCell).rdropWhile isBlankCell := by
  cases first : (cells.dropWhile isBlankCell).rdropWhile isBlankCell with
  | nil => rfl
  | cons cell rest =>
    obtain ⟨more, whole⟩ := List.rdropWhile_prefix isBlankCell (cells.dropWhile isBlankCell)
    have stops := List.head?_dropWhile_not isBlankCell cells
    rw [← whole, first] at stops
    exact List.dropWhile_cons_of_neg (by simpa using stops)

theorem dropWhile_contentCells (scan : Scan) :
    (contentCells scan).dropWhile isBlankCell = contentCells scan := by
  unfold contentCells
  split_ifs
  · exact dropWhile_rdropWhile _
  · exact List.dropWhile_idempotent _ _

theorem stretches_lineCells (size : Int) (depth : Nat) (scan : Scan) :
    stretches ((lineCells size depth scan).dropWhile isBlankCell) = contentParts scan := by
  have blanks := blanks_padding size (depth - leadingClosers scan.cells)
  have gap : ∀ cell ∈ mark .code (padding { size := size } (depth - leadingClosers scan.cells)),
      isBlankCell cell = true := by simpa [mark, isBlankCell] using blanks
  rw [lineCells, List.dropWhile_append_of_pos gap, dropWhile_contentCells, ← unstretch_contentParts,
    (proper_contentParts scan).stretches_unstretch]

theorem cells_again (size : Int) (depth : Nat) (moves : isKept (scanLine carry text) = false) :
    (scanLine carry (laidLine { size := size } depth (scanLine carry text))).cells =
      lineCells size depth (scanLine carry text) := by
  obtain ⟨scans, -⟩ := scans_lineCells size depth moves
  rw [← scans_of_not_isKept moves] at scans
  rw [← map_fst_lineCells moves, cells_scanLine_of_scans scans]

/-- A line is final when it is kept, or its layout leaves its content as it is. -/
def Final (scan : Scan) : Prop :=
  isKept scan = false → Settled (stretches (scan.cells.dropWhile isBlankCell))

theorem content_again (size : Int) (depth : Nat) {old new : Scan} (isOld : old = scanLine carry text)
    (isNew : new = scanLine carry (laidLine { size := size } depth old)) (moves : isKept old = false) :
    content new = content old ↔ Settled (stretches (new.cells.dropWhile isBlankCell)) := by
  obtain ⟨keeps, -, -, last⟩ := again_laidLine size depth isOld isNew
  subst isOld
  have cells := cells_again size depth moves
  rw [← isNew] at cells
  have parts := stretches_lineCells size depth (scanLine carry text)
  rw [← cells] at parts
  have cut : isCut new = isCut (scanLine carry text) := by
    simp only [isCut, Scan.endTag, Scan.commentStart, last]
    split_ifs <;> rfl
  have again : contentParts new = contentParts (scanLine carry text) ↔
      Settled (contentParts (scanLine carry text)) := by
    rw [contentParts, parts, cut]
    exact settled_iff _ (begun_stretches _) rfl
  rw [parts, ← again, ← map_fst_contentCells, ← map_fst_contentCells]
  constructor
  · intro same
    have scans {text : List Char} (moves : isKept (scanLine carry text) = false) :
        Scans ⟨.code, 0⟩ (contentCells (scanLine carry text)) (scanLine carry text).last := by
      have scans := scans_cells_scanLine carry text
      rw [scans_of_not_isKept moves] at scans
      exact (scans_contentCells scans).1
    have newScans : Scans ⟨.code, 0⟩ (contentCells new) new.last := by
      rw [isNew] at keeps ⊢
      exact scans (keeps.trans moves)
    have cells := newScans.unique (scans moves) same
    rw [← unstretch_contentParts, ← unstretch_contentParts] at cells
    rw [← (proper_contentParts new).stretches_unstretch, cells,
      (proper_contentParts _).stretches_unstretch]
  · intro same
    rw [← unstretch_contentParts, same, unstretch_contentParts]

theorem laidLine_again (size : Int) (depth : Nat) {old new : Scan} (isOld : old = scanLine carry text)
    (isNew : new = scanLine carry (laidLine { size := size } depth old)) :
    laidLine { size := size } depth new = laidLine { size := size } depth old ↔ Final new := by
  obtain ⟨keeps, closers, -, -⟩ := again_laidLine size depth isOld isNew
  cases kept : isKept old with
  | true =>
    rw [kept] at keeps
    have same : laidLine { size := size } depth new = new.text := if_pos keeps
    have newText : new.text = laidLine { size := size } depth old := by rw [isNew]; rfl
    exact iff_of_true (same.trans newText) fun moves => by simp [keeps] at moves
  | false =>
    have moves := keeps.trans kept
    have whole : laidLine { size := size } depth new = laidLine { size := size } depth old ↔
        content new = content old := by simp [laidLine, moves, kept, closers]
    rw [whole, content_again size depth isOld isNew kept]
    exact ⟨fun settled _ => settled, fun final => final moves⟩

end Line

theorem laidLinesFrom_again (size : Int) (depth : Nat) (carry : Carry) {texts news : List (List Char)}
    (laid : laidLinesFrom { size := size } depth (scanFrom carry texts) = news) :
    laidLinesFrom { size := size } depth (scanFrom carry news) = news ↔
      ∀ scan ∈ scanFrom carry news, Final scan := by
  subst laid
  induction texts generalizing depth carry with
  | nil => simp [scanFrom, laidLinesFrom]
  | cons text rest ih =>
    have first := @laidLine_again carry text size depth _ _ rfl rfl
    obtain ⟨-, -, nesting, last⟩ := @again_laidLine carry text size depth _ _ rfl rfl
    have later := ih (depth + Layout.nesting (scanLine carry text)).toNat (scanLine carry text).carryOut
    have carried : (scanLine carry (laidLine { size := size } depth (scanLine carry text))).carryOut =
        (scanLine carry text).carryOut := congrArg State.carry last
    simp only [scanFrom, laidLinesFrom, List.cons.injEq, List.forall_mem_cons, carried, nesting, first, later]

theorem depthsFrom_again (size : Int) (depth : Nat) (carry : Carry) (texts : List (List Char)) :
    depthsFrom depth (scanFrom carry (laidLinesFrom { size := size } depth (scanFrom carry texts))) =
      depthsFrom depth (scanFrom carry texts) := by
  induction texts generalizing depth carry with
  | nil => rfl
  | cons text rest ih =>
    obtain ⟨kept, closers, nesting, last⟩ := @again_laidLine carry text size depth _ _ rfl rfl
    have carried : (scanLine carry (laidLine { size := size } depth (scanLine carry text))).carryOut =
        (scanLine carry text).carryOut := congrArg State.carry last
    simp only [scanFrom, laidLinesFrom, depthsFrom, kept, closers, nesting, carried, ih]

theorem lines_again {size : Int} {texts news : List (List Char)} (laid : lines { size := size } texts = .ok news) :
    lines { size := size } news = .ok news ↔ ∀ scan ∈ scanLines news, Final scan := by
  obtain ⟨fits, rfl⟩ := lines_eq_ok.1 laid
  have sameDepths : depths (laidLines { size := size } texts) = depths texts := depthsFrom_again size 0 .none texts
  rw [lines_eq_ok, sameDepths, and_iff_right fits, eq_comm]
  exact laidLinesFrom_again size 0 .none rfl

/-- Laying out a text twice is laying it out once, exactly when its layout cannot be written or every line of it
is kept or has its label joined to its colon and no loose minus. -/
theorem text_text_iff (size : Int) (content : List Char) :
    Layout.text { size := size } content >>= Layout.text { size := size } = Layout.text { size := size } content ↔
      ∀ result, Layout.text { size := size } content = .ok result → ∀ scan ∈ scanText result, Final scan := by
  cases written : lines { size := size } (Text.lines content) with
  | error excess => simp [Layout.text, written, Except.map, bind, Except.bind]
  | ok news =>
    have once : Layout.text { size := size } content = .ok (joinLines news) := by rw [Layout.text, written]; rfl
    have inside := lines_joinLines_lines written
    have again : Layout.text { size := size } (joinLines news) = .ok (joinLines news) ↔
        lines { size := size } news = .ok news := by
      rw [Layout.text, inside]
      cases second : lines { size := size } news with
      | error excess => simp [Except.map]
      | ok others =>
        have insideAgain : Text.lines (joinLines others) = others :=
          lines_joinLines_lines (by rw [inside]; exact second)
        refine ⟨fun same => ?_, fun same => by rw [Except.ok.inj same]; rfl⟩
        have texts := congrArg Text.lines (Except.ok.inj same)
        rw [insideAgain, inside] at texts
        rw [texts]
    simp only [once, Except.ok.injEq, forall_eq', scanText, inside]
    exact again.trans (lines_again written)

/-- An operator after the colon pulls a label that stood apart to its name, one layout too late. -/
theorem text_text_ne : Layout.text {} "a :+b".toList >>= Layout.text {} ≠ Layout.text {} "a :+b".toList := by
  decide +kernel

end ArturoInsight.Layout
