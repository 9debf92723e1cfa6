import ArturoInsight.Proofs.Layout.Stability
import ArturoInsight.Proofs.Lexical.Indented

/-! The layout of a document does not go by the indentation that it finds. Lines that differ in their leading blanks
alone hold the same brackets in code and the same content, and leave the same string state to the lines after them. -/

namespace ArturoInsight.Layout

open Text Lexical

/-- A line outside strings that is neither blank nor only a comment, so that its indentation is free. -/
structure Movable (scan : Scan) : Prop where
  outside : scan.carryIn.inString = false
  shown : isBlankText scan.text = false
  code : scan.isCommentOnly = false

instance (scan : Scan) : Decidable (Movable scan) :=
  decidable_of_iff (scan.carryIn.inString = false ∧ isBlankText scan.text = false ∧ scan.isCommentOnly = false)
    ⟨fun ⟨outside, shown, code⟩ => ⟨outside, shown, code⟩, fun movable => ⟨movable.outside, movable.shown, movable.code⟩⟩

/-- The text of a line, or that text with other blanks before it where the line may be moved. -/
def Reindented (scan : Scan) (text : List Char) : Prop :=
  scan.text = text ∨ Movable scan ∧ trimStart scan.text = trimStart text

instance (scan : Scan) (text : List Char) : Decidable (Reindented scan text) :=
  inferInstanceAs (Decidable (_ ∨ _))

/-- What the layout of a document takes of a line, from any nesting on. -/
structure SameLayout (left right : Scan) : Prop where
  nesting : nesting left = nesting right
  line (options : Options) (depth : Nat) : line options depth left = line options depth right

theorem SameLayout.refl (scan : Scan) : SameLayout scan scan := ⟨rfl, fun _ _ => rfl⟩

section Line

variable {carry : Carry} {text other : List Char}

theorem Movable.moves (movable : Movable (scanLine carry text)) : isKept (scanLine carry text) = false := by
  have outside : carry.inString = false := movable.outside
  have code : (trim text).head? ≠ some ';' := by
    rw [ne_eq, ← isCommentOnly_iff_of_closed outside, movable.code]
    decide
  have shown : isBlankText text = false := movable.shown
  rw [isKept, movable.outside, Scan.text_scanLine, shown, Bool.false_or, Bool.false_or, beq_eq_false_iff_ne]
  exact code

theorem solids_of_trimStart (same : trimStart text = trimStart other) : solids text = solids other := by
  rw [← solids_trimStart text, same, solids_trimStart]

theorem content_congr {left right : Scan}
    (cells : left.cells.dropWhile isBlankCell = right.cells.dropWhile isBlankCell) (last : left.last = right.last) :
    content left = content right := by
  have commented : left.commentStart.isSome = right.commentStart.isSome := by
    rw [Scan.commentStart, Scan.commentStart, last]
    split_ifs <;> rfl
  have ends : left.endTag = right.endTag := congrArg State.endTag last
  rw [← map_fst_contentCells, ← map_fst_contentCells, contentCells_eq, contentCells_eq, laidCells, laidCells, cells,
    ends, commented]

theorem sameLayout_of_trimStart (movable : Movable (scanLine carry text)) (same : trimStart text = trimStart other) :
    SameLayout (scanLine carry text) (scanLine carry other) ∧
      (scanLine carry text).last = (scanLine carry other).last := by
  have outside : carry.inString = false := movable.outside
  obtain ⟨cells, last⟩ := dropWhile_cells_of_trimStart outside same
  have held (text : List Char) : SameContent (scanLine carry text).cells
      ((scanLine carry text).cells.dropWhile isBlankCell) := sameContent_dropWhile (scans_of_closed outside text)
  have solid : solidCells (scanLine carry text).cells = solidCells (scanLine carry other).cells := by
    rw [(held text).solid, cells, ← (held other).solid]
  have code : codeCells (scanLine carry text).cells = codeCells (scanLine carry other).cells := by
    rw [(held text).code, cells, ← (held other).code]
  have kept : isKept (scanLine carry text) = isKept (scanLine carry other) := by
    rw [isKept_eq, isKept_eq, Scan.text_scanLine, Scan.text_scanLine, solids_of_trimStart same]
    rfl
  have closers : leadingClosers (scanLine carry text).cells = leadingClosers (scanLine carry other).cells := by
    rw [← leadingClosers_solidCells, solid, leadingClosers_solidCells]
  refine ⟨⟨?_, fun options depth => ?_⟩, last⟩
  · rw [nesting_eq, nesting_eq, code]
  · have moves : isKept (scanLine carry other) = false := kept.symm.trans movable.moves
    simp [line, movable.moves, moves, closers, content_congr cells last]

theorem Reindented.sameLayout (reindented : Reindented (scanLine carry text) other) :
    SameLayout (scanLine carry text) (scanLine carry other) ∧
      (scanLine carry text).carryOut = (scanLine carry other).carryOut := by
  rcases reindented with same | ⟨movable, same⟩
  · obtain rfl : text = other := same
    exact ⟨.refl _, rfl⟩
  · obtain ⟨alike, last⟩ := sameLayout_of_trimStart movable same
    exact ⟨alike, congrArg State.carry last⟩

end Line

theorem sameLayout_of_reindented (carry : Carry) {texts others : List (List Char)}
    (same : List.Forall₂ Reindented (scanFrom carry texts) others) :
    List.Forall₂ SameLayout (scanFrom carry texts) (scanFrom carry others) := by
  induction texts generalizing carry others with
  | nil =>
    cases same
    exact .nil
  | cons text rest ih =>
    obtain ⟨other, more, here, later, rfl⟩ := List.forall₂_cons_left_iff.1 same
    obtain ⟨alike, carried⟩ := here.sameLayout
    rw [scanFrom, scanFrom, ← carried]
    exact .cons alike (ih _ later)

theorem linesFrom_congr {lefts rights : List Scan} (same : List.Forall₂ SameLayout lefts rights) (options : Options)
    (depth : Nat) : linesFrom options depth lefts = linesFrom options depth rights := by
  induction same generalizing depth with
  | nil => rfl
  | cons here _ ih => rw [linesFrom, linesFrom, here.line, here.nesting, ih]

/-- Documents that differ in the indentation of lines that may be moved have the same layout, with any size and unit,
and what keeps it from being written is the same. -/
theorem lines_of_reindented (options : Options) {texts others : List (List Char)}
    (same : List.Forall₂ Reindented (scanLines texts) others) : lines options texts = lines options others :=
  linesFrom_congr (sameLayout_of_reindented .none same) options 0

theorem lines_of_reindented_block :
    let texts := ["loop x [".toList, "print \x7b:a".toList, "  b:\x7d ; c".toList, "  ]".toList]
    let others := ["  loop x [".toList, "\t print \x7b:a".toList, "  b:\x7d ; c".toList, "]".toList]
    List.Forall₂ Reindented (scanLines texts) others ∧ lines {} texts = lines {} others := by
  intro texts others
  have same : List.Forall₂ Reindented (scanLines texts) others := by decide +kernel
  exact ⟨same, lines_of_reindented {} same⟩

end ArturoInsight.Layout
