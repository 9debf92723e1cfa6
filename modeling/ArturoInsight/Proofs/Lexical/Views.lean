import ArturoInsight.Proofs.Lexical.Cells

/-! What a line holds besides the blanks between its code: its code, its strings and its comment. -/

namespace ArturoInsight.Lexical

open Text

def codeCells (cells : List Cell) : List Cell :=
  cells.filter fun cell => cell.2.isCode && !isBlank cell.1

def solidCells (cells : List Cell) : List Cell := cells.filter fun cell => !isBlank cell.1

def stringCells (cells : List Cell) : List Cell := cells.filter fun cell => cell.2.isString

def commentText (cells : List Cell) : List Char :=
  (cells.filter fun cell => cell.2 == .comment).map (·.1)

/-- The same code, strings and comment, but for blanks in the code and at the end of the comment. -/
structure SameContent (first second : List Cell) : Prop where
  solid : solidCells first = solidCells second
  strings : stringCells first = stringCells second
  comment : trimEnd (commentText first) = trimEnd (commentText second)

theorem SameContent.code {first second : List Cell} (same : SameContent first second) :
    codeCells first = codeCells second := by
  have code (cells : List Cell) : codeCells cells = (solidCells cells).filter (·.2.isCode) := by
    simp only [codeCells, solidCells, List.filter_filter]
  rw [code, code, same.solid]

theorem SameContent.trans {first second third : List Cell} (left : SameContent first second)
    (right : SameContent second third) : SameContent first third :=
  ⟨left.solid.trans right.solid, left.strings.trans right.strings, left.comment.trans right.comment⟩

def Overlooks (shown : Cell → Bool) : Prop :=
  ∀ c tag, isBlank c = true → tag.isCode = true → shown (c, tag) = false

theorem sameContent_of_filter {first second : List Cell}
    (same : ∀ shown, Overlooks shown → first.filter shown = second.filter shown) :
    SameContent first second := by
  refine ⟨same _ ?_, same _ ?_, congrArg (fun cells => trimEnd (cells.map (·.1))) (same _ ?_)⟩
  · intro c tag blank code
    simp [blank]
  · intro c tag blank code
    cases tag <;> simp_all [Tag.isCode, Tag.isString]
  · intro c tag blank code
    cases tag <;> simp_all [Tag.isCode]

theorem filter_mark_of_blanks {shown : Cell → Bool} (overlooks : Overlooks shown) {tag : Tag}
    (code : tag.isCode = true) {gap : List Char} (blanks : Blanks gap) :
    (mark tag gap).filter shown = [] := by
  rw [List.filter_eq_nil_iff]
  intro cell member
  obtain ⟨c, inside, rfl⟩ := List.mem_map.1 member
  simp [overlooks c tag (blanks c inside) code]

theorem sameContent_dropWhile {depth : Nat} {cells : List Cell} {last : State}
    (scans : Scans ⟨.code, depth⟩ cells last) :
    SameContent cells (cells.dropWhile isBlankCell) := by
  apply sameContent_of_filter
  intro shown overlooks
  induction cells with
  | nil => rfl
  | cons cell rest ih =>
    cases blank : isBlankCell cell with
    | false => simp [blank]
    | true =>
      obtain ⟨code, later⟩ := scans_cons_blank blank scans
      simpa [blank, overlooks cell.1 cell.2 blank code] using ih later

theorem sameContent_concat_blank {last : State} {cells : List Cell} {c : Char} {tag : Tag}
    (blank : isBlank c = true) (tagged : tag = if last.mode = .comment then .comment else last.codeTag) :
    SameContent (cells ++ [(c, tag)]) cells := by
  by_cases comment : last.mode = .comment
  · rw [if_pos comment] at tagged
    subst tagged
    refine ⟨?_, ?_, ?_⟩
    · simp [solidCells, blank]
    · simp [stringCells, Tag.isString]
    · simp [commentText, trimEnd_append_blanks (List.forall_mem_singleton.2 blank)]
  · rw [if_neg comment] at tagged
    have code : tag.isCode = true := by
      rw [tagged]
      exact State.codeTag_isCode _
    apply sameContent_of_filter
    intro shown overlooks
    simp [overlooks c tag blank code]

theorem sameContent_rdropWhile {state last : State} {cells : List Cell}
    (fits : Fits state (cells.map (·.1))) (ends : last.mode = .code ∨ last.mode = .comment)
    (scans : Scans state cells last) : SameContent cells (cells.rdropWhile isBlankCell) := by
  induction cells using List.reverseRecOn with
  | nil => exact ⟨rfl, rfl, rfl⟩
  | append_singleton cells cell ih =>
    cases blank : isBlankCell cell with
    | false =>
      rw [List.rdropWhile_concat_neg _ _ _ (by simp [blank])]
      exact ⟨rfl, rfl, rfl⟩
    | true =>
      have kept := scans_of_concat_blank fits blank ends scans
      rw [List.rdropWhile_concat_pos _ _ _ blank]
      exact (sameContent_concat_blank blank kept.2).trans (ih (fits_of_concat_blank blank fits) kept.1)

end ArturoInsight.Lexical
