import ArturoInsight.Proofs.Lexical.Borders
import ArturoInsight.Proofs.Lexical.Views

/-! A line as its characters with the blanks of code between them. Blanks at the ends of the line and its
comment do not count. -/

namespace ArturoInsight.Lexical

open Text

structure Spaced where
  gap : List Char
  char : Char
  isCode : Bool
deriving DecidableEq, Repr

def spacedFrom (gap : List Char) : List Cell → List Spaced
  | [] => []
  | (c, tag) :: rest =>
    if tag = .comment then []
    else if tag.isCode && isBlank c then spacedFrom (gap ++ [c]) rest
    else ⟨gap, c, tag.isCode⟩ :: spacedFrom [] rest

def spaced (cells : List Cell) : List Spaced := spacedFrom [] cells

def written (line : List Spaced) : List Char := line.flatMap fun item => item.gap ++ [item.char]

def bare : List Spaced → List Spaced
  | [] => []
  | item :: rest => { item with gap := [] } :: rest

@[simp] theorem written_cons (item : Spaced) (line : List Spaced) :
    written (item :: line) = item.gap ++ item.char :: written line := by
  simp [written]

theorem spacedFrom_blank {c : Char} {tag : Tag} (blank : isBlank c = true) (code : tag.isCode = true)
    (gap : List Char) (rest : List Cell) :
    spacedFrom gap ((c, tag) :: rest) = spacedFrom (gap ++ [c]) rest := by
  have other : tag ≠ .comment := by
    rintro rfl
    contradiction
  rw [spacedFrom, if_neg other, if_pos (by simp [blank, code])]

theorem spacedFrom_solid {c : Char} {tag : Tag} (shown : tag ≠ .comment)
    (solid : tag.isCode = true → isBlank c = false) (gap : List Char) (rest : List Cell) :
    spacedFrom gap ((c, tag) :: rest) = ⟨gap, c, tag.isCode⟩ :: spacedFrom [] rest := by
  rw [spacedFrom, if_neg shown, if_neg]
  simpa using solid

theorem spaced_solid {c : Char} {tag : Tag} (shown : tag ≠ .comment)
    (solid : tag.isCode = true → isBlank c = false) (rest : List Cell) :
    spaced ((c, tag) :: rest) = ⟨[], c, tag.isCode⟩ :: spaced rest := spacedFrom_solid shown solid [] rest

theorem spacedFrom_comment (gap : List Char) (c : Char) (rest : List Cell) :
    spacedFrom gap ((c, .comment) :: rest) = [] := if_pos rfl

theorem spacedFrom_gap {tag : Tag} (code : tag.isCode = true) {gap : List Char} (blanks : Blanks gap)
    (seen : List Char) (rest : List Cell) :
    spacedFrom seen (mark tag gap ++ rest) = spacedFrom (seen ++ gap) rest := by
  induction gap generalizing seen with
  | nil => simp
  | cons c gap ih =>
    obtain ⟨blank, later⟩ := List.forall_mem_cons.1 blanks
    rw [mark_cons, List.cons_append, spacedFrom_blank blank code, ih later, List.append_assoc]
    rfl

theorem head?_spacedFrom (gap : List Char) (cells : List Cell) :
    ∀ first ∈ (spacedFrom gap cells).head?, ∃ more, first.gap = gap ++ more := by
  induction cells generalizing gap with
  | nil => simp [spacedFrom]
  | cons cell rest ih =>
    obtain ⟨c, tag⟩ := cell
    unfold spacedFrom
    split_ifs
    · simp
    · intro first head
      obtain ⟨more, same⟩ := ih (gap ++ [c]) first head
      exact ⟨c :: more, by simpa using same⟩
    · intro first head
      obtain rfl : _ = first := by simpa using head
      exact ⟨[], by simp⟩

theorem gaps_spacedFrom {gap : List Char} (blanks : Blanks gap) (cells : List Cell) :
    ∀ item ∈ spacedFrom gap cells, Blanks item.gap := by
  induction cells generalizing gap with
  | nil => simp [spacedFrom]
  | cons cell rest ih =>
    obtain ⟨c, tag⟩ := cell
    rw [spacedFrom]
    split_ifs with comment gapped
    · simp
    · rw [Bool.and_eq_true] at gapped
      exact ih (List.forall_mem_append.2 ⟨blanks, List.forall_mem_singleton.2 gapped.2⟩)
    · exact List.forall_mem_cons.2 ⟨blanks, ih blanks_nil⟩

theorem char_of_head? {c : Char} {tag : Tag} {rest : List Cell} {first : Spaced}
    (head : first ∈ (spaced ((c, tag) :: rest)).head?) (joined : first.gap = []) : first.char = c := by
  rw [spaced, spacedFrom] at head
  split_ifs at head
  · simp at head
  · obtain ⟨more, same⟩ := head?_spacedFrom _ rest first head
    simp [joined] at same
  · obtain rfl : _ = first := by simpa using head
    rfl

theorem bare_spacedFrom (gap other : List Char) (cells : List Cell) :
    bare (spacedFrom gap cells) = bare (spacedFrom other cells) := by
  induction cells generalizing gap other with
  | nil => rfl
  | cons cell rest ih =>
    obtain ⟨c, tag⟩ := cell
    unfold spacedFrom
    split_ifs
    · rfl
    · exact ih _ _
    · rfl

theorem bare_eq_self {line : List Spaced} (first : ∀ item ∈ line.head?, item.gap = []) : bare line = line := by
  cases line with
  | nil => rfl
  | cons item rest => rw [bare, ← first item rfl]

theorem bare_bare (line : List Spaced) : bare (bare line) = bare line := by cases line <;> rfl

theorem spacedFrom_beforeComment (gap : List Char) (cells : List Cell) :
    spacedFrom gap (beforeComment cells) = spacedFrom gap cells := by
  induction cells generalizing gap with
  | nil => rfl
  | cons cell rest ih =>
    obtain ⟨c, tag⟩ := cell
    by_cases comment : tag = .comment
    · simp [beforeComment, comment, spacedFrom]
    · have shown : beforeComment ((c, tag) :: rest) = (c, tag) :: beforeComment rest :=
        List.takeWhile_cons_of_pos (by simpa using comment)
      rw [shown]
      simp only [spacedFrom, ih]

theorem exists_written {gap : List Char} (blanks : Blanks gap) (cells : List Cell) : ∃ last, Blanks last ∧
    gap ++ (beforeComment cells).map (·.1) = written (spacedFrom gap cells) ++ last := by
  induction cells generalizing gap with
  | nil => exact ⟨gap, blanks, by simp [beforeComment, spacedFrom, written]⟩
  | cons cell rest ih =>
    obtain ⟨c, tag⟩ := cell
    by_cases comment : tag = .comment
    · exact ⟨gap, blanks, by simp [beforeComment, comment, spacedFrom, written]⟩
    · have shown : beforeComment ((c, tag) :: rest) = (c, tag) :: beforeComment rest :=
        List.takeWhile_cons_of_pos (by simpa using comment)
      rw [shown, List.map_cons]
      by_cases gapped : tag.isCode = true ∧ isBlank c = true
      · rw [spacedFrom_blank gapped.2 gapped.1]
        obtain ⟨last, ends, whole⟩ := ih (List.forall_mem_append.2 ⟨blanks, List.forall_mem_singleton.2 gapped.2⟩)
        exact ⟨last, ends, by simpa using whole⟩
      · rw [spacedFrom_solid comment (by simpa using gapped)]
        obtain ⟨last, ends, whole⟩ := ih blanks_nil
        exact ⟨last, ends, by simpa using whole⟩

theorem bare_spaced_dropWhile {depth : Nat} {cells : List Cell} {last : State}
    (scans : Scans ⟨.code, depth⟩ cells last) :
    bare (spaced (cells.dropWhile isBlankCell)) = bare (spaced cells) := by
  induction cells with
  | nil => rfl
  | cons cell rest ih =>
    cases blank : isBlankCell cell with
    | false => simp [blank]
    | true =>
      obtain ⟨code, later⟩ := scans_cons_blank blank scans
      rw [List.dropWhile_cons_of_pos blank, ih later, spaced, spaced, spacedFrom_blank blank code]
      exact bare_spacedFrom _ _ _

theorem spacedFrom_concat_blank {c : Char} {tag : Tag} (blank : isBlank c = true)
    (silent : tag.isCode = true ∨ tag = .comment) (gap : List Char) (cells : List Cell) :
    spacedFrom gap (cells ++ [(c, tag)]) = spacedFrom gap cells := by
  induction cells generalizing gap with
  | nil =>
    obtain code | rfl := silent
    · exact spacedFrom_blank blank code gap []
    · rfl
  | cons cell rest ih => simp only [List.cons_append, spacedFrom, ih]

theorem spaced_rdropWhile {state last : State} {cells : List Cell}
    (fits : Fits state (cells.map (·.1))) (ends : last.mode = .code ∨ last.mode = .comment)
    (scans : Scans state cells last) : spaced (cells.rdropWhile isBlankCell) = spaced cells := by
  induction cells using List.reverseRecOn with
  | nil => rfl
  | append_singleton cells cell ih =>
    obtain ⟨c, tag⟩ := cell
    cases blank : isBlankCell (c, tag) with
    | false => rw [List.rdropWhile_concat_neg _ _ _ (by simp [blank])]
    | true =>
      obtain ⟨kept, tagged⟩ := scans_of_concat_blank fits blank ends scans
      have silent : tag.isCode = true ∨ tag = .comment := by
        rw [tagged, State.codeTag]
        split_ifs <;> decide
      rw [List.rdropWhile_concat_pos _ _ _ blank, ih (fits_of_concat_blank blank fits) kept]
      exact (spacedFrom_concat_blank blank silent [] cells).symm

end ArturoInsight.Lexical
