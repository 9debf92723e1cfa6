import ArturoInsight.Text.Class

/-! The pieces of a text between the characters that cut it, above all its lines and its words.
Joining the lines gives the text back, and texts without line feeds are the lines of what they join to. -/

namespace ArturoInsight.Text

/-- The pieces between the characters that `cut` holds of: one more than there are cuts. -/
def pieces (cut : Char → Bool) : List Char → List (List Char)
  | [] => [[]]
  | c :: rest =>
    match cut c, pieces cut rest with
    | true, more => [] :: more
    | false, [] => [[c]]
    | false, first :: more => (c :: first) :: more

def words (text : List Char) : List (List Char) :=
  (pieces isBlank text).filter fun piece => !piece.isEmpty

def dropReturns (line : List Char) : List Char :=
  (line.reverse.dropWhile (· == '\r')).reverse

def lines (text : List Char) : List (List Char) := (pieces (· == '\n') text).map dropReturns

def joinLines (lines : List (List Char)) : List Char := ['\n'].intercalate lines

theorem pieces_ne_nil (cut : Char → Bool) (text : List Char) : pieces cut text ≠ [] := by
  cases text with
  | nil => simp [pieces]
  | cons c rest => simp only [pieces]; split <;> simp

theorem pieces_cons_of_cut {cut : Char → Bool} {c : Char} (cuts : cut c = true) (rest : List Char) :
    pieces cut (c :: rest) = [] :: pieces cut rest := by
  simp [pieces, cuts]

theorem pieces_cons_of_not_cut {cut : Char → Bool} {c : Char} (keeps : cut c = false)
    {rest first : List Char} {more : List (List Char)} (split : pieces cut rest = first :: more) :
    pieces cut (c :: rest) = (c :: first) :: more := by
  simp [pieces, keeps, split]

theorem not_cut_of_mem_pieces {cut : Char → Bool} {text piece : List Char} {c : Char}
    (member : piece ∈ pieces cut text) (inside : c ∈ piece) : cut c = false := by
  induction text generalizing piece with
  | nil => simp_all [pieces]
  | cons d rest ih =>
    cases cuts : cut d with
    | true =>
      rw [pieces_cons_of_cut cuts, List.mem_cons] at member
      rcases member with rfl | later
      · simp at inside
      · exact ih later inside
    | false =>
      obtain ⟨first, more, split⟩ := List.exists_cons_of_ne_nil (pieces_ne_nil cut rest)
      rw [pieces_cons_of_not_cut cuts split, List.mem_cons] at member
      rw [split] at ih
      rcases member with rfl | later
      · rcases List.mem_cons.1 inside with rfl | further
        · exact cuts
        · exact ih List.mem_cons_self further
      · exact ih (List.mem_cons_of_mem _ later) inside

theorem joinLines_pieces (text : List Char) : joinLines (pieces (· == '\n') text) = text := by
  induction text with
  | nil => rfl
  | cons c rest ih =>
    obtain ⟨first, more, split⟩ := List.exists_cons_of_ne_nil (pieces_ne_nil (· == '\n') rest)
    by_cases cuts : c = '\n'
    · rw [pieces_cons_of_cut (by simpa using cuts), cuts]
      rw [split] at ih ⊢
      simpa [joinLines, List.intercalate] using ih
    · rw [pieces_cons_of_not_cut (by simpa using cuts) split]
      rw [split] at ih
      cases more <;> simp_all [joinLines, List.intercalate]

theorem pieces_append_cut {cut : Char → Bool} {c : Char} (cuts : cut c = true)
    {line : List Char} (keeps : ∀ d ∈ line, cut d = false) (rest : List Char) :
    pieces cut (line ++ c :: rest) = line :: pieces cut rest := by
  induction line with
  | nil => exact pieces_cons_of_cut cuts rest
  | cons d line ih =>
    exact pieces_cons_of_not_cut (keeps d List.mem_cons_self)
      (ih fun e member => keeps e (List.mem_cons_of_mem _ member))

theorem pieces_of_forall_not_cut {cut : Char → Bool} {line : List Char}
    (keeps : ∀ d ∈ line, cut d = false) : pieces cut line = [line] := by
  induction line with
  | nil => rfl
  | cons d line ih =>
    exact pieces_cons_of_not_cut (keeps d List.mem_cons_self)
      (ih fun e member => keeps e (List.mem_cons_of_mem _ member))

theorem pieces_joinLines {lines : List (List Char)} (nonempty : lines ≠ [])
    (whole : ∀ line ∈ lines, '\n' ∉ line) : pieces (· == '\n') (joinLines lines) = lines := by
  have keeps : ∀ line ∈ lines, ∀ c ∈ line, (c == '\n') = false := by
    intro line member c inside
    have differs : c ≠ '\n' := fun same => whole line member (same ▸ inside)
    simpa using differs
  clear whole
  induction lines with
  | nil => exact absurd rfl nonempty
  | cons line rest ih =>
    cases rest with
    | nil =>
      simpa [joinLines, List.intercalate] using
        pieces_of_forall_not_cut (keeps line List.mem_cons_self)
    | cons next more =>
      have joined : joinLines (line :: next :: more) = line ++ '\n' :: joinLines (next :: more) := by
        simp [joinLines, List.intercalate]
      rw [joined, pieces_append_cut (by simp) (keeps line List.mem_cons_self)]
      rw [ih (by simp) fun other member => keeps other (List.mem_cons_of_mem _ member)]

end ArturoInsight.Text
