import ArturoInsight.Text.Pieces
import Mathlib.Data.List.DropRight
import Mathlib.Data.List.Forall2

/-! Texts that are one line each: they hold no line feed and no carriage return ends them. Such texts
are the lines of what they join to. Lines are numbered in order, and compared with those of another text one by one. -/

namespace ArturoInsight.Text

structure IsLine (text : List Char) : Prop where
  feeds : '\n' ∉ text
  returns : text.getLast? ≠ some '\r'

theorem dropReturns_eq_self {text : List Char} (returns : text.getLast? ≠ some '\r') :
    dropReturns text = text := by
  refine List.rdropWhile_eq_self_iff.2 fun some_ last => returns ?_
  rw [List.getLast?_eq_some_getLast some_]
  simpa using last

theorem isLine_of_mem_lines {text line : List Char} (member : line ∈ lines text) : IsLine line := by
  obtain ⟨piece, split, rfl⟩ := List.mem_map.1 member
  have start : dropReturns piece <+: piece := List.rdropWhile_prefix _ _
  constructor
  · intro feed
    have cut := not_cut_of_mem_pieces split (start.subset feed)
    simp at cut
  · intro last
    have some_ : piece.rdropWhile (· == '\r') ≠ [] := by
      rintro none
      rw [dropReturns, ← List.rdropWhile, none] at last
      simp at last
    have stops := List.rdropWhile_last_not _ _ some_
    have last : (piece.rdropWhile (· == '\r')).getLast? = some '\r' := last
    rw [List.getLast?_eq_some_getLast some_, Option.some.injEq] at last
    simp [last] at stops

theorem lines_joinLines {texts : List (List Char)} (some_ : texts ≠ [])
    (whole : ∀ text ∈ texts, IsLine text) : lines (joinLines texts) = texts := by
  rw [lines, pieces_joinLines some_ fun text member => (whole text member).feeds]
  have kept : ∀ text ∈ texts, dropReturns text = id text := fun text member =>
    dropReturns_eq_self (whole text member).returns
  rw [List.map_congr_left kept, List.map_id]

theorem pieces_append {cut : Char → Bool} {c : Char} (cuts : cut c = true) (above below : List Char) :
    pieces cut (above ++ c :: below) = pieces cut above ++ pieces cut below := by
  induction above with
  | nil => exact pieces_cons_of_cut cuts below
  | cons d above ih =>
    cases keeps : cut d with
    | true =>
      rw [List.cons_append, pieces_cons_of_cut keeps, pieces_cons_of_cut keeps, ih]
      rfl
    | false =>
      obtain ⟨first, more, split⟩ := List.exists_cons_of_ne_nil (pieces_ne_nil cut above)
      rw [split] at ih
      rw [List.cons_append, pieces_cons_of_not_cut keeps split, pieces_cons_of_not_cut keeps ih]
      rfl

theorem lines_append (above below : List Char) : lines (above ++ '\n' :: below) = lines above ++ lines below := by
  rw [lines, pieces_append rfl, List.map_append]
  rfl

theorem lines_ne_nil (text : List Char) : lines text ≠ [] := by
  simp [lines, pieces_ne_nil]

theorem length_pieces (cut : Char → Bool) (text : List Char) : (pieces cut text).length = text.countP cut + 1 := by
  induction text with
  | nil => rfl
  | cons c text ih =>
    cases cuts : cut c with
    | true => rw [pieces_cons_of_cut cuts, List.length_cons, ih, List.countP_cons_of_pos cuts]
    | false =>
      obtain ⟨first, more, split⟩ := List.exists_cons_of_ne_nil (pieces_ne_nil cut text)
      rw [split] at ih
      rw [pieces_cons_of_not_cut cuts split, List.countP_cons_of_neg (by simp [cuts]), ← ih]
      rfl

theorem length_lines (text : List Char) : (lines text).length = text.count '\n' + 1 := by
  rw [lines, List.length_map, length_pieces]
  rfl

theorem length_lines_joinLines {parts : List (List Char)} (some_ : parts ≠ []) :
    (lines (joinLines parts)).length = parts.length + parts.flatten.count '\n' := by
  rw [length_lines]
  induction parts with
  | nil => contradiction
  | cons part rest ih =>
    cases rest with
    | nil => simp [joinLines, List.intercalate, Nat.add_comm]
    | cons next more =>
      have joined : joinLines (part :: next :: more) = part ++ '\n' :: joinLines (next :: more) := by
        simp [joinLines, List.intercalate]
      have later := ih (List.cons_ne_nil next more)
      rw [joined, List.length_cons, List.count_append, List.count_cons_self, List.flatten_cons, List.count_append]
      omega

theorem pairwise_zipIdx {α : Type} (lines : List α) : lines.zipIdx.Pairwise fun left right => left.2 < right.2 := by
  rw [← List.pairwise_map (f := Prod.snd) (R := (· < ·)), List.zipIdx_map_snd]
  exact List.pairwise_lt_range'

theorem map_eq_of_forall₂ {α β : Type} {related : α → α → Prop} {view : α → β}
    (alike : ∀ left right, related left right → view left = view right) {lefts rights : List α}
    (same : List.Forall₂ related lefts rights) : lefts.map view = rights.map view := by
  rw [← List.forall₂_eq_eq_eq, List.forall₂_map_left_iff, List.forall₂_map_right_iff]
  exact same.imp alike

end ArturoInsight.Text
