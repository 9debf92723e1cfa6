import ArturoInsight.Proofs.Cursor.Use
import ArturoInsight.Proofs.Document.Edits
import Mathlib.Data.List.Sort

/-! A line as the uses of a word and what stands between them. With another word at the same places the
rest of the line keeps its cells, and no third word gains or loses a use. -/

namespace ArturoInsight

open Text Lexical

abbrev Part := List Cell × Tag

def weave (word : List Char) : List Part → List Cell → List Cell
  | [], last => last
  | (piece, tag) :: parts, last => piece ++ (mark tag word ++ weave word parts last)

def starts (word : List Char) : List Part → List Nat
  | [] => []
  | (piece, _) :: parts => piece.length :: (starts word parts).map (piece.length + word.length + ·)

def Woven (word : List Char) : List Part → List Cell → Prop
  | [], _ => True
  | (piece, tag) :: parts, last =>
    tag.isCode = true ∧ Opens piece.getLast? ∧ Closes (weave word parts last).head? ∧ Woven word parts last

section Uses

variable {old new word : List Char} {parts : List Part} {last : List Cell}

theorem pairwise_starts (plain : IsPlain word) (parts : List Part) : (starts word parts).Pairwise (· < ·) := by
  induction parts with
  | nil => exact .nil
  | cons part parts ih =>
    have some_ := plain.length_pos
    refine List.pairwise_cons.2 ⟨fun place member => ?_, List.pairwise_map.2 (ih.imp fun first => by omega)⟩
    obtain ⟨place, -, rfl⟩ := List.mem_map.1 member
    omega

theorem use_of_cons {piece rest : List Cell} {tag : Tag} (code : tag.isCode = true)
    (opens : Opens piece.getLast?) (closes : Closes rest.head?) :
    Use word (piece ++ (mark tag word ++ rest)) piece.length := by
  refine ⟨⟨tag, code, by simp⟩, fun index next => ?_, ?_⟩
  · rwa [List.getElem?_append_left (by omega), show index = piece.length - 1 by omega,
      ← List.getLast?_eq_getElem?]
  · rw [← List.append_assoc, List.getElem?_append_right (by simp [mark])]
    simpa [mark, ← List.head?_eq_getElem?] using closes

theorem use_of_mem_starts (plain : IsPlain word) (woven : Woven word parts last) {column : Nat}
    (member : column ∈ starts word parts) : Use word (weave word parts last) column := by
  induction parts generalizing column with
  | nil => contradiction
  | cons part parts ih =>
    obtain ⟨piece, tag⟩ := part
    obtain ⟨code, opens, closes, woven⟩ := woven
    obtain rfl | member := List.mem_cons.1 member
    · exact use_of_cons code opens closes
    · obtain ⟨place, inside, rfl⟩ := List.mem_map.1 member
      have use := ih woven inside
      have front : piece.length + word.length = (piece ++ mark tag word).length := by simp [mark]
      rw [weave, ← List.append_assoc, front]
      exact use.append (use.pos_of_closes plain closes)

theorem head?_weave (plain : IsPlain old) (closes : Closes (weave old parts last).head?) :
    (weave new parts last).head? = (weave old parts last).head? := by
  cases parts with
  | nil => rfl
  | cons part parts =>
    obtain ⟨piece, tag⟩ := part
    cases piece with
    | cons cell piece => rfl
    | nil =>
      obtain ⟨c, rest, rfl⟩ := List.exists_cons_of_ne_nil plain.ne_nil
      have part := plain.isNamePart_head c rfl
      have ends := closes (c, tag) rfl
      rw [ends.1] at part
      contradiction

theorem Woven.other (plain : IsPlain old) (woven : Woven old parts last) (new : List Char) :
    Woven new parts last := by
  induction parts with
  | nil => trivial
  | cons part parts ih =>
    obtain ⟨code, opens, closes, woven⟩ := woven
    refine ⟨code, opens, ?_, ih woven⟩
    rwa [head?_weave plain closes]

theorem exists_use (old_plain : IsPlain old) (new_plain : IsPlain new) (plain : IsPlain word)
    (woven : Woven old parts last) {column : Nat} (use : Use word (weave new parts last) column) :
    column ∈ starts new parts ∧ word = new ∨
      ∃ place, place ∉ starts old parts ∧ Use word (weave old parts last) place := by
  induction parts generalizing column with
  | nil => exact .inr ⟨column, List.not_mem_nil, use⟩
  | cons part parts ih =>
    obtain ⟨piece, tag⟩ := part
    obtain ⟨code, opens, closes, woven⟩ := woven
    have here : Use new (weave new ((piece, tag) :: parts) last) piece.length :=
      use_of_cons code opens (by rwa [head?_weave old_plain closes])
    obtain ⟨rfl, same⟩ | before | after := use.apart here plain new_plain
    · exact .inl ⟨List.mem_cons_self, same⟩
    · refine .inr ⟨column, ?_, use.of_front before _⟩
      simp only [starts, List.mem_cons, List.mem_map, not_or, not_exists, not_and]
      exact ⟨by omega, fun place _ => by omega⟩
    · obtain ⟨place, rfl⟩ : ∃ place, column = (piece ++ mark tag new).length + place :=
        ⟨column - (piece ++ mark tag new).length, by simp [mark]; omega⟩
      rw [weave, ← List.append_assoc] at use
      obtain ⟨member, same⟩ | ⟨other, outside, before⟩ := ih woven use.of_append
      · refine .inl ⟨List.mem_cons_of_mem _ (List.mem_map.2 ⟨place, member, by simp [mark]⟩), same⟩
      · refine .inr ⟨(piece ++ mark tag old).length + other, ?_, ?_⟩
        · have later := before.pos_of_closes plain closes
          simp only [starts, List.mem_cons, List.mem_map, not_or, not_exists, not_and, List.length_append,
            mark, List.length_map]
          refine ⟨by omega, fun place member same => outside ?_⟩
          obtain rfl : place = other := by omega
          exact member
        · rw [weave, ← List.append_assoc]
          exact before.append (before.pos_of_closes plain closes)

theorem exists_of_use (plain : IsPlain word) {cells : List Cell} {column : Nat} (use : Use word cells column) :
    ∃ piece tag rest, cells = piece ++ (mark tag word ++ rest) ∧ column = piece.length ∧
      tag.isCode = true ∧ Opens piece.getLast? ∧ Closes rest.head? := by
  obtain ⟨tag, code, rest, whole⟩ := use.covers
  obtain ⟨cell, here, -⟩ := use.head plain
  have within : (cells.take column).length = column :=
    List.length_take_of_le (Nat.le_of_lt (List.getElem?_eq_some_iff.1 here).1)
  have parted : cells = cells.take column ++ (mark tag word ++ rest) := by rw [whole, List.take_append_drop]
  refine ⟨cells.take column, tag, rest, parted, within.symm, code, fun cell before => ?_, fun cell after => ?_⟩
  · obtain ⟨index, rfl⟩ : ∃ index, column = index + 1 := by
      cases column with
      | zero => simp at before
      | succ index => exact ⟨index, rfl⟩
    refine use.opens index rfl cell ?_
    rwa [List.getLast?_eq_getElem?, within, Nat.add_sub_cancel, List.getElem?_take_of_lt (by omega)] at before
  · refine use.closes cell ?_
    rw [parted, ← List.append_assoc, List.getElem?_append_right (by simp [mark, within])]
    simpa [mark, within, ← List.head?_eq_getElem?] using after

theorem exists_weave (plain : IsPlain word) {cells : List Cell} {columns : List Nat}
    (ordered : columns.Pairwise (· < ·)) (uses : ∀ column ∈ columns, Use word cells column) :
    ∃ parts last, cells = weave word parts last ∧ columns = starts word parts ∧ Woven word parts last := by
  induction size : columns.length generalizing columns cells with
  | zero =>
    obtain rfl := List.length_eq_zero_iff.1 size
    exact ⟨[], cells, rfl, rfl, trivial⟩
  | succ count ih =>
    obtain ⟨column, later, rfl⟩ := List.exists_cons_of_length_eq_add_one size
    obtain ⟨use, further⟩ := List.forall_mem_cons.1 uses
    obtain ⟨first, increasing⟩ := List.pairwise_cons.1 ordered
    obtain ⟨piece, tag, rest, rfl, rfl, code, opens, closes⟩ := exists_of_use plain use
    have front : (piece ++ mark tag word).length = piece.length + word.length := by simp [mark]
    have beyond : ∀ place ∈ later, piece.length + word.length < place := fun place member =>
      use.lt_of_lt (further place member) plain plain (first place member)
    obtain ⟨inner, rfl⟩ : ∃ inner : List Nat, later = inner.map (piece.length + word.length + ·) := by
      refine ⟨later.map (· - (piece.length + word.length)), ?_⟩
      rw [List.map_map]
      conv_lhs => rw [← List.map_id later]
      refine List.map_congr_left fun place member => ?_
      have := beyond place member
      simp only [id, Function.comp_apply]
      omega
    have inside : ∀ place ∈ inner, Use word rest place := by
      intro place member
      have use := further _ (List.mem_map_of_mem member)
      rw [← front, ← List.append_assoc] at use
      exact use.of_append
    have ordered : inner.Pairwise (· < ·) := by simpa [List.pairwise_map] using increasing
    obtain ⟨parts, last, rfl, rfl, woven⟩ := ih ordered inside (by simpa using size)
    exact ⟨(piece, tag) :: parts, last, rfl, rfl, code, opens, closes, woven⟩

theorem scans_weave (old_plain : IsPlain old) (new_plain : IsPlain new) (woven : Woven old parts last)
    {state ends : State} (fits : Fits state ((weave old parts last).map (·.1)))
    (scans : Scans state (weave old parts last) ends) : Scans state (weave new parts last) ends := by
  induction parts generalizing state with
  | nil => exact scans
  | cons part parts ih =>
    obtain ⟨piece, tag⟩ := part
    obtain ⟨code, -, -, woven⟩ := woven
    obtain ⟨middle, fits, scans, swaps⟩ := Scans.exists_middle fits scans
    have there : old = [] → middle.mode = .code ∧ middle.codeTag = tag := fun none =>
      absurd none old_plain.ne_nil
    obtain ⟨inCode, -, later, inserts⟩ := scans_inert_code code old_plain.inert fits there scans
    have fits : Fits middle ((weave old parts last).map (·.1)) := by
      obtain ⟨mode, depth⟩ := middle
      obtain rfl : mode = .code := inCode
      exact fits_code depth _
    refine swaps _ _ (fun state c => ?_) (inserts new _ new_plain.inert (ih woven fits later))
    obtain ⟨c, old, rfl⟩ := List.exists_cons_of_ne_nil old_plain.ne_nil
    obtain ⟨d, new, rfl⟩ := List.exists_cons_of_ne_nil new_plain.ne_nil
    exact step_unawaited (new_plain.not_isAwaited rfl) (old_plain.not_isAwaited rfl) _ _

end Uses

def swaps (line : Nat) (old new : List Char) (columns : List Nat) : List Edit :=
  columns.map fun column => ⟨.onLine line column (column + old.length), new⟩

section Swaps

variable {line : Nat} {old new : List Char} {parts : List Part} {last : List Cell}

theorem foldr_swaps_append (front text : List Char) (columns : List Nat) :
    (swaps line old new (columns.map (front.length + ·))).foldr Edit.inLine (front ++ text) =
      front ++ (swaps line old new columns).foldr Edit.inLine text := by
  induction columns with
  | nil => rfl
  | cons column columns ih =>
    simp only [swaps, List.map_cons, List.foldr_cons] at ih ⊢
    rw [ih, Nat.add_assoc]
    exact Edit.inLine_append front _ _ _ _ _

theorem foldr_swaps : (swaps line old new (starts old parts)).foldr Edit.inLine
    ((weave old parts last).map (·.1)) = (weave new parts last).map (·.1) := by
  induction parts with
  | nil => rfl
  | cons part parts ih =>
    obtain ⟨piece, tag⟩ := part
    have front : piece.length + old.length = (piece.map (·.1) ++ old).length := by simp
    have later : (swaps line old new ((starts old parts).map (piece.length + old.length + ·))).foldr Edit.inLine
        ((weave old ((piece, tag) :: parts) last).map (·.1)) =
          piece.map (·.1) ++ (old ++ (weave new parts last).map (·.1)) := by
      rw [← ih, weave, List.map_append, List.map_append, map_fst_mark, ← List.append_assoc, front,
        foldr_swaps_append, List.append_assoc]
    rw [starts, swaps, List.map_cons, List.foldr_cons, ← swaps, later, weave, List.map_append,
      List.map_append, map_fst_mark]
    simpa [Edit.inLine, Region.onLine] using Edit.inLine_word line (piece.map (·.1)) old new _

def passed (columns : List Nat) (width column : Nat) : Nat :=
  columns.countP fun start => decide (start + width ≤ column)

theorem foldr_add_replicate (count width : Nat) :
    (List.replicate count width).foldr (· + ·) 0 = count * width := by
  induction count with
  | zero => simp
  | succ count ih => rw [List.replicate_succ, List.foldr_cons, ih, Nat.add_one_mul, Nat.add_comm]

theorem moved_swaps (columns : List Nat) (column : Nat) :
    Edit.moved (swaps line old new columns) ⟨line, column⟩ =
      column + passed columns old.length column * new.length - passed columns old.length column * old.length := by
  simp [Edit.moved, swaps, passed, Region.onLine, List.filter_map, Function.comp_def,
    List.countP_eq_length_filter, foldr_add_replicate]

theorem passed_eq_zero {columns : List Nat} {width column : Nat}
    (beyond : ∀ start ∈ columns, column < start + width) : passed columns width column = 0 := by
  rw [passed, List.countP_eq_zero]
  intro start member
  have := beyond start member
  simpa using this

theorem passed_cons (first width column : Nat) (columns : List Nat) :
    passed (first :: columns.map (first + width + ·)) width (first + width + column) =
      passed columns width column + 1 := by
  rw [passed, List.countP_cons_of_pos (by simp), List.countP_map, passed]
  congr 1
  exact List.countP_congr fun start _ => by simp [Nat.add_assoc]

theorem passed_mul_le (word : List Char) (parts : List Part) (column : Nat) :
    passed (starts word parts) word.length column * word.length ≤ column := by
  induction parts generalizing column with
  | nil => simp [starts, passed]
  | cons part parts ih =>
    obtain ⟨piece, tag⟩ := part
    by_cases before : column < piece.length + word.length
    · rw [passed_eq_zero, Nat.zero_mul]
      · exact Nat.zero_le _
      · simp only [starts, List.forall_mem_cons, List.forall_mem_map]
        exact ⟨before, fun start _ => by omega⟩
    · obtain ⟨rest, rfl⟩ := Nat.exists_eq_add_of_le (Nat.le_of_not_lt before)
      rw [starts, passed_cons, Nat.add_mul, Nat.one_mul]
      have := ih rest
      omega

theorem moved_before {columns : List Nat} {column : Nat} (beyond : ∀ start ∈ columns, column < start + old.length) :
    Edit.moved (swaps line old new columns) ⟨line, column⟩ = column := by
  rw [moved_swaps, passed_eq_zero beyond]
  omega

theorem moved_after (piece : List Cell) (tag : Tag) (parts : List Part) (column : Nat) :
    Edit.moved (swaps line old new (starts old ((piece, tag) :: parts)))
        ⟨line, piece.length + old.length + column⟩ =
      piece.length + new.length + Edit.moved (swaps line old new (starts old parts)) ⟨line, column⟩ := by
  rw [moved_swaps, moved_swaps, starts, passed_cons, Nat.add_mul, Nat.add_mul, Nat.one_mul, Nat.one_mul]
  have := passed_mul_le old parts column
  omega

theorem starts_moved (plain : IsPlain old) : starts new parts =
    (starts old parts).map fun column => Edit.moved (swaps line old new (starts old parts)) ⟨line, column⟩ := by
  induction parts with
  | nil => rfl
  | cons part parts ih =>
    obtain ⟨piece, tag⟩ := part
    have some_ := plain.length_pos
    have first : Edit.moved (swaps line old new (starts old ((piece, tag) :: parts))) ⟨line, piece.length⟩ =
        piece.length := by
      refine moved_before ?_
      simp only [starts, List.forall_mem_cons, List.forall_mem_map]
      exact ⟨by omega, fun start _ => by omega⟩
    refine List.cons_eq_cons.2 ⟨first.symm, ?_⟩
    rw [ih, List.map_map, List.map_map]
    refine List.map_congr_left fun column _ => ?_
    rw [Function.comp_apply, Function.comp_apply, moved_after]

theorem getElem?_weave_moved {column : Nat}
    (outside : ∀ start ∈ starts old parts, column < start ∨ start + old.length ≤ column) :
    (weave new parts last)[Edit.moved (swaps line old new (starts old parts)) ⟨line, column⟩]? =
      (weave old parts last)[column]? := by
  induction parts generalizing column with
  | nil => rw [starts, moved_before (by simp)]; rfl
  | cons part parts ih =>
    obtain ⟨piece, tag⟩ := part
    simp only [starts, List.forall_mem_cons, List.forall_mem_map] at outside
    obtain ⟨before | after, later⟩ := outside
    · have beyond : ∀ start ∈ starts old ((piece, tag) :: parts), column < start + old.length := by
        simp only [starts, List.forall_mem_cons, List.forall_mem_map]
        exact ⟨by omega, fun start _ => by omega⟩
      rw [moved_before beyond, weave, weave, List.getElem?_append_left before, List.getElem?_append_left before]
    · obtain ⟨rest, rfl⟩ := Nat.exists_eq_add_of_le after
      have front (word : List Char) : piece.length + word.length = (piece ++ mark tag word).length := by
        simp [mark]
      rw [moved_after, weave, weave, ← List.append_assoc, ← List.append_assoc, front, front,
        List.getElem?_append_right (by omega), List.getElem?_append_right (by omega),
        Nat.add_sub_cancel_left, Nat.add_sub_cancel_left]
      exact ih fun start member => by have := later start member; omega

end Swaps

end ArturoInsight
