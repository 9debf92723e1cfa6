import ArturoInsight.Document.Position
import ArturoInsight.Proofs.Text.Lines

/-! Edits applied to the lines of a document. Each of them stands inside one line, and they come in
the order of their places, so that the last one is carried out first. -/

namespace ArturoInsight

namespace Edit

def inLine (edit : Edit) (line : List Char) : List Char :=
  line.take edit.region.first.character ++ edit.text ++ line.drop edit.region.last.character

def apply (edit : Edit) (lines : List (List Char)) : List (List Char) :=
  lines.modify edit.region.first.line edit.inLine

def applyAll (edits : List Edit) (lines : List (List Char)) : List (List Char) :=
  edits.foldr apply lines

theorem inLine_append (front text new : List Char) (line start stop : Nat) :
    inLine ⟨.onLine line (front.length + start) (front.length + stop), new⟩ (front ++ text) =
      front ++ inLine ⟨.onLine line start stop, new⟩ text := by
  simp only [inLine, Region.onLine, List.take_append, List.drop_append]
  rw [List.take_of_length_le (by omega), List.drop_eq_nil_of_le (by omega)]
  simp

theorem inLine_word (line : Nat) (front old new back : List Char) :
    inLine ⟨.onLine line front.length (front.length + old.length), new⟩ (front ++ (old ++ back)) =
      front ++ (new ++ back) := by
  simp [inLine, Region.onLine]

theorem getElem?_applyAll (edits : List Edit) (lines : List (List Char)) (line : Nat) :
    (applyAll edits lines)[line]? = (lines[line]?).map fun text =>
      (edits.filter (·.region.first.line == line)).foldr inLine text := by
  induction edits with
  | nil => simp [applyAll]
  | cons edit edits ih =>
    rw [applyAll, List.foldr_cons, ← applyAll, apply, List.getElem?_modify, ih, List.filter_cons]
    by_cases here : edit.region.first.line = line
    · simp [here, Function.comp_def]
    · simp [here]

section IsLine

open Text

theorem isLine_inLine {edit : Edit} {line : List Char} (some_ : edit.text ≠ []) (new : IsLine edit.text)
    (whole : IsLine line) : IsLine (edit.inLine line) := by
  constructor
  · simp only [inLine, List.mem_append, not_or]
    exact ⟨⟨fun feed => whole.feeds (List.mem_of_mem_take feed), new.feeds⟩,
      fun feed => whole.feeds (List.mem_of_mem_drop feed)⟩
  · rw [inLine, List.getLast?_append, List.getLast?_append_of_ne_nil _ some_]
    cases rest : (line.drop edit.region.last.character).getLast? with
    | none => simpa using new.returns
    | some c =>
      rw [List.getLast?_drop] at rest
      split_ifs at rest
      rw [Option.some_or, ← rest]
      exact whole.returns

theorem isLine_applyAll {edits : List Edit} {lines : List (List Char)}
    (new : ∀ edit ∈ edits, edit.text ≠ [] ∧ IsLine edit.text) (whole : ∀ line ∈ lines, IsLine line) :
    ∀ line ∈ applyAll edits lines, IsLine line := by
  intro line member
  obtain ⟨place, found⟩ := List.mem_iff_getElem?.1 member
  rw [getElem?_applyAll, Option.map_eq_some_iff] at found
  obtain ⟨old, there, rfl⟩ := found
  have kept : ∀ edit ∈ edits.filter (·.region.first.line == place), edit.text ≠ [] ∧ IsLine edit.text :=
    fun edit inside => new edit (List.mem_of_mem_filter inside)
  generalize edits.filter (·.region.first.line == place) = here at kept
  induction here with
  | nil => exact whole old (List.mem_of_getElem? there)
  | cons edit here ih =>
    obtain ⟨first, later⟩ := List.forall_mem_cons.1 kept
    exact isLine_inLine first.1 first.2 (ih later)

end IsLine

/-- The column of a position after some edits, none of which covers it: it moves with the edits before it
on its line. -/
def moved (edits : List Edit) (position : Position) : Nat :=
  let earlier := edits.filter fun edit =>
    edit.region.first.line == position.line && decide (edit.region.last.character ≤ position.character)
  position.character + (earlier.map fun edit => edit.text.length).foldr (· + ·) 0 -
    (earlier.map fun edit => edit.region.last.character - edit.region.first.character).foldr (· + ·) 0

theorem moved_filter (edits : List Edit) (position : Position) :
    moved edits position = moved (edits.filter (·.region.first.line == position.line)) position := by
  simp [moved, List.filter_filter, Bool.and_comm]

theorem apply_onLine (before : List (List Char)) (old new : List Char) (after : List (List Char)) :
    apply ⟨.onLine before.length 0 old.length, new⟩ (before ++ old :: after) = before ++ new :: after := by
  have moved := List.modifyTailIdx_add (List.modifyHead (inLine ⟨.onLine before.length 0 old.length, new⟩)) 0
    before (old :: after)
  simpa [apply, inLine, Region.onLine, List.modify] using moved

end Edit

end ArturoInsight
