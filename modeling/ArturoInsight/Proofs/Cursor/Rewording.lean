import ArturoInsight.Proofs.Cursor.Weave

/-! A word replaced by another one in the lines of a document. A line keeps its state and every cell outside
the words; where the other word was not used before, it stands where the first one stood and nowhere else. -/

namespace ArturoInsight

open Text Lexical

def reworded (old new : List Char) (scan : Scan) : Scan :=
  scanLine scan.carryIn ((swaps 0 old new (columnsOf old scan)).foldr Edit.inLine scan.text)

def rewordings (old new : List Char) (scans : List Scan) : List Edit :=
  scans.zipIdx.flatMap fun (scan, line) => swaps line old new (columnsOf old scan)

/-- A scan and the one with another word in it, woven of the same parts. -/
structure Rewords (old new : List Char) (scan : Scan) (parts : List Part) (last : List Cell) : Prop where
  woven : Woven old parts last
  before : scan.cells = weave old parts last
  columns : columnsOf old scan = starts old parts
  after : (reworded old new scan).cells = weave new parts last
  state : (reworded old new scan).last = scan.last

theorem mem_columnsOf_reworded {word : List Char} (plain : IsPlain word) {carry : Carry} (sound : carry.Sound)
    {old new text : List Char} {column : Nat} :
    column ∈ columnsOf word (reworded old new (scanLine carry text)) ↔
      Use word (reworded old new (scanLine carry text)).cells column := mem_columnsOf plain sound

section Line

variable {old new : List Char} (old_plain : IsPlain old) (new_plain : IsPlain new)
  {carry : Carry} (sound : carry.Sound) {text : List Char}

include old_plain sound

theorem exists_rewords_all : ∃ parts last, ∀ new, IsPlain new → Rewords old new (scanLine carry text) parts last := by
  obtain ⟨parts, last, before, columns, woven⟩ := exists_weave old_plain
    (pairwise_columnsOf old (scanLine carry text)) fun _ member => (mem_columnsOf old_plain sound).1 member
  have scans := scans_cells_scanLine carry text
  rw [before] at scans
  refine ⟨parts, last, fun new new_plain => ?_⟩
  have moved := scans_weave old_plain new_plain woven (sound.fits _) scans
  have line : reworded old new (scanLine carry text) = scanLine carry ((weave new parts last).map (·.1)) := by
    rw [reworded, columns, Scan.text_scanLine, ← map_fst_cells carry text, before, foldr_swaps]
    rfl
  refine ⟨woven, before, columns, ?_, ?_⟩
  · rw [line, cells_scanLine_of_scans moved]
  · rw [line, moved.scanLine_eq]

include new_plain

theorem exists_rewords : ∃ parts last, Rewords old new (scanLine carry text) parts last := by
  obtain ⟨parts, last, words⟩ := @exists_rewords_all old old_plain carry sound text
  exact ⟨parts, last, words new new_plain⟩

theorem carryOut_reworded :
    (reworded old new (scanLine carry text)).carryOut = (scanLine carry text).carryOut := by
  obtain ⟨parts, last, words⟩ := @exists_rewords old new old_plain new_plain carry sound text
  rw [Scan.carryOut, words.state, Scan.carryOut]

theorem getElem?_reworded {column : Nat} (line : Nat) (outside : ∀ start ∈ columnsOf old (scanLine carry text),
      column < start ∨ start + old.length ≤ column) :
    (reworded old new (scanLine carry text)).cells[Edit.moved
        (swaps line old new (columnsOf old (scanLine carry text))) ⟨line, column⟩]? =
      (scanLine carry text).cells[column]? := by
  obtain ⟨parts, last, words⟩ := @exists_rewords old new old_plain new_plain carry sound text
  rw [words.columns] at outside ⊢
  rw [words.after, words.before]
  exact getElem?_weave_moved outside

variable (fresh : columnsOf new (scanLine carry text) = [])

include fresh

theorem columnsOf_reworded : ∃ parts last, Rewords old new (scanLine carry text) parts last ∧
    columnsOf new (reworded old new (scanLine carry text)) = starts new parts ∧
    columnsOf old (reworded old new (scanLine carry text)) = [] := by
  obtain ⟨parts, last, words⟩ := @exists_rewords old new old_plain new_plain carry sound text
  have unused {column : Nat} : ¬ Use new (weave old parts last) column := by
    rw [← words.before, ← mem_columnsOf new_plain sound, fresh]
    exact List.not_mem_nil
  refine ⟨parts, last, words, ?_, ?_⟩
  · refine (pairwise_columnsOf _ _).eq_of_mem_iff (pairwise_starts new_plain parts) fun column => ?_
    rw [mem_columnsOf_reworded new_plain sound, words.after]
    constructor
    · intro use
      obtain ⟨member, -⟩ | ⟨place, -, use⟩ := exists_use old_plain new_plain new_plain words.woven use
      · exact member
      · exact absurd use unused
    · exact use_of_mem_starts new_plain (words.woven.other old_plain new)
  · refine List.eq_nil_iff_forall_not_mem.2 fun column member => ?_
    rw [mem_columnsOf_reworded old_plain sound, words.after] at member
    obtain ⟨inside, rfl⟩ | ⟨place, outside, use⟩ := exists_use old_plain new_plain old_plain words.woven member
    · exact unused (use_of_mem_starts old_plain words.woven inside)
    · rw [← words.before, ← mem_columnsOf old_plain sound, words.columns] at use
      exact outside use

theorem text_reworded_reworded :
    (reworded new old (reworded old new (scanLine carry text))).text = text := by
  obtain ⟨parts, last, words, gains, -⟩ := columnsOf_reworded old_plain new_plain sound fresh
  have written : (reworded old new (scanLine carry text)).text = (weave new parts last).map (·.1) := by
    rw [← words.after]
    exact (map_fst_cells _ _).symm
  have text : text = (weave old parts last).map (·.1) := by rw [← words.before, map_fst_cells]
  conv_lhs => rw [reworded, Scan.text_scanLine, gains, written, foldr_swaps]
  exact text.symm

end Line

section Lines

variable {old new : List Char} {scans : List Scan} {line : Nat}

theorem flatMap_zipIdx_ite {α β : Type} (gives : α → List β) (entries : List α) (start index : Nat) :
    ((entries.zipIdx start).flatMap fun pair => if pair.2 = start + index then gives pair.1 else []) =
      (entries[index]?).elim [] gives := by
  induction entries generalizing start index with
  | nil => rfl
  | cons entry entries ih =>
    rw [List.zipIdx_cons, List.flatMap_cons]
    cases index with
    | zero =>
      have rest : (entries.zipIdx (start + 1)).flatMap
          (fun pair => if pair.2 = start + 0 then gives pair.1 else []) = [] := by
        refine List.flatMap_eq_nil_iff.2 fun pair member => if_neg ?_
        have := List.le_snd_of_mem_zipIdx member
        omega
      rw [rest]
      simp
    | succ index =>
      rw [if_neg (by simp), List.nil_append, ← Nat.add_assoc, Nat.add_right_comm start index 1]
      exact ih (start + 1) index

theorem filter_swaps (place : Nat) (columns : List Nat) :
    (swaps place old new columns).filter (·.region.first.line == line) =
      if place = line then swaps place old new columns else [] := by
  by_cases here : place = line <;> simp [swaps, Region.onLine, List.filter_map, Function.comp_def, here]

theorem filter_rewordings : (rewordings old new scans).filter (·.region.first.line == line) =
    (scans[line]?).elim [] fun scan => swaps line old new (columnsOf old scan) := by
  rw [rewordings, List.filter_flatMap, ← flatMap_zipIdx_ite _ scans 0 line]
  refine congrArg (List.flatMap · _) (funext fun pair => ?_)
  rw [filter_swaps, Nat.zero_add]
  split_ifs with here
  · rw [here]
  · rfl

theorem moved_rewordings {scan : Scan} (found : scans[line]? = some scan) (column : Nat) :
    Edit.moved (rewordings old new scans) ⟨line, column⟩ =
      Edit.moved (swaps line old new (columnsOf old scan)) ⟨line, column⟩ := by
  rw [Edit.moved_filter, filter_rewordings, found]
  rfl

theorem applyAll_rewordings : Edit.applyAll (rewordings old new scans) (scans.map Scan.text) =
    scans.map fun scan => (reworded old new scan).text := by
  refine List.ext_getElem? fun line => ?_
  rw [Edit.getElem?_applyAll, filter_rewordings, List.getElem?_map, List.getElem?_map]
  cases scans[line]? with
  | none => rfl
  | some scan =>
    refine congrArg some ?_
    change (swaps line old new (columnsOf old scan)).foldr Edit.inLine scan.text =
      (swaps 0 old new (columnsOf old scan)).foldr Edit.inLine scan.text
    rw [swaps, swaps, List.foldr_map, List.foldr_map]
    rfl

theorem scanFrom_reworded (old_plain : IsPlain old) (new_plain : IsPlain new) {carry : Carry}
    (sound : carry.Sound) (texts : List (List Char)) :
    scanFrom carry ((scanFrom carry texts).map fun scan => (reworded old new scan).text) =
      (scanFrom carry texts).map (reworded old new) := by
  induction texts generalizing carry with
  | nil => rfl
  | cons text rest ih =>
    have state := @carryOut_reworded old new old_plain new_plain carry sound text
    have later := ih (State.sound_carry (scanLine carry text).last)
    simp only [scanFrom, List.map_cons]
    refine List.cons_eq_cons.2 ⟨rfl, ?_⟩
    change scanFrom (reworded old new (scanLine carry text)).carryOut _ = _
    rw [state]
    exact later

end Lines

end ArturoInsight
