import ArturoInsight.Cursor.Rename
import ArturoInsight.Proofs.Cursor.Rewording

/-! Giving a word a new name that the document does not use. The edits change nothing but the word; the new
name stands where the word stood, the word itself is gone, and giving it back undoes the edits. -/

namespace ArturoInsight

open Text Lexical

section Words

def IsRun (text : List Char) : Prop :=
  ∃ run mark, text = run ++ mark ∧ (∀ c ∈ run, isNamePart c = true) ∧ (mark = [] ∨ mark = ['?'])

theorem IsRun.plain {word : List Char} (run : IsRun word) (some_ : word ≠ []) (more : word ≠ ['?']) :
    IsPlain word := by
  obtain ⟨run, mark, rfl, part, rfl | rfl⟩ := run
  · rw [List.append_nil] at some_ ⊢
    exact .plain some_ part (by simp)
  · refine .marked ?_ part
    rintro rfl
    exact more rfl

theorem IsRun.dropWhile {word : List Char} (run : IsRun word) : IsRun (word.dropWhile (· == '-')) := by
  obtain ⟨run, mark, rfl, part, marked⟩ := run
  induction run with
  | nil => exact ⟨[], mark, by rcases marked with rfl | rfl <;> rfl, part, marked⟩
  | cons c run ih =>
    obtain ⟨-, later⟩ := List.forall_mem_cons.1 part
    rw [List.cons_append, List.dropWhile_cons]
    split_ifs
    · exact ih later
    · exact ⟨c :: run, mark, rfl, part, marked⟩

theorem isRun_append {run word : List Char} (part : ∀ c ∈ run, isNamePart c = true) (more : IsRun word) :
    IsRun (run ++ word) := by
  obtain ⟨other, mark, rfl, all, marked⟩ := more
  exact ⟨run ++ other, mark, (List.append_assoc ..).symm, List.forall_mem_append.2 ⟨part, all⟩, marked⟩

theorem isRun_question (text : List Char) : IsRun (question text).1 := by
  refine ⟨[], (question text).1, rfl, by simp, ?_⟩
  unfold question
  split <;> simp

theorem isRun_wordAfter (text : List Char) : IsRun (wordAfter text) :=
  isRun_append (fun _ => List.mem_takeWhile_imp) (isRun_question _)

theorem isRun_marked {run mark : List Char} (part : ∀ c ∈ run, isNamePart c = true)
    (ends : mark = [] ∨ mark = ['?']) : IsRun (run ++ mark) ∧
      ((run ++ mark).getLast? ≠ some '?' → ∀ c ∈ run ++ mark, isNamePart c = true) := by
  refine ⟨⟨run, mark, rfl, part, ends⟩, fun unmarked => ?_⟩
  obtain rfl | rfl := ends
  · simpa using part
  · exact absurd (List.getLast?_concat ..) unmarked

theorem isRun_wordBefore (text : List Char) : IsRun (wordBefore text) ∧
    ((wordBefore text).getLast? ≠ some '?' → ∀ c ∈ wordBefore text, isNamePart c = true) := by
  have part (core : List Char) : ∀ c ∈ (core.reverse.takeWhile isNamePart).reverse, isNamePart c = true :=
    fun c member => List.mem_takeWhile_imp (List.mem_reverse.1 member)
  have nothing : IsRun [] := ⟨[], [], rfl, by simp, .inl rfl⟩
  unfold wordBefore
  by_cases closed : (dropFinalFeed text).getLast? = some '?'
  · simp only [closed, if_true]
    cases run : ((dropFinalFeed text).dropLast.reverse.takeWhile isNamePart).reverse with
    | nil => exact ⟨nothing, by simp⟩
    | cons c rest => exact isRun_marked (by rw [← run]; exact part _) (.inr rfl)
  · simp only [closed, if_false]
    cases run : ((dropFinalFeed text).reverse.takeWhile isNamePart).reverse with
    | nil => exact ⟨nothing, by simp⟩
    | cons c rest => exact isRun_marked (by rw [← run]; exact part _) (.inl rfl)

theorem isPlain_of_wordAt {text : List Char} {character : Int} {line : Nat} {span : WordSpan}
    (found : wordAt text character line = some span) : IsPlain span.word := by
  simp only [wordAt, Option.ite_none_left_eq_some, Option.some.injEq, Bool.or_eq_true,
    List.isEmpty_iff, beq_iff_eq, not_or] at found
  obtain ⟨⟨some_, more⟩, rfl⟩ := found
  refine IsRun.plain (IsRun.dropWhile ?_) some_ more
  obtain ⟨run, part⟩ := isRun_wordBefore (text.take (min character.toNat text.length))
  split_ifs with closed
  · exact run
  · exact isRun_append (part closed) (isRun_wordAfter _)

theorem renamable?_eq_some {analysis : Analysis} {position : Position} {span : WordSpan} :
    analysis.renamable? position = some span ↔ analysis.isCodeAt position.line position.character = true ∧
      analysis.wordAt position = some span ∧ Catalog.shipped.isBuiltin span.word = false ∧
      Catalog.shipped.type? span.word = none ∧ span.before? (analysis.lineText span.line) ≠ some ':' := by
  unfold Analysis.renamable?
  cases analysis.isCodeAt position.line position.character with
  | false => simp
  | true =>
    cases analysis.wordAt position with
    | none => simp
    | some word =>
      simp only [if_true, Option.bind_eq_bind, Option.bind_some, Option.ite_none_left_eq_some, Option.some.injEq,
        Bool.or_eq_true, Option.isSome_iff_ne_none, beq_iff_eq, true_and]
      constructor
      · rintro ⟨free, rfl⟩
        simpa [not_or, and_assoc] using free
      · rintro ⟨rfl, free⟩
        simpa [not_or, and_assoc] using free

theorem isPlain_of_renamable? {analysis : Analysis} {position : Position} {span : WordSpan}
    (found : analysis.renamable? position = some span) : IsPlain span.word := by
  obtain ⟨-, there, -⟩ := renamable?_eq_some.1 found
  obtain ⟨line, -, there⟩ := Option.bind_eq_some_iff.1 there
  exact isPlain_of_wordAt there

theorem isPlain_of_isName {name : List Char} (valid : Name.isName name = true) : IsPlain name := by
  cases name with
  | nil => contradiction
  | cons first rest =>
    simp only [Name.isName, Bool.and_eq_true, Bool.or_eq_true, beq_iff_eq] at valid
    obtain ⟨start, ends⟩ := valid
    have part : ∀ c ∈ first :: rest.takeWhile isNamePart, isNamePart c = true :=
      List.forall_mem_cons.2 ⟨Name.isNamePart_of_isNameStart first start, fun _ => List.mem_takeWhile_imp⟩
    refine IsRun.plain ⟨first :: rest.takeWhile isNamePart, rest.dropWhile isNamePart, ?_, part, ends⟩ (by simp) ?_
    · rw [List.cons_append, List.takeWhile_append_dropWhile]
    · rintro same
      rw [(List.cons.inj same).1] at start
      contradiction

end Words

def Analysis.cell? (analysis : Analysis) (position : Position) : Option Cell :=
  (analysis.scans[position.line]?).bind fun scan => scan.cells[position.character]?

namespace Edit

/-- Where an edit stands before another one, not next to it. -/
def Precedes (first second : Edit) : Prop :=
  first.region.last.line < second.region.first.line ∨
    first.region.last.line = second.region.first.line ∧
      first.region.last.character < second.region.first.character

/-- A position in the one line that an edit stands in is left alone by it. -/
def Misses (edit : Edit) (position : Position) : Prop :=
  edit.region.first.line ≠ position.line ∨ position.character < edit.region.first.character ∨
    edit.region.last.character ≤ position.character

/-- The edit stands in one line and covers exactly a word, all of it code. -/
def Covers (edit : Edit) (analysis : Analysis) (word : List Char) : Prop :=
  ∃ line start tag, edit.region = .onLine line start (start + word.length) ∧ tag.isCode = true ∧
    ∀ index (inside : index < word.length), analysis.cell? ⟨line, start + index⟩ = some (word[index], tag)

end Edit

/-- What edits that give a word a new name do to a document. -/
structure Renames (before after : Analysis) (edits : List Edit) (old new : List Char) : Prop where
  apart : edits.Pairwise Edit.Precedes
  covers : ∀ edit ∈ edits, edit.text = new ∧ edit.Covers before old
  carries : after.scans.map (fun scan => (scan.carryIn, scan.carryOut)) =
    before.scans.map fun scan => (scan.carryIn, scan.carryOut)
  keeps : ∀ position, (∀ edit ∈ edits, edit.Misses position) →
    after.cell? ⟨position.line, Edit.moved edits position⟩ = before.cell? position
  gains : after.occurrences new =
    edits.map fun edit => ⟨new, edit.region.first.line, Edit.moved edits edit.region.first⟩
  loses : after.occurrences old = []
  returns : Edit.applyAll ((after.occurrences new).map fun found => ⟨found.region, old⟩) after.lines =
    before.lines

theorem edits_eq (analysis : Analysis) (old new : List Char) :
    ((analysis.occurrences old).map fun found => (⟨found.region, new⟩ : Edit)) =
      rewordings old new analysis.scans := by
  rw [Analysis.occurrences, rewordings, List.map_flatMap]
  refine List.flatMap_congr fun pair _ => ?_
  rw [List.map_map]
  rfl

section Document

variable {old new : List Char} (old_plain : IsPlain old) (new_plain : IsPlain new) {before after : Analysis}
  (lines : ∀ scan ∈ before.scans, ∃ carry text, carry.Sound ∧ scan = scanLine carry text)

include old_plain lines

theorem pairwise_rewordings : (rewordings old new before.scans).Pairwise Edit.Precedes := by
  refine List.pairwise_flatMap.2 ⟨fun pair member => List.pairwise_map.2 ?_, ?_⟩
  · obtain ⟨carry, text, sound, scan⟩ := lines pair.1 (List.mem_of_getElem? (List.mem_zipIdx_iff_getElem?.1 member))
    refine (pairwise_columnsOf old pair.1).imp_of_mem fun {first second} inside further later => .inr ⟨rfl, ?_⟩
    rw [scan, mem_columnsOf old_plain sound] at inside further
    exact inside.lt_of_lt further old_plain old_plain later
  · refine (pairwise_zipIdx before.scans).imp fun {first second} earlier => ?_
    simp only [swaps, List.forall_mem_map]
    exact fun _ _ _ _ => .inl earlier

theorem covers_of_mem_rewordings {edit : Edit} (member : edit ∈ rewordings old new before.scans) :
    edit.text = new ∧ edit.Covers before old := by
  obtain ⟨⟨scan, line⟩, place, inside⟩ := List.mem_flatMap.1 member
  obtain ⟨column, there, rfl⟩ := List.mem_map.1 inside
  have found := List.mem_zipIdx_iff_getElem?.1 place
  obtain ⟨carry, text, sound, rfl⟩ := lines scan (List.mem_of_getElem? found)
  obtain ⟨tag, code, covers⟩ := ((mem_columnsOf old_plain sound).1 there).getElem?
  refine ⟨rfl, line, column, tag, rfl, code, fun index inside => ?_⟩
  rw [Analysis.cell?, found]
  exact covers index inside

include new_plain

variable (words : after.scans = before.scans.map (reworded old new))

include words

theorem carries_reworded : after.scans.map (fun scan => (scan.carryIn, scan.carryOut)) =
    before.scans.map fun scan => (scan.carryIn, scan.carryOut) := by
  rw [words, List.map_map]
  refine List.map_congr_left fun scan member => ?_
  obtain ⟨carry, text, sound, rfl⟩ := lines scan member
  exact Prod.ext rfl (carryOut_reworded old_plain new_plain sound)

theorem cell?_reworded {position : Position}
    (misses : ∀ edit ∈ rewordings old new before.scans, edit.Misses position) :
    after.cell? ⟨position.line, Edit.moved (rewordings old new before.scans) position⟩ =
      before.cell? position := by
  obtain ⟨line, column⟩ := position
  rw [Analysis.cell?, Analysis.cell?, words, List.getElem?_map]
  cases found : before.scans[line]? with
  | none => rfl
  | some scan =>
    obtain ⟨carry, text, sound, rfl⟩ := lines scan (List.mem_of_getElem? found)
    rw [moved_rewordings found]
    refine getElem?_reworded old_plain new_plain sound line fun start member => ?_
    have here : (⟨.onLine line start (start + old.length), new⟩ : Edit) ∈ rewordings old new before.scans :=
      List.mem_flatMap.2 ⟨_, List.mk_mem_zipIdx_iff_getElem?.2 found, List.mem_map_of_mem member⟩
    exact (misses _ here).resolve_left fun other => other rfl

variable (fresh : ∀ scan ∈ before.scans, columnsOf new scan = [])

include fresh

theorem occurrences_new_reworded : after.occurrences new = (rewordings old new before.scans).map fun edit =>
    ⟨new, edit.region.first.line, Edit.moved (rewordings old new before.scans) edit.region.first⟩ := by
  rw [Analysis.occurrences, words, List.zipIdx_map, List.flatMap_map]
  conv_rhs => rw [rewordings, List.map_flatMap]
  refine List.flatMap_congr ?_
  rintro ⟨scan, line⟩ member
  have found := List.mk_mem_zipIdx_iff_getElem?.1 member
  obtain ⟨carry, text, sound, rfl⟩ := lines scan (List.mem_of_getElem? found)
  obtain ⟨parts, last, words, gains, -⟩ :=
    columnsOf_reworded old_plain new_plain sound (fresh _ (List.mem_of_getElem? found))
  change (columnsOf new (reworded old new _)).map (fun column => (⟨new, line, column⟩ : WordSpan)) =
    (swaps line old new (columnsOf old _)).map _
  rw [gains, @starts_moved line old new parts old_plain, ← words.columns, swaps, List.map_map, List.map_map]
  refine List.map_congr_left fun column _ => ?_
  exact congrArg (WordSpan.mk new line) (moved_rewordings found column).symm

theorem occurrences_old_reworded : after.occurrences old = [] := by
  rw [Analysis.occurrences, words, List.zipIdx_map, List.flatMap_map, List.flatMap_eq_nil_iff]
  rintro ⟨scan, line⟩ member
  have inside := List.mem_of_getElem? (List.mk_mem_zipIdx_iff_getElem?.1 member)
  obtain ⟨carry, text, sound, rfl⟩ := lines scan inside
  obtain ⟨-, -, -, -, loses⟩ := columnsOf_reworded old_plain new_plain sound (fresh _ inside)
  exact List.map_eq_nil_iff.2 loses

theorem applyAll_reworded : Edit.applyAll ((after.occurrences new).map fun found => ⟨found.region, old⟩)
    after.lines = before.lines := by
  rw [edits_eq, Analysis.lines, applyAll_rewordings, words, List.map_map]
  refine List.map_congr_left fun scan member => ?_
  obtain ⟨carry, text, sound, rfl⟩ := lines scan member
  exact text_reworded_reworded old_plain new_plain sound (fresh _ member)

theorem renames_reworded : Renames before after (rewordings old new before.scans) old new where
  apart := pairwise_rewordings old_plain lines
  covers _ member := covers_of_mem_rewordings old_plain lines member
  carries := carries_reworded old_plain new_plain lines words
  keeps _ misses := cell?_reworded old_plain new_plain lines words misses
  gains := occurrences_new_reworded old_plain new_plain lines words fresh
  loses := occurrences_old_reworded old_plain new_plain lines words fresh
  returns := applyAll_reworded old_plain new_plain lines words fresh

end Document

theorem isLine_of_isPlain {word : List Char} (plain : IsPlain word) : IsLine word := by
  constructor
  · exact fun feed => absurd (plain.solid feed) (by decide)
  · exact fun last => absurd (plain.solid (List.mem_of_getLast? last)) (by decide)

theorem isIdentifier_of_isName {name : List Char} (valid : Name.isName name = true) :
    Name.isIdentifier name = true := by
  have last : name.getLast? ≠ some '\n' := fun feed =>
    (isLine_of_isPlain (isPlain_of_isName valid)).feeds (List.mem_of_getLast? feed)
  rw [Name.isIdentifier, dropFinalFeed, if_neg last, valid]

/-- Every line of a document scans on its own from the state that the one before ends in. -/
theorem lines_ofText (uri : String) (text : List Char) (linter : Linter) (version : Option Int) :
    ∀ scan ∈ (Analysis.ofText uri text linter version).scans,
      ∃ carry text, carry.Sound ∧ scan = scanLine carry text := by
  intro scan member
  obtain ⟨carry, line, sound, -, same⟩ := exists_sound_scanLine Carry.sound_none member
  exact ⟨carry, line, sound, same⟩

theorem lines_eq (uri : String) (text : List Char) (linter : Linter) (version : Option Int) :
    (Analysis.ofText uri text linter version).lines = Text.lines text := map_text_scanFrom _ _

theorem scans_ne_nil (uri : String) (text : List Char) (linter : Linter) (version : Option Int) :
    (Analysis.ofText uri text linter version).scans ≠ [] := by
  intro none
  have lines := lines_eq uri text linter version
  rw [Analysis.lines, none, List.map_nil] at lines
  exact lines_ne_nil text lines.symm

theorem exists_rename {uri : String} {text newName : List Char} {linter : Linter} {version : Option Int}
    {position : Position} {span : WordSpan}
    (found : (Analysis.ofText uri text linter version).renamable? position = some span)
    (valid : Name.isName newName = true) :
    ∃ renamed, (Analysis.ofText uri text linter version).rename position newName = .ok (some renamed) ∧
      renamed.edits = rewordings span.word newName (scanText text) ∧
      let changed := Edit.applyAll renamed.edits (Text.lines text)
      Text.lines (joinLines changed) = changed ∧ ∀ edited, Text.lines edited = changed →
        scanText edited = (scanText text).map (reworded span.word newName) := by
  have old_plain := isPlain_of_renamable? found
  have new_plain := isPlain_of_isName valid
  have sound := lines_ofText uri text linter version
  have lines : Text.lines text = (scanText text).map Scan.text := (map_text_scanFrom .none (Text.lines text)).symm
  refine ⟨_, by rw [Analysis.rename, if_pos (isIdentifier_of_isName valid), found]; rfl, edits_eq _ _ _, ?_⟩
  simp only [edits_eq]
  refine ⟨lines_joinLines ?_ (Edit.isLine_applyAll ?_ ?_), fun edited changed => ?_⟩
  · rw [lines]
    exact applyAll_rewordings.trans_ne (by simpa using scans_ne_nil uri text linter version)
  · intro edit member
    rw [(covers_of_mem_rewordings old_plain sound member).1]
    exact ⟨new_plain.ne_nil, isLine_of_isPlain new_plain⟩
  · exact fun line member => isLine_of_mem_lines member
  · rw [lines] at changed
    change scanFrom .none (Text.lines edited) = _
    rw [changed]
    exact (congrArg _ applyAll_rewordings).trans (scanFrom_reworded old_plain new_plain Carry.sound_none _)

/-- A word given a name that the document does not use can be given back: the edits stand apart, each on one
use of the word; with them every line keeps its strings, every other character its place and tag, the name
stands exactly where the word stood, and the edits that put the word in its place return the lines. -/
theorem rename_returns {uri : String} {text newName : List Char} {linter : Linter} {version : Option Int}
    {position : Position} {span : WordSpan}
    (found : (Analysis.ofText uri text linter version).renamable? position = some span)
    (valid : Name.isName newName = true)
    (fresh : (Analysis.ofText uri text linter version).occurrences newName = []) :
    ∃ renamed, (Analysis.ofText uri text linter version).rename position newName = .ok (some renamed) ∧
      let changed := Edit.applyAll renamed.edits (Analysis.ofText uri text linter version).lines
      Text.lines (joinLines changed) = changed ∧ ∀ edited, Text.lines edited = changed →
        Renames (Analysis.ofText uri text linter version) (Analysis.ofText uri edited linter version)
          renamed.edits span.word newName := by
  obtain ⟨renamed, given, edits, whole, scans⟩ := exists_rename found valid
  refine ⟨renamed, given, ?_⟩
  rw [lines_eq, edits] at *
  refine ⟨whole, fun edited changed => ?_⟩
  refine renames_reworded (isPlain_of_renamable? found) (isPlain_of_isName valid) (lines_ofText uri text linter version)
    (scans edited changed) fun scan member => ?_
  obtain ⟨line, place⟩ := List.mem_iff_getElem?.1 member
  exact List.map_eq_nil_iff.1 (List.flatMap_eq_nil_iff.1 fresh _ (List.mk_mem_zipIdx_iff_getElem?.2 place))

theorem rename_returns_total : ∃ renamed,
    (Analysis.ofText "" "total: 1\nprint total".toList .default none).rename ⟨1, 7⟩ "sum?".toList =
      .ok (some renamed) ∧
    let changed := Edit.applyAll renamed.edits ["total: 1".toList, "print total".toList]
    Text.lines (joinLines changed) = changed ∧ ∀ edited, Text.lines edited = changed →
      Renames (Analysis.ofText "" "total: 1\nprint total".toList .default none)
        (Analysis.ofText "" edited .default none) renamed.edits "total".toList "sum?".toList :=
  @rename_returns "" "total: 1\nprint total".toList "sum?".toList .default none ⟨1, 7⟩
    ⟨"total".toList, 1, 6⟩ (by decide +kernel) (by decide +kernel) (by decide +kernel)

end ArturoInsight
