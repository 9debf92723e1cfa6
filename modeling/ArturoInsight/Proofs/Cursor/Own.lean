import ArturoInsight.Cursor.Navigation
import ArturoInsight.Proofs.Cursor.Word

/-! The word at a cursor and its own uses. The cursor takes hyphens in front of a word for minus signs, while a use of
a word has no hyphen before it; and the cursor ends a word at a question mark, while a use has nothing after it that
could go on with a word. The word at a cursor is one of its uses if it stands clear of both. -/

namespace ArturoInsight

open Text Lexical

/-- A word that stands clear: not behind a quote or a hyphen, and before nothing that could be more of a word. -/
structure WordSpan.Clear (span : WordSpan) (text : List Char) : Prop where
  opens : ∀ c ∈ span.before? text, c ≠ '-' ∧ c ≠ '\x27' ∧ c ≠ '\x60'
  closes : ∀ c ∈ text[span.stop]?, isNamePart c = false ∧ c ≠ '?'

section Line

variable {carry : Carry} {text : List Char} {line : Nat} {span : WordSpan}

theorem codeAt_min (column : Nat) :
    (scanLine carry text).codeAt (min column text.length) = (scanLine carry text).codeAt column := by
  obtain within | past := Nat.le_total column text.length
  · rw [Nat.min_eq_left within]
  · have size := Scan.length_tags_scanLine carry text
    rw [Nat.min_eq_right past, Scan.codeAt, Scan.codeAt, List.getD_eq_getElem?_getD, List.getD_eq_getElem?_getD,
      List.getElem?_eq_none (Nat.le_of_eq size), List.getElem?_eq_none (size ▸ past)]

theorem exists_of_wordAt_code (sound : carry.Sound) (feeds : '\n' ∉ text) {character : Nat}
    (found : wordAt text character line = some span) (code : (scanLine carry text).codeAt character = true) :
    ∃ front signs back, SignedWord front signs span.word back ∧ text = front ++ signs ++ (span.word ++ back) ∧
      span.line = line ∧ span.start = (front ++ signs).length ∧ (scanLine carry text).codeAt span.start = true := by
  obtain ⟨front, signs, back, stands, whole, place, low, high⟩ := exists_of_wordAt feeds found
  have plain : IsPlain span.word := isPlain_of_wordAt found
  have start : span.start = front.length + signs.length := by rw [place]
  have wordy : ∀ c ∈ signs ++ span.word, isWordy c = true := by
    refine List.forall_mem_append.2 ⟨fun c sign => ?_, fun c inside => by simpa [isWordy] using plain.part inside⟩
    exact isWordy_of_isNamePart (stands.isNamePart_signs c sign)
  have split : text = front ++ (signs ++ span.word ++ back) := by rw [whole, List.append_assoc]
  rw [Int.toNat_natCast] at low high
  rw [← codeAt_min] at code
  have first := codeAt_front sound text split wordy low (by simpa [WordSpan.stop, start, Nat.add_assoc] using high) code
  refine ⟨front, signs, back, stands, by simpa using whole, by rw [place], by simpa using start, ?_⟩
  refine (wellFormed_scanLine sound text).codeAt_word (split.trans (List.append_assoc ..).symm) wordy first ?_ ?_
  · omega
  · rw [start, List.length_append]
    exact Nat.add_lt_add_left (Nat.lt_add_of_pos_right plain.length_pos) _

end Line

theorem SignedWord.mem_columnsOf_iff {front signs word back : List Char} (stands : SignedWord front signs word back)
    {scan : Scan} (whole : scan.text = front ++ signs ++ (word ++ back))
    (code : scan.codeAt (front ++ signs).length = true) (line : Nat) :
    (front ++ signs).length ∈ columnsOf word scan ↔
      WordSpan.Clear ⟨word, line, (front ++ signs).length⟩ scan.text := by
  have plain : IsPlain word := stands.taken.before (by simp)
  have before : (⟨word, line, (front ++ signs).length⟩ : WordSpan).before? scan.text = (front ++ signs).getLast? := by
    rw [whole, WordSpan.before?_append rfl]
  have after : scan.text[(front ++ signs).length + word.length]? = back.head? := by
    rw [whole, List.getElem?_append_right (Nat.le_add_right _ _), Nat.add_sub_cancel_left,
      List.getElem?_append_right le_rfl, Nat.sub_self, List.head?_eq_getElem?]
  have part : ∀ c ∈ (front ++ signs).getLast?, isNamePart c = false ↔ c ≠ '-' := by
    intro c last
    obtain rfl | ⟨signs, d, rfl⟩ := List.eq_nil_or_concat' signs
    · rw [List.append_nil] at last
      have other := stands.left c last
      refine ⟨fun _ => ?_, fun _ => other⟩
      rintro rfl
      contradiction
    · rw [← List.append_assoc, List.getLast?_concat, Option.mem_some_iff] at last
      have hyphen := stands.signs d (by simp)
      rw [← last, hyphen]
      decide
  rw [ArturoInsight.mem_columnsOf_iff plain]
  constructor
  · rintro ⟨other, rest, same, size, opens, closes, -⟩
    obtain ⟨rfl, more⟩ := List.append_inj (whole.symm.trans same) size
    obtain rfl := List.append_cancel_left more
    refine ⟨fun c last => ?_, fun c next => closes c (after ▸ next)⟩
    rw [before] at last
    exact ⟨(part c last).1 (opens c last).1, (opens c last).2⟩
  · rintro ⟨opens, closes⟩
    rw [before] at opens
    refine ⟨_, back, whole, rfl, fun c last => ?_, fun c head => closes c (after.trans head), code⟩
    exact ⟨(part c last).2 (opens c last).1, (opens c last).2⟩

theorem WordSpan.region_mem_map {analysis : Analysis} {span : WordSpan} :
    span.region ∈ (analysis.occurrences span.word).map (·.region) ↔ span ∈ analysis.occurrences span.word := by
  refine ⟨fun member => ?_, List.mem_map_of_mem⟩
  obtain ⟨other, inside, same⟩ := List.mem_map.1 member
  have word := (Analysis.mem_occurrences.1 inside).1
  have place : other.line = span.line ∧ other.start = span.start := by
    have first := congrArg Region.first same
    simpa [region, Region.onLine] using first
  have equal : other = span := congr (congr (congrArg WordSpan.mk word) place.1) place.2
  exact equal ▸ inside

theorem mem_occurrences_iff_clear {uri : String} {text : List Char} {linter : Linter} {version : Option Int}
    {position : Position} {span : WordSpan}
    (found : (Analysis.ofText uri text linter version).renamable? position = some span) :
    span ∈ (Analysis.ofText uri text linter version).occurrences span.word ↔
      span.Clear ((Analysis.ofText uri text linter version).lineText span.line) := by
  obtain ⟨code, there, -⟩ := renamable?_eq_some.1 found
  obtain ⟨line, here, there⟩ := Option.bind_eq_some_iff.1 there
  obtain ⟨scan, held, rfl⟩ := Option.map_eq_some_iff.1 here
  obtain ⟨carry, line, sound, rfl⟩ := lines_ofText uri text linter version scan (List.mem_of_getElem? held)
  rw [isCodeAt_of_getElem? held] at code
  obtain ⟨front, signs, back, stands, whole, place, start, first⟩ :=
    exists_of_wordAt_code sound (feeds_of_getElem? held) there code
  rw [← place] at held
  rw [lineText_of_getElem? held, Analysis.mem_occurrences, and_iff_right rfl, held]
  have clear := stands.mem_columnsOf_iff whole (start ▸ first) span.line
  rw [← start] at clear
  simpa using clear

/-- The word at a cursor is among its uses, and among what a renaming gives a new name, exactly if it stands clear. -/
theorem own_use_iff_clear {uri : String} {text : List Char} {linter : Linter} {version : Option Int}
    {position : Position} {span : WordSpan}
    (found : (Analysis.ofText uri text linter version).renamable? position = some span) :
    let analysis := Analysis.ofText uri text linter version
    (span ∈ analysis.occurrences span.word ↔ span.Clear (analysis.lineText span.line)) ∧
      (span.region ∈ analysis.uses position ↔ span.Clear (analysis.lineText span.line)) ∧
      ∀ newName, Name.isIdentifier newName = true → ∃ renamed,
        analysis.rename position newName = .ok (some renamed) ∧
          (⟨span.region, newName⟩ ∈ renamed.edits ↔ span.Clear (analysis.lineText span.line)) := by
  intro analysis
  have own := mem_occurrences_iff_clear found
  obtain ⟨-, there, free, -⟩ := renamable?_eq_some.1 found
  refine ⟨own, ?_, fun newName valid => ⟨_, by rw [Analysis.rename, if_pos valid, found]; rfl, ?_⟩⟩
  · have uses : analysis.uses position = (analysis.occurrences span.word).map (·.region) := by
      rw [Analysis.uses, there]
      exact if_neg (by simp [free])
    rw [uses, ← own]
    exact WordSpan.region_mem_map
  · rw [← own, ← WordSpan.region_mem_map]
    simp only [List.mem_map, Edit.mk.injEq, and_true]
    rfl

theorem own_use_total :
    (⟨"total".toList, 1, 6⟩ : WordSpan).region ∈
        (Analysis.ofText "" "total: 1\nprint total".toList .default none).uses ⟨1, 7⟩ ∧
      ∃ renamed, (Analysis.ofText "" "total: 1\nprint total".toList .default none).rename ⟨1, 7⟩ "sum?".toList =
          .ok (some renamed) ∧ ⟨.onLine 1 6 11, "sum?".toList⟩ ∈ renamed.edits := by
  have facts : (Analysis.ofText "" "total: 1\nprint total".toList .default none).renamable? ⟨1, 7⟩ =
        some ⟨"total".toList, 1, 6⟩ ∧
      (⟨"total".toList, 1, 6⟩ : WordSpan).before?
        ((Analysis.ofText "" "total: 1\nprint total".toList .default none).lineText (1 : Nat)) = some ' ' ∧
      ((Analysis.ofText "" "total: 1\nprint total".toList .default none).lineText (1 : Nat))[11]? = none := by
    decide +kernel
  have clear : (⟨"total".toList, 1, 6⟩ : WordSpan).Clear
      ((Analysis.ofText "" "total: 1\nprint total".toList .default none).lineText (1 : Nat)) := by
    refine ⟨fun c last => ?_, fun c next => absurd (facts.2.2.symm.trans next) (by simp)⟩
    obtain rfl : ' ' = c := Option.some.inj (facts.2.1.symm.trans last)
    decide
  obtain ⟨-, use, edits⟩ := own_use_iff_clear facts.1
  obtain ⟨renamed, given, edit⟩ := edits "sum?".toList (by decide)
  exact ⟨use.2 clear, renamed, given, edit.2 clear⟩

/-- A word after a minus sign may be renamed but is none of its own uses. -/
theorem own_use_of_signed : ¬ ∀ (text : List Char) (position : Position) (span : WordSpan),
    (Analysis.ofText "" text .default none).renamable? position = some span →
    (∀ c ∈ span.before? ((Analysis.ofText "" text .default none).lineText span.line), c ≠ '\x27' ∧ c ≠ '\x60') →
    span ∈ (Analysis.ofText "" text .default none).occurrences span.word := by
  intro own
  have facts : (Analysis.ofText "" "x: -foo".toList .default none).renamable? ⟨0, 5⟩ = some ⟨"foo".toList, 0, 4⟩ ∧
      (⟨"foo".toList, 0, 4⟩ : WordSpan).before?
        ((Analysis.ofText "" "x: -foo".toList .default none).lineText (0 : Nat)) = some '-' ∧
      ⟨"foo".toList, 0, 4⟩ ∉ (Analysis.ofText "" "x: -foo".toList .default none).occurrences "foo".toList := by
    decide +kernel
  refine facts.2.2 (own _ _ _ facts.1 fun c last => ?_)
  obtain rfl : '-' = c := Option.some.inj (facts.2.1.symm.trans last)
  decide

end ArturoInsight
