import ArturoInsight.Assist.Hover
import ArturoInsight.Proofs.Cursor.Own

/-! What a cursor in code looks up is code. The word may start before the cursor, go on behind it or end at it, and
the cursor may be behind the end of its line: no mark that opens or closes a string or a comment is part of a word, so
that a word touched by code is code from its first character to its last. -/

namespace ArturoInsight

open Text Lexical

/-- A word that stands in its line of the document, every character of it in code. -/
def WordSpan.InCode (analysis : Analysis) (span : WordSpan) : Prop :=
  ∃ scan, analysis.scans[span.line]? = some scan ∧ (scan.text.drop span.start).take span.word.length = span.word ∧
    ∀ column, span.start ≤ column → column < span.stop → ∃ tag ∈ scan.tags[column]?, tag.isCode = true

namespace Lexical

theorem Scan.exists_tag_of_codeAt {scan : Scan} {column : Nat} (inside : column < scan.tags.length)
    (code : scan.codeAt column = true) : ∃ tag ∈ scan.tags[column]?, tag.isCode = true := by
  rw [codeAt, List.getD_eq_getElem?_getD, List.getElem?_eq_getElem inside] at code
  exact ⟨scan.tags[column], List.getElem?_eq_getElem inside, code⟩

end Lexical

section Line

variable {carry : Carry} {text : List Char} {line : Nat} {span : WordSpan}

theorem exists_tag_of_wordAt (sound : carry.Sound) (feeds : '\n' ∉ text) {character : Nat}
    (found : wordAt text character line = some span) (code : (scanLine carry text).codeAt character = true) :
    span.line = line ∧ (text.drop span.start).take span.word.length = span.word ∧
      ∀ column, span.start ≤ column → column < span.stop → ∃ tag ∈ (scanLine carry text).tags[column]?,
        tag.isCode = true := by
  obtain ⟨front, signs, back, stands, whole, held, start, first⟩ := exists_of_wordAt_code sound feeds found code
  have plain : IsPlain span.word := stands.taken.before (by simp)
  have wordy : ∀ c ∈ span.word, isWordy c = true := fun c inside => by simpa [isWordy] using plain.part inside
  refine ⟨held, ?_, fun column low high => ?_⟩
  · rw [whole, start, List.drop_left, List.take_left]
  · rw [start] at low first
    rw [WordSpan.stop, start] at high
    have inCode := (wellFormed_scanLine sound text).codeAt_word (whole.trans (List.append_assoc ..).symm) wordy first
      low high
    have size : (scanLine carry text).tags.length = (front ++ signs).length + (span.word.length + back.length) := by
      rw [Scan.length_tags_scanLine, whole, List.length_append, @List.length_append _ span.word back]
    exact Scan.exists_tag_of_codeAt (by omega) inCode

end Line

section Document

variable {uri : String} {text : List Char} {linter : Linter} {version : Option Int} {position : Position}
  {span : WordSpan}

theorem inCode_of_wordAt (code : (Analysis.ofText uri text linter version).isCodeAt position.line
      position.character = true) (found : (Analysis.ofText uri text linter version).wordAt position = some span) :
    span.line = position.line ∧ span.InCode (Analysis.ofText uri text linter version) := by
  obtain ⟨line, here, there⟩ := Option.bind_eq_some_iff.1 found
  obtain ⟨scan, held, rfl⟩ := Option.map_eq_some_iff.1 here
  obtain ⟨carry, line, sound, rfl⟩ := lines_ofText uri text linter version scan (List.mem_of_getElem? held)
  rw [isCodeAt_of_getElem? held] at code
  obtain ⟨same, stands, tagged⟩ := exists_tag_of_wordAt sound (feeds_of_getElem? held) there code
  exact ⟨same, _, same ▸ held, stands, tagged⟩

end Document

/-- Whatever is shown, defined or renamed at a position in code is a word that lies in code. -/
theorem lookups_in_code (uri : String) (text : List Char) (linter : Linter) (version : Option Int)
    (position : Position) :
    let analysis := Analysis.ofText uri text linter version
    (analysis.isCodeAt position.line position.character = true → ∀ span, analysis.wordAt position = some span →
      span.line = position.line ∧ span.InCode analysis) ∧
    (∀ hover, analysis.hover? position = some hover → ∃ span, analysis.wordAt position = some span ∧
      span.InCode analysis ∧ hover.region = span.region) ∧
    (∀ location, analysis.definition? position = some location → ∃ span symbol, analysis.wordAt position = some span ∧
      span.InCode analysis ∧ analysis.symbols.lookup? span.word = some symbol ∧
      location = ⟨uri, .onLine symbol.line symbol.column symbol.stop⟩) ∧
    (∀ span, analysis.renamable? position = some span → analysis.wordAt position = some span ∧ span.InCode analysis) ∧
    (∀ newName renamed, analysis.rename position newName = .ok (some renamed) → ∃ span,
      analysis.renamable? position = some span ∧ span.InCode analysis ∧
      renamed.edits = (analysis.occurrences span.word).map fun found => ⟨found.region, newName⟩) := by
  intro analysis
  have renamable (span : WordSpan) (found : analysis.renamable? position = some span) :
      analysis.wordAt position = some span ∧ span.InCode analysis := by
    obtain ⟨code, there, -⟩ := renamable?_eq_some.1 found
    exact ⟨there, (inCode_of_wordAt code there).2⟩
  refine ⟨fun code span found => inCode_of_wordAt code found, ?hover, ?definition, renamable, ?rename⟩
  case hover =>
    intro hover shown
    rw [Analysis.hover?, Option.ite_none_right_eq_some] at shown
    obtain ⟨code, shown⟩ := shown
    obtain ⟨span, there, shown⟩ := Option.bind_eq_some_iff.1 shown
    obtain ⟨described, -, same⟩ := Option.bind_eq_some_iff.1 shown
    exact ⟨span, there, (inCode_of_wordAt code there).2, congrArg Hover.region (Option.some.inj same).symm⟩
  case definition =>
    intro location defined
    rw [Analysis.definition?, Option.ite_none_right_eq_some] at defined
    obtain ⟨code, defined⟩ := defined
    obtain ⟨span, there, defined⟩ := Option.bind_eq_some_iff.1 defined
    obtain ⟨symbol, known, same⟩ := Option.bind_eq_some_iff.1 defined
    exact ⟨span, symbol, there, (inCode_of_wordAt code there).2, known, (Option.some.inj same).symm⟩
  case rename =>
    intro newName renamed given
    by_cases valid : Name.isIdentifier newName = true
    swap
    · rw [Analysis.rename, if_neg valid] at given
      contradiction
    rw [Analysis.rename, if_pos valid] at given
    obtain ⟨span, found, same⟩ := Option.map_eq_some_iff.1 (Except.ok.inj given)
    exact ⟨span, found, (renamable span found).2, congrArg Renaming.edits same.symm⟩

/-- Behind the end of its line a cursor still touches the last word. -/
theorem lookups_in_code_total :
    let analysis := Analysis.ofText "" "total: 1\nprint total".toList .default none
    let span : WordSpan := ⟨"total".toList, 1, 6⟩
    (analysis.isCodeAt 1 40 = true ∧ analysis.wordAt ⟨1, 40⟩ = some span ∧ span.InCode analysis) ∧
      (∃ hover, analysis.hover? ⟨1, 40⟩ = some hover ∧ hover.region = span.region) ∧
      (∃ location symbol, analysis.definition? ⟨1, 40⟩ = some location ∧
        analysis.symbols.lookup? span.word = some symbol ∧
        location = ⟨"", .onLine symbol.line symbol.column symbol.stop⟩) ∧
      analysis.renamable? ⟨1, 40⟩ = some span ∧
      ∃ renamed, analysis.rename ⟨1, 40⟩ "sum?".toList = .ok (some renamed) ∧
        renamed.edits = (analysis.occurrences span.word).map fun found => ⟨found.region, "sum?".toList⟩ := by
  intro analysis span
  have code : analysis.isCodeAt 1 40 = true := by decide +kernel
  have found : analysis.wordAt ⟨1, 40⟩ = some span := by decide +kernel
  have free : analysis.renamable? ⟨1, 40⟩ = some span := by decide +kernel
  obtain ⟨renamed, renames⟩ : ∃ renamed, analysis.rename ⟨1, 40⟩ "sum?".toList = .ok (some renamed) := by
    rw [Analysis.rename, if_pos (by decide), free]
    exact ⟨_, rfl⟩
  obtain ⟨hover, shown⟩ := Option.isSome_iff_exists.1 (by decide +kernel : (analysis.hover? ⟨1, 40⟩).isSome = true)
  obtain ⟨location, defined⟩ :=
    Option.isSome_iff_exists.1 (by decide +kernel : (analysis.definition? ⟨1, 40⟩).isSome = true)
  obtain ⟨word, hovers, defines, renamable, edits⟩ :=
    lookups_in_code "" "total: 1\nprint total".toList .default none ⟨1, 40⟩
  have same {other : WordSpan} (there : analysis.wordAt ⟨1, 40⟩ = some other) : span = other :=
    Option.some.inj (found.symm.trans there)
  obtain ⟨hovered, there, -, region⟩ := hovers hover shown
  obtain ⟨sought, symbol, here, -, known, place⟩ := defines location defined
  obtain ⟨replaced, offered, -, written⟩ := edits _ _ renames
  rw [← same there] at region
  rw [← same here] at known
  rw [← same (renamable replaced offered).1] at written
  exact ⟨⟨code, found, (word code span found).2⟩, ⟨hover, shown, region⟩, ⟨location, symbol, defined, known, place⟩,
    free, _, renames, written⟩

end ArturoInsight
