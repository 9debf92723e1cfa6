import ArturoInsight.Proofs.Cursor.Rename
import ArturoInsight.Proofs.Symbol.Grammar

/-! Which new names are taken, and how many lines a renaming leaves. A name of the grammar is taken and leaves as
many lines as there were; such a name with one line feed after it is taken too, and every edit then adds a line. -/

namespace ArturoInsight

open Text Lexical

section Names

/-- A name of the grammar and one line feed after it. -/
def Fed (newName : List Char) : Prop := ∃ name, Name.Formed name ∧ newName = name ++ ['\n']

theorem Name.Formed.count_feed {name : List Char} (formed : Name.Formed name) : name.count '\n' = 0 := by
  rw [List.count_eq_zero]
  intro member
  exact absurd (formed.part member) (by decide)

theorem Fed.count_feed {newName : List Char} (fed : Fed newName) : newName.count '\n' = 1 := by
  obtain ⟨name, formed, rfl⟩ := fed
  rw [List.count_append, formed.count_feed]
  rfl

theorem Fed.not_formed {newName : List Char} (fed : Fed newName) : ¬ Name.Formed newName := by
  intro formed
  have none_ := formed.count_feed
  rw [fed.count_feed] at none_
  contradiction

theorem isIdentifier_iff {newName : List Char} :
    Name.isIdentifier newName = true ↔ Name.Formed newName ∨ Fed newName := by
  rw [Name.isIdentifier, dropFinalFeed]
  split_ifs with feed
  · obtain ⟨name, rfl⟩ := List.getLast?_eq_some_iff.1 feed
    have fed : Name.Formed name → Fed (name ++ ['\n']) := fun formed => ⟨name, formed, rfl⟩
    rw [List.dropLast_concat, Name.isName_iff]
    constructor
    · exact fun formed => .inr (fed formed)
    · rintro (formed | ⟨other, formed, same⟩)
      · exact absurd (formed.part (List.mem_append_right name List.mem_cons_self)) (by decide)
      · rwa [List.append_cancel_right same]
  · rw [Name.isName_iff]
    refine (or_iff_left ?_).symm
    rintro ⟨name, -, rfl⟩
    exact feed (by simp)

theorem exists_error_iff {analysis : Analysis} {position : Position} {newName : List Char} :
    (∃ error, analysis.rename position newName = .error error) ↔ ¬ (Name.Formed newName ∨ Fed newName) := by
  rw [← isIdentifier_iff, Analysis.rename]
  split_ifs with valid
  · simp [valid]
  · simp [valid]

end Names

section Lines

variable {old new : List Char}

theorem count_weave (word : List Char) (parts : List Part) (last : List Cell) (c : Char) :
    ((weave word parts last).map (·.1)).count c =
      ((weave [] parts last).map (·.1)).count c + parts.length * word.count c := by
  induction parts with
  | nil => simp [weave]
  | cons part parts ih =>
    obtain ⟨piece, tag⟩ := part
    simp only [weave, List.map_append, map_fst_mark, List.count_append, List.count_nil, ih, List.length_cons,
      Nat.add_one_mul]
    omega

theorem length_starts (word : List Char) (parts : List Part) : (starts word parts).length = parts.length := by
  induction parts with
  | nil => rfl
  | cons part parts ih => simp [starts, ih]

theorem count_reworded (plain : IsPlain old) {carry : Carry} (sound : carry.Sound) {text : List Char} {c : Char}
    (foreign : c ∉ old) : (reworded old new (scanLine carry text)).text.count c =
      text.count c + (columnsOf old (scanLine carry text)).length * new.count c := by
  obtain ⟨parts, last, before, columns, -⟩ := exists_weave plain (pairwise_columnsOf old (scanLine carry text))
    fun _ member => (mem_columnsOf plain sound).1 member
  have line : text = (weave old parts last).map (·.1) := by rw [← before, map_fst_cells]
  have swapped : (reworded old new (scanLine carry text)).text = (weave new parts last).map (·.1) := by
    rw [reworded, Scan.text_scanLine, columns, Scan.text_scanLine]
    conv_lhs => rw [line]
    exact foldr_swaps
  rw [swapped, columns, length_starts, count_weave new]
  conv_rhs => rw [line, count_weave old, List.count_eq_zero_of_not_mem foreign]
  omega

theorem length_rewordings (scans : List Scan) :
    (rewordings old new scans).length = (scans.flatMap (columnsOf old)).length := by
  suffices from_ : ∀ start, ((scans.zipIdx start).flatMap fun pair =>
      swaps pair.2 old new (columnsOf old pair.1)).length = (scans.flatMap (columnsOf old)).length from from_ 0
  induction scans with
  | nil => exact fun _ => rfl
  | cons scan scans ih =>
    intro start
    have here : (swaps start old new (columnsOf old scan)).length = (columnsOf old scan).length := List.length_map _
    rw [List.zipIdx_cons, List.flatMap_cons, List.flatMap_cons, List.length_append, List.length_append, ih, here]

theorem count_feed_reworded (plain : IsPlain old) {scans : List Scan}
    (whole : ∀ scan ∈ scans, ∃ carry text, carry.Sound ∧ scan = scanLine carry text)
    (feeds : ∀ scan ∈ scans, '\n' ∉ scan.text) :
    (scans.map fun scan => (reworded old new scan).text).flatten.count '\n' =
      (rewordings old new scans).length * new.count '\n' := by
  rw [length_rewordings]
  induction scans with
  | nil => simp
  | cons scan scans ih =>
    rw [List.forall_mem_cons] at whole feeds
    obtain ⟨⟨carry, line, sound, rfl⟩, whole⟩ := whole
    have here := @count_reworded old new plain carry sound line '\n' (isLine_of_isPlain plain).feeds
    have bare : line.count '\n' = 0 :=
      List.count_eq_zero.2 <| by simpa only [Scan.text_scanLine] using feeds.1
    have later := ih whole feeds.2
    rw [List.map_cons, List.flatten_cons, List.count_append, here, bare, later, List.flatMap_cons,
      List.length_append, Nat.add_mul, Nat.zero_add]

theorem edits_of_rename {analysis : Analysis} {position : Position} {newName : List Char} {renamed : Renaming}
    (given : analysis.rename position newName = .ok (some renamed)) : ∃ span,
      analysis.renamable? position = some span ∧
        renamed.edits = rewordings span.word newName analysis.scans := by
  cases valid : Name.isIdentifier newName with
  | false =>
    rw [Analysis.rename, valid] at given
    contradiction
  | true =>
    rw [Analysis.rename, if_pos valid] at given
    obtain ⟨span, found, rfl⟩ := Option.map_eq_some_iff.1 (Except.ok.inj given)
    exact ⟨span, found, edits_eq analysis span.word newName⟩

theorem length_lines_rename {uri : String} {text newName : List Char} {linter : Linter} {version : Option Int}
    {position : Position} {renamed : Renaming}
    (given : (Analysis.ofText uri text linter version).rename position newName = .ok (some renamed)) :
    (Text.lines (joinLines (Edit.applyAll renamed.edits (Analysis.ofText uri text linter version).lines))).length =
      (Analysis.ofText uri text linter version).lines.length + renamed.edits.length * newName.count '\n' := by
  have feeds : ∀ line ∈ (Analysis.ofText uri text linter version).lines, '\n' ∉ line := by
    rw [lines_eq]
    exact fun line member => (isLine_of_mem_lines member).feeds
  obtain ⟨span, found, edits⟩ := edits_of_rename given
  rw [edits, Analysis.lines, applyAll_rewordings,
    length_lines_joinLines (by simpa using scans_ne_nil uri text linter version), List.length_map,
    count_feed_reworded (isPlain_of_renamable? found) (lines_ofText uri text linter version)
      fun scan member => feeds scan.text (List.mem_map_of_mem member), List.length_map]

end Lines

/-- A new name is refused unless it is a name of the grammar or one with a line feed after it, so that exactly
the names of the second kind are taken against the grammar. The edits keep the number of lines with a name of
the first kind; with one of the second kind each of them adds a line. -/
theorem rename_iff_formed_or_fed (uri : String) (text : List Char) (linter : Linter) (version : Option Int)
    (position : Position) (newName : List Char) :
    let analysis := Analysis.ofText uri text linter version
    ((∃ error, analysis.rename position newName = .error error) ↔ ¬ (Name.Formed newName ∨ Fed newName)) ∧
      (((∃ error, analysis.rename position newName = .error error) ↔ ¬ Name.Formed newName) ↔ ¬ Fed newName) ∧
        ∀ renamed, analysis.rename position newName = .ok (some renamed) →
          let edited := Text.lines (joinLines (Edit.applyAll renamed.edits analysis.lines))
          (¬ Fed newName → edited.length = analysis.lines.length) ∧
            (Fed newName → edited.length = analysis.lines.length + renamed.edits.length) := by
  intro analysis
  refine ⟨exists_error_iff, ?_, fun renamed given => ?_⟩
  · rw [exists_error_iff, not_iff_not]
    constructor
    · exact fun only fed => fed.not_formed (only.1 (.inr fed))
    · exact fun bare => or_iff_left bare
  · have length := length_lines_rename given
    have taken : Name.Formed newName ∨ Fed newName := by
      by_contra refused
      obtain ⟨error, fails⟩ := exists_error_iff.2 refused
      rw [given] at fails
      contradiction
    constructor
    · intro bare
      rwa [(taken.resolve_right bare).count_feed, Nat.mul_zero] at length
    · intro fed
      rwa [fed.count_feed, Nat.mul_one] at length

theorem rename_iff_formed_or_fed_total :
    let analysis := Analysis.ofText "" "total: 1\nprint total".toList .default none
    ∃ renamed, analysis.rename ⟨1, 7⟩ "sum\n".toList = .ok (some renamed) ∧
      (Text.lines (joinLines (Edit.applyAll renamed.edits analysis.lines))).length =
        analysis.lines.length + renamed.edits.length := by
  intro analysis
  have fed : Fed "sum\n".toList := ⟨"sum".toList, Name.isName_iff.1 (by decide), rfl⟩
  obtain ⟨-, -, adds⟩ :=
    rename_iff_formed_or_fed "" "total: 1\nprint total".toList .default none ⟨1, 7⟩ "sum\n".toList
  refine ⟨⟨"", [⟨.onLine 0 0 5, "sum\n".toList⟩, ⟨.onLine 1 6 11, "sum\n".toList⟩], []⟩, ?_, ?_⟩
  · decide +kernel
  · exact (adds _ (by decide +kernel)).2 fed

/-- A name with a line feed after it is taken, and the renaming makes four lines of two. -/
theorem rename_of_feed :
    let analysis := Analysis.ofText "" "total: 1\nprint total".toList .default none
    ¬ ((∃ error, analysis.rename ⟨1, 7⟩ "sum\n".toList = .error error) ↔ ¬ Name.Formed "sum\n".toList) ∧
      ∃ renamed, analysis.rename ⟨1, 7⟩ "sum\n".toList = .ok (some renamed) ∧
        analysis.lines.length = 2 ∧
          (Text.lines (joinLines (Edit.applyAll renamed.edits analysis.lines))).length = 4 := by
  intro analysis
  have given : analysis.rename ⟨1, 7⟩ "sum\n".toList =
      .ok (some ⟨"", [⟨.onLine 0 0 5, "sum\n".toList⟩, ⟨.onLine 1 6 11, "sum\n".toList⟩], []⟩) := by decide +kernel
  refine ⟨fun same => ?_, _, given, by decide +kernel, by decide +kernel⟩
  have refused : ¬ Name.Formed "sum\n".toList := fun formed =>
    absurd (Name.isName_iff.2 formed) (by decide)
  obtain ⟨error, fails⟩ := same.2 refused
  rw [given] at fails
  contradiction

end ArturoInsight
