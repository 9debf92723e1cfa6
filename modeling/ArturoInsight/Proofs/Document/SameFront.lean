import ArturoInsight.Proofs.Lint.Alike
import ArturoInsight.Proofs.Overview.Folding
import ArturoInsight.Proofs.Symbol.Gaps
import ArturoInsight.Proofs.Symbol.Gathered
import ArturoInsight.Proofs.Text.Lines

/-! Documents that are the same up to the comments of their lines: what a comment says is in none of their symbols,
changes none of their folds, and decides no issue. -/

namespace ArturoInsight

open Text Lexical

/-- Documents that bind the same, fold the same and have the same issues, but for where these end. -/
structure SameFindings (left right : List Char) : Prop where
  symbols : Symbols.ofText left = Symbols.ofText right
  quasi : Quasi.ofScans (scanText left) = Quasi.ofScans (scanText right)
  folds : Fold.ofScans (scanText left) = Fold.ofScans (scanText right)
  issues : ∀ file,
    (Linter.default.lintText left file).map Issue.told = (Linter.default.lintText right file).map Issue.told

section Reading

variable {lefts rights : List Scan} (same : List.Forall₂ SameReading lefts rights)

include same

theorem Symbols.ofScans_of_sameReading : Symbols.ofScans lefts = Symbols.ofScans rights := by
  rw [ofScans, ofScans, addFrom_eq, addFrom_eq]
  refine gather_congr (same.imp fun left right alike => ⟨?_, fun line => ?_⟩) empty 0
  · rw [definedTypes, definedTypes, alike.uncommented, alike.codeAt]
  · rw [read?, read?, Binding.ofLine?, Binding.ofLine?, alike.uncommented, Binding.at?_congr alike.codeAt]

theorem Quasi.ofScans_of_sameReading : Quasi.ofScans lefts = Quasi.ofScans rights := by
  have read {names : List Char → List (List Char)} (gaps : ∀ {gap other : List Char}, Blanks gap → Blanks other →
      (gap = [] ↔ other = []) → ∀ text, names (text ++ gap) = names (text ++ other)) :
      lefts.flatMap (fun scan => names scan.blanked) = rights.flatMap fun scan => names scan.blanked := by
    rw [List.flatMap_def, List.flatMap_def]
    refine congrArg List.flatten (map_eq_of_forall₂ (fun left right alike => ?_) same)
    obtain ⟨front, gap, other, blanks, blank, some_, first, second⟩ := alike.blanked
    rw [first, second, gaps blanks blank some_]
  simp only [Quasi.ofScans, read fun blanks blank _ => parameters_gap blanks blank,
    read fun blanks blank _ => loopVariables_gap blanks blank, read dictionaryKeys_gap]

theorem Fold.ofScans_of_sameReading : Fold.ofScans lefts = Fold.ofScans rights := by
  have brackets := Progress.bracketsFrom_congr (map_eq_of_forall₂ (fun _ _ alike => alike.brackets) same)
  have strings := Progress.stringsFrom_congr
    (map_eq_of_forall₂ (fun _ _ alike => by rw [alike.carryIn, alike.carryOut]) same)
  simp only [Fold.ofScans_eq, Fold.ofBrackets, Fold.ofStrings, brackets, strings]

end Reading

/-- What stands in a comment has no part in what a document binds, in its folds, or in its issues. -/
theorem sameFindings_of_sameFront {left right : List Char}
    (same : List.Forall₂ SameFront (scanText left) (scanText right)) : SameFindings left right := by
  have reading : List.Forall₂ SameReading (scanText left) (scanText right) := by
    obtain ⟨size, pairs⟩ := List.forall₂_iff_zip.1 same
    refine List.forall₂_iff_zip.2 ⟨size, fun {old new} paired => ?_⟩
    obtain ⟨first, second⟩ := List.of_mem_zip paired
    obtain ⟨carry, text, sound, -, rfl⟩ := exists_sound_scanLine Carry.sound_none first
    obtain ⟨following, other, -, -, rfl⟩ := exists_sound_scanLine Carry.sound_none second
    obtain rfl : carry = following := (pairs paired).carryIn
    exact (pairs paired).reading sound
  have symbols := Symbols.ofScans_of_sameReading reading
  have quasi := Quasi.ofScans_of_sameReading reading
  refine ⟨symbols, quasi, Fold.ofScans_of_sameReading reading, fun file => ?_⟩
  have alike : Source.Alike (.ofScans (scanText left) file Catalog.shipped)
      (.ofScans (scanText right) file Catalog.shipped) := ⟨reading, symbols, quasi, rfl, rfl⟩
  exact alike.told_issues 1000

theorem sameFindings_of_remark :
    List.Forall₂ SameFront (scanText "loop x: 1 ; a b:\n\x7b:a\nb:\x7d y: 'c ;".toList)
        (scanText "loop x: 1 ;\n\x7b:a\nb:\x7d y: 'c ; [z: 2] \"".toList) ∧
      SameFindings "loop x: 1 ; a b:\n\x7b:a\nb:\x7d y: 'c ;".toList
        "loop x: 1 ;\n\x7b:a\nb:\x7d y: 'c ; [z: 2] \"".toList := by
  have same : List.Forall₂ SameFront (scanText "loop x: 1 ; a b:\n\x7b:a\nb:\x7d y: 'c ;".toList)
      (scanText "loop x: 1 ;\n\x7b:a\nb:\x7d y: 'c ; [z: 2] \"".toList) := by decide +kernel
  exact ⟨same, sameFindings_of_sameFront same⟩

end ArturoInsight
