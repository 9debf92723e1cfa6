import ArturoInsight.Proofs.Lexical.SameFront
import ArturoInsight.Proofs.Lint.Order

/-! Documents that are read alike have the same issues of the default rules, but for where these end. -/

namespace ArturoInsight

open Text Lexical

/-- What an issue tells besides where it ends and the text of its line. -/
def Issue.told (issue : Issue) : Issue := { issue with endColumn := 0, context := [] }

theorem Binding.at?_congr {left right : Scan} (codes : left.codeAt = right.codeAt) : at? left = at? right := by
  funext column before rest
  simp only [at?, codes]

theorem Lexical.SameReading.skips {left right : Scan} (same : SameReading left right) :
    Source.skips left = Source.skips right := by
  rw [Source.skips, Source.skips, same.first, same.carryOut]

theorem Linter.map_limited (change : Issue → Issue) (limit : Int) (issues : List Issue) :
    (limited limit issues).map change = limited limit (issues.map change) := by
  rw [limited, limited, List.length_map]
  split_ifs
  · exact List.map_take
  · exact List.map_take

namespace Source

/-- Two documents whose lines are read alike, and of which the same is known. -/
structure Alike (left right : Source) : Prop where
  scans : List.Forall₂ SameReading left.scans right.scans
  symbols : left.symbols = right.symbols
  quasi : left.quasi = right.quasi
  catalog : left.catalog = right.catalog
  file : left.file = right.file

namespace Alike

variable {left right : Source} (alike : Alike left right)

include alike

theorem told_issue (severity : Severity) (code message : String) (line : Nat) (first second : Scan)
    (column stop end_ : Nat) : (left.issue severity code message line first column stop).told =
      (right.issue severity code message line second column end_).told := by
  rw [Source.issue, Source.issue, alike.file]
  rfl

theorem told_byLine {code : String} {severity : Severity} {find : Source → Nat → Scan → List Issue}
    (lines : ∀ line first second, SameReading first second →
      (find left line first).map Issue.told = (find right line second).map Issue.told) :
    (((Rule.byLine code severity find).check left).getD []).map Issue.told =
      (((Rule.byLine code severity find).check right).getD []).map Issue.told := by
  have later (start : Nat) {firsts seconds : List Scan} (same : List.Forall₂ SameReading firsts seconds) :
      ((firsts.zipIdx start).flatMap fun row => if skips row.1 then [] else find left row.2 row.1).map Issue.told =
        ((seconds.zipIdx start).flatMap fun row =>
          if skips row.1 then [] else find right row.2 row.1).map Issue.told := by
    induction same generalizing start with
    | nil => rfl
    | @cons first second firsts seconds here later ih =>
      rw [List.zipIdx_cons, List.zipIdx_cons, List.flatMap_cons, List.flatMap_cons, List.map_append, List.map_append,
        ih]
      congr 1
      dsimp only
      rw [here.skips]
      split_ifs
      · rfl
      · exact lines start first second here
  exact later 0 alike.scans

theorem told_brackets : (Brackets.check left).map Issue.told = (Brackets.check right).map Issue.told := by
  let view (scan : Scan) := (skips scan, scan.brackets)
  have views : left.scans.map view = right.scans.map view :=
    map_eq_of_forall₂ (fun _ _ same => Prod.ext same.skips same.brackets) alike.scans
  have told (source : Source) : (Brackets.check source).map Issue.told =
      match (source.scans.map view).getLast? with
      | none => []
      | some last =>
        if last.1 || Brackets.balance ((source.scans.map view).flatMap (·.2)) == 0 || last.2.isEmpty then []
        else [⟨.error, "E002", "Unmatched brackets in file", source.file, (source.scans.map view).length - 1, 0,
          (source.scans.map view).length - 1, 0, []⟩] := by
    rw [Brackets.check, List.getLast?_map, List.flatMap_map, List.length_map]
    cases source.scans.getLast? with
    | none => rfl
    | some last =>
      simp only [Option.map_some]
      split_ifs <;> rfl
  rw [told, told, views, alike.file]

theorem told_words (line : Nat) {first second : Scan} (same : SameReading first second) :
    (Undefined.ofLine left line first).map Issue.told = (Undefined.ofLine right line second).map Issue.told := by
  have known (word : List Char) : Undefined.isKnown left word = Undefined.isKnown right word := by
    rw [Undefined.isKnown, Undefined.isKnown, alike.symbols, alike.quasi, alike.catalog]
  have exempt (found : Found Undefined.Use) :
      Undefined.isExempt left first found = Undefined.isExempt right second found := by
    simp only [Undefined.isExempt, same.tagAt, alike.catalog]
  simp only [Undefined.ofLine, same.uncommented, known, exempt, List.map_map]
  exact List.map_congr_left fun found _ => alike.told_issue ..

theorem told_operands (line : Nat) {first second : Scan} (same : SameReading first second) :
    (Operands.ofLine left line first).map Issue.told = (Operands.ofLine right line second).map Issue.told := by
  have reads : Operands.ofLine? first = Operands.ofLine? second := by
    simp only [Operands.ofLine?, Operands.at?, same.uncommented, same.codeAt]
  unfold Operands.ofLine
  rw [reads, alike.symbols]
  cases Operands.ofLine? second with
  | none => rfl
  | some operation =>
    dsimp only
    split
    · split_ifs
      · rfl
      · exact congrArg (· :: []) (alike.told_issue ..)
    · rfl

theorem told_raised : (Linter.raised Linter.defaultRules left).map Issue.told =
    (Linter.raised Linter.defaultRules right).map Issue.told := by
  have brackets : ((Brackets.rule.check left).getD []).map Issue.told =
      ((Brackets.rule.check right).getD []).map Issue.told := alike.told_brackets
  have words : ((Undefined.rule.check left).getD []).map Issue.told =
      ((Undefined.rule.check right).getD []).map Issue.told := alike.told_byLine fun line _ _ => alike.told_words line
  have operands : ((Operands.rule.check left).getD []).map Issue.told =
      ((Operands.rule.check right).getD []).map Issue.told := alike.told_byLine fun line _ _ => alike.told_operands line
  simp only [Linter.raised, Linter.defaultRules, List.flatMap_cons, List.flatMap_nil, List.map_append, brackets, words,
    operands]

theorem told_issues (limit : Int) : ((Linter.mk Linter.defaultRules limit).issues left).map Issue.told =
    ((Linter.mk Linter.defaultRules limit).issues right).map Issue.told := by
  have sorts (issues : List Issue) : (issues.mergeSort Issue.before).map Issue.told =
      (issues.map Issue.told).mergeSort Issue.before := List.map_mergeSort fun _ _ _ _ => rfl
  simp only [Linter.issues, Linter.found_eq, Linter.map_limited, sorts, alike.told_raised]

end Alike

end Source

end ArturoInsight
