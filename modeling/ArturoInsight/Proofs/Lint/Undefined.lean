import ArturoInsight.Lint.Linter
import Mathlib.Tactic.ByContra
import Mathlib.Tactic.SplitIfs

/-! Documents in which every word is defined. -/

namespace ArturoInsight

open Text Lexical

/-- No issue of the default rules says that a word may be undefined. -/
def Source.Defined (source : Source) : Prop := ∀ issue ∈ Linter.found Linter.defaultRules source, issue.code ≠ "W001"

namespace Linter

theorem mem_found {rules : List Rule} {source : Source} {issue : Issue} :
    issue ∈ found rules source ↔ ∃ rule ∈ rules, issue ∈ (rule.check source).getD [] := by
  rw [found, List.mem_mergeSort, List.mem_flatMap]

end Linter

theorem Rule.mem_byLine {code : String} {severity : Severity} {find : Source → Nat → Scan → List Issue}
    {source : Source} {issue : Issue} : issue ∈ ((Rule.byLine code severity find).check source).getD [] ↔
      ∃ line scan, source.scans[line]? = some scan ∧ Source.skips scan = false ∧ issue ∈ find source line scan := by
  simp only [Rule.byLine, Option.getD_some, List.mem_flatMap, Prod.exists, List.mk_mem_zipIdx_iff_getElem?]
  constructor
  · rintro ⟨scan, line, found, member⟩
    split_ifs at member with skips
    · contradiction
    · exact ⟨line, scan, found, by simpa using skips, member⟩
  · rintro ⟨line, scan, found, skips, member⟩
    exact ⟨scan, line, found, by simpa [skips] using member⟩

theorem Brackets.code_of_mem {source : Source} {issue : Issue} (member : issue ∈ Brackets.check source) :
    issue.code = "E002" := by
  unfold check at member
  cases last : source.scans.getLast? with
  | none => simp [last] at member
  | some scan =>
    simp only [last] at member
    split_ifs at member
    · contradiction
    · rw [List.mem_singleton.1 member]
      rfl

theorem Operands.code_of_mem {source : Source} {line : Nat} {scan : Scan} {issue : Issue}
    (member : issue ∈ Operands.ofLine source line scan) : issue.code = "E001" := by
  unfold ofLine at member
  cases operation : ofLine? scan with
  | none => simp [operation] at member
  | some operation' =>
    simp only [operation] at member
    split at member
    · split_ifs at member
      · contradiction
      · rw [List.mem_singleton.1 member]
        rfl
    · contradiction

namespace Undefined

theorem mem_ofLine {source : Source} {line : Nat} {scan : Scan} {issue : Issue} : issue ∈ ofLine source line scan ↔
    ∃ found ∈ finds use scan.uncommented, isKnown source found.value.word = false ∧ isExempt source scan found = false ∧
      issue = source.issue .warning "W001" (message found.value.word) line scan found.start found.stop := by
  simp only [ofLine, List.mem_map, List.mem_filter, Bool.and_eq_true, Bool.not_eq_true', and_assoc, @eq_comm _ _ issue]

theorem isExempt_eq_false {source : Source} {scan : Scan} {found : Found Use} : isExempt source scan found = false ↔
    found.value.next ≠ some ':' ∧ scan.tagAt found.start = .code ∧
      (∀ c ∈ found.value.before, c ∉ ['\x27', '\x60', '#', ':']) ∧
      ¬ (found.value.before = some '.' ∧ source.catalog.isAttribute found.value.word = true) := by
  have known : (found.value.before == some '.' && source.catalog.isAttribute found.value.word) = false ↔
      ¬ (found.value.before = some '.' ∧ source.catalog.isAttribute found.value.word = true) := by
    rw [← Bool.not_eq_true, Bool.and_eq_true, beq_iff_eq]
  rw [isExempt, Bool.or_eq_false_iff, Bool.or_eq_false_iff, Bool.or_eq_false_iff, known, beq_eq_false_iff_ne,
    bne_eq_false_iff_eq, Option.any_eq_false]
  simp only [List.contains_eq_mem, decide_eq_false_iff_not, Option.mem_def, and_assoc]

theorem defined_iff {source : Source} : source.Defined ↔ ∀ scan ∈ source.scans, Source.skips scan = false →
    ∀ found ∈ finds use scan.uncommented, isKnown source found.value.word = true ∨ isExempt source scan found = true := by
  constructor
  · intro defined scan member skips found there
    obtain ⟨line, place⟩ := List.mem_iff_getElem?.1 member
    by_contra other
    obtain ⟨unknown, named⟩ : isKnown source found.value.word = false ∧ isExempt source scan found = false := by
      simpa using other
    have reported := (@mem_ofLine source line scan _).2 ⟨found, there, unknown, named, rfl⟩
    have listed : rule ∈ Linter.defaultRules := by simp [Linter.defaultRules]
    have issued := Linter.mem_found.2 ⟨rule, listed, Rule.mem_byLine.2 ⟨line, scan, place, skips, reported⟩⟩
    exact defined _ issued rfl
  · intro all issue member code
    obtain ⟨rule, listed, member⟩ := Linter.mem_found.1 member
    simp only [Linter.defaultRules, List.mem_cons, List.not_mem_nil, or_false] at listed
    obtain rfl | rfl | rfl := listed
    · rw [Brackets.code_of_mem member] at code
      exact absurd code (by decide)
    · obtain ⟨line, scan, place, skips, member⟩ := Rule.mem_byLine.1 member
      obtain ⟨found, there, unknown, named, -⟩ := mem_ofLine.1 member
      obtain known | exempt := all scan (List.mem_of_getElem? place) skips found there
      · rw [unknown] at known
        contradiction
      · rw [named] at exempt
        contradiction
    · obtain ⟨line, scan, place, skips, member⟩ := Rule.mem_byLine.1 member
      rw [Operands.code_of_mem member] at code
      exact absurd code (by decide)

end Undefined

end ArturoInsight
