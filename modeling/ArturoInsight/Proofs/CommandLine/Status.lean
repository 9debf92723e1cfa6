import ArturoInsight.Proofs.CommandLine.Batch
import ArturoInsight.Proofs.Lint.Order

/-! The exit status of a check. Issues are cut off at the limit in their order, warnings among them, before the
status is settled: it tells of an error exactly when fewer issues than the limit stand before it. -/

namespace ArturoInsight

open Lexical

theorem Issue.mem_take_iff {issues : List Issue} (sorted : issues.Pairwise fun left right => left.place < right.place)
    {limit : Nat} {issue : Issue} :
    issue ∈ issues.take limit ↔
      issue ∈ issues ∧ issues.countP (fun other => decide (other.place < issue.place)) < limit := by
  induction issues generalizing limit with
  | nil => simp
  | cons first rest ih =>
    obtain ⟨before, sorted⟩ := List.pairwise_cons.1 sorted
    cases limit with
    | zero => simp
    | succ limit =>
      rw [List.take_succ_cons, List.mem_cons, List.mem_cons, ih sorted, List.countP_cons]
      by_cases same : issue = first
      · have none : rest.countP (fun other => decide (other.place < first.place)) = 0 :=
          List.countP_eq_zero.2 fun other member => by simpa using (before other member).le
        simp [same, none]
      · have counted (member : issue ∈ rest) : decide (first.place < issue.place) = true :=
          decide_eq_true (before issue member)
        constructor
        · rintro (here | ⟨member, less⟩)
          · exact absurd here same
          · rw [if_pos (counted member)]
            exact ⟨.inr member, by omega⟩
        · rintro ⟨here | member, less⟩
          · exact absurd here same
          · rw [if_pos (counted member)] at less
            exact .inr ⟨member, by omega⟩

namespace Linter

variable {settings : DiagnosticsSettings} {source : Source} {issue : Issue}

/-- The rules whose issues are errors. -/
def errorRules : List Rule := [Brackets.rule, Operands.rule]

/-- Fewer issues than the limit stand before an issue, of all that the settings ask for. -/
def Uncut (settings : DiagnosticsSettings) (source : Source) (issue : Issue) : Prop :=
  (raised (ofSettings settings).rules source).countP (fun other => decide (other.place < issue.place)) <
    settings.maxProblems

instance : Decidable (Uncut settings source issue) := inferInstanceAs (Decidable (_ < _))

theorem mem_issues_iff : issue ∈ (ofSettings settings).issues source ↔
    issue ∈ raised (ofSettings settings).rules source ∧ Uncut settings source issue := by
  have sorted : (found (ofSettings settings).rules source).Pairwise fun left right => left.place < right.place := by
    rw [found_ofSettings]
    exact (pairwise_place_found source).filter _
  have perm := List.mergeSort_perm (raised (ofSettings settings).rules source) Issue.before
  rw [issues, show (ofSettings settings).limit = settings.maxProblems from rfl, limited_natCast,
    Issue.mem_take_iff sorted, found_eq, perm.mem_iff, perm.countP_eq, Uncut]

theorem mem_raised_error_iff : issue ∈ raised (ofSettings settings).rules source ∧ issue.severity = .error ↔
    ∃ rule ∈ errorRules, settings.asksFor rule.code = true ∧ issue ∈ (rule.check source).getD [] := by
  rw [rules_ofSettings, raised, List.mem_flatMap]
  simp only [List.mem_filter]
  constructor
  · rintro ⟨⟨rule, ⟨listed, asked⟩, member⟩, error⟩
    refine ⟨rule, ?_, asked, member⟩
    simp only [defaultRules, List.mem_cons, List.not_mem_nil, or_false] at listed
    obtain rfl | rfl | rfl := listed
    · simp [errorRules]
    · obtain ⟨line, scan, -, -, used⟩ := Rule.mem_byLine.1 member
      rw [(Undefined.place_of_mem used).1] at error
      contradiction
    · simp [errorRules]
  · rintro ⟨rule, listed, asked, member⟩
    simp only [errorRules, List.mem_cons, List.not_mem_nil, or_false] at listed
    obtain rfl | rfl := listed
    · exact ⟨⟨_, ⟨by simp [defaultRules], asked⟩, member⟩, (Brackets.place_of_mem member).1⟩
    · obtain ⟨line, scan, -, -, operator⟩ := Rule.mem_byLine.1 member
      exact ⟨⟨_, ⟨by simp [defaultRules], asked⟩, member⟩, (Operands.place_of_mem operator).1⟩

end Linter

namespace CommandLine

theorem exists_error_issuesOf_iff {files : Files} {settings : DiagnosticsSettings} {threshold : Severity}
    {path : String} : (∃ issue ∈ issuesOf files (.ofSettings settings) threshold path, issue.severity = .error) ↔
      ∃ text ∈ text? files path, ∃ rule ∈ Linter.errorRules, settings.asksFor rule.code = true ∧
        let source := Source.ofScans (scanText text) path Catalog.shipped
        ∃ issue ∈ (rule.check source).getD [], Linter.Uncut settings source issue := by
  unfold issuesOf
  cases text? files path with
  | none => simp
  | some text =>
    constructor
    · rintro ⟨issue, member, error⟩
      obtain ⟨raised, uncut⟩ := Linter.mem_issues_iff.1 (List.mem_filter.1 member).1
      obtain ⟨rule, listed, asked, member⟩ := Linter.mem_raised_error_iff.1 ⟨raised, error⟩
      exact ⟨text, rfl, rule, listed, asked, issue, member, uncut⟩
    · rintro ⟨_, same, rule, listed, asked, issue, member, uncut⟩
      obtain rfl := Option.some.inj same
      obtain ⟨raised, error⟩ := Linter.mem_raised_error_iff.2 ⟨rule, listed, asked, member⟩
      refine ⟨issue, List.mem_filter.2 ⟨Linter.mem_issues_iff.2 ⟨raised, uncut⟩, ?_⟩, error⟩
      simp [error, Severity.rank]

section Check

variable {read : Raw.Reader} {validator : Settings.Validator} {world : Surroundings} {args : List String}
  {invocation : Invocation} {paths : List String} {json : Bool} {threshold : Severity} {settings : Settings}
  {files : Files}

theorem prepare_of_load {notices : List Notice}
    (loads : Settings.load read validator world.files world.home invocation.config [] world.environment =
      .ok (settings, notices))
    (unlogged : invocation.logFile.or (nonempty? settings.logging.file) = none)
    (level : levelError? (invocation.level.getD settings.logging.level) = none) :
    prepare read validator world invocation = .ok (settings, world.files) := by
  unfold prepare
  simp only [loads, unlogged, level, Except.mapError, bind, Except.bind]

theorem exists_status_of_readable (asks : Invocation.ofArguments args = .ok invocation)
    (command : invocation.command = .lint paths json (some threshold))
    (prepared : prepare read validator world invocation = .ok (settings, files))
    (readable : ∀ path ∈ paths, (text? files path).isSome = true) :
    ∃ code ≤ 1, (perform read validator world args).ending = .status code ∧ (code = 1 ↔ ∃ path ∈ paths,
      ∃ issue ∈ issuesOf files (.ofSettings settings.diagnostics) threshold path, issue.severity = .error) := by
  have clear : ∀ path ∈ paths, ∀ fault, ¬ Breaks files path fault := fun path member fault breaks => by
    simpa [breaks.text?_eq_none] using readable path member
  obtain ⟨reports, checked, reported⟩ := @lintFiles_of_clear files (.ofSettings settings.diagnostics) threshold _ clear
  have none : reports = [] := by
    have read : (paths.filter fun path => (text? files path).isNone) = [] :=
      List.filter_eq_nil_iff.2 fun path member => by simp [Option.isSome_iff_ne_none.1 (readable path member)]
    rw [read] at reported
    exact List.forall₂_nil_left_iff.1 reported
  rw [perform_eq_lint asks command prepared, lint_of_ok checked]
  refine ⟨_, ?_, rfl, ?_⟩
  · split_ifs <;> omega
  · rw [status_eq_one_iff, none]
    constructor
    · rintro (other | ⟨issue, member, error⟩)
      · exact absurd rfl other
      · obtain ⟨path, listed, member⟩ := List.mem_flatMap.1 member
        exact ⟨path, listed, issue, member, error⟩
    · rintro ⟨path, listed, issue, member, error⟩
      exact .inr ⟨issue, List.mem_flatMap.2 ⟨path, listed, member⟩, error⟩

end Check

/-- A check has the fault that there are no settings for, if there are none. With settings, the status of a check of
files that can all be read is one exactly when an enabled rule reports an error in one of them, and fewer issues than
the limit stand before it. -/
theorem lint_status_iff (read : Raw.Reader) (validator : Settings.Validator) (world : Surroundings)
    {args : List String} {invocation : Invocation} {paths : List String} {json : Bool} {threshold : Severity}
    (asks : Invocation.ofArguments args = .ok invocation)
    (command : invocation.command = .lint paths json (some threshold)) :
    (∀ fault, prepare read validator world invocation = .error fault →
      (perform read validator world args).ending = .fault fault) ∧
    ∀ settings files, prepare read validator world invocation = .ok (settings, files) →
      (∀ path ∈ paths, (text? files path).isSome = true) →
        ∃ code ≤ 1, (perform read validator world args).ending = .status code ∧
          (code = 1 ↔ ∃ path ∈ paths, ∃ text ∈ text? files path, ∃ rule ∈ Linter.errorRules,
            settings.diagnostics.asksFor rule.code = true ∧
              let source := Source.ofScans (scanText text) path Catalog.shipped
              ∃ issue ∈ (rule.check source).getD [], Linter.Uncut settings.diagnostics source issue) := by
  refine ⟨fun fault fails => by rw [perform_of_fault asks fails]; rfl, fun settings files prepared readable => ?_⟩
  obtain ⟨code, small, ending, one⟩ := exists_status_of_readable asks command prepared readable
  refine ⟨code, small, ending, one.trans ?_⟩
  exact exists_congr fun path => and_congr_right fun _ => exists_error_issuesOf_iff

/-- A limit of two lets the error behind a warning through. -/
theorem lint_status_iff_limited :
    let world : Surroundings := ⟨⟨[(Place.ofString ".arturo-lsp.yaml", .file "diagnostics:\n  maxProblems: 2\n".toUTF8),
      (Place.ofString "m.art", .file "foo\nx: 1 + \"a\"".toUTF8)]⟩, [], none⟩
    (∀ path ∈ ["m.art"], (text? world.files path).isSome = true) ∧
      (perform Written.read .lax world ["lint", "--severity", "error", "m.art"]).ending = .status 1 := by
  intro world
  have asks : Invocation.ofArguments ["lint", "--severity", "error", "m.art"] =
      .ok ⟨none, none, none, .lint ["m.art"] false (some .error)⟩ := by decide +kernel
  have loads : Settings.load Written.read .lax world.files none none [] [] =
      .ok ({ diagnostics := { maxProblems := 2 } }, []) := by decide +kernel
  have readable : ∀ path ∈ ["m.art"], (text? world.files path).isSome = true := by decide +kernel
  have whole : text? world.files "m.art" = some "foo\nx: 1 + \"a\"".toList := by decide +kernel
  have shown : ∃ issue ∈ (Operands.rule.check (.ofScans (scanText "foo\nx: 1 + \"a\"".toList) "m.art"
      Catalog.shipped)).getD [], Linter.Uncut { maxProblems := 2 }
        (.ofScans (scanText "foo\nx: 1 + \"a\"".toList) "m.art" Catalog.shipped) issue := by decide +kernel
  obtain ⟨-, settled⟩ := lint_status_iff Written.read .lax world asks rfl
  obtain ⟨code, -, ending, one⟩ := settled _ _ (prepare_of_load loads rfl (by decide)) readable
  have failed := one.2
    ⟨"m.art", List.mem_cons_self, _, whole, Operands.rule, by simp [Linter.errorRules], by decide, shown⟩
  exact ⟨readable, failed ▸ ending⟩

/-- A limit of one hides the error behind a warning from the status. -/
theorem lint_status_of_cut :
    let world : Surroundings := ⟨⟨[(Place.ofString ".arturo-lsp.yaml", .file "diagnostics:\n  maxProblems: 1\n".toUTF8),
      (Place.ofString "m.art", .file "foo\nx: 1 + \"a\"".toUTF8)]⟩, [], none⟩
    text? world.files "m.art" = some "foo\nx: 1 + \"a\"".toList ∧
      (Operands.rule.check (.ofScans (scanText "foo\nx: 1 + \"a\"".toList) "m.art" Catalog.shipped)).getD [] ≠ [] ∧
      (perform Written.read .lax world ["lint", "m.art"]).ending = .status 0 := by
  intro world
  have asks : Invocation.ofArguments ["lint", "m.art"] =
      .ok ⟨none, none, none, .lint ["m.art"] false (some .hint)⟩ := by decide +kernel
  have loads : Settings.load Written.read .lax world.files none none [] [] =
      .ok ({ diagnostics := { maxProblems := 1 } }, []) := by decide +kernel
  have whole : text? world.files "m.art" = some "foo\nx: 1 + \"a\"".toList := by decide +kernel
  have hidden : ∀ rule ∈ Linter.errorRules, ∀ issue ∈ (rule.check (.ofScans (scanText "foo\nx: 1 + \"a\"".toList)
      "m.art" Catalog.shipped)).getD [], ¬ Linter.Uncut { maxProblems := 1 }
        (.ofScans (scanText "foo\nx: 1 + \"a\"".toList) "m.art" Catalog.shipped) issue := by decide +kernel
  obtain ⟨code, small, ending, one⟩ := exists_status_of_readable asks rfl (prepare_of_load loads rfl (by decide))
    fun path member => by rw [List.mem_singleton.1 member, whole]; rfl
  have passed : code ≠ 1 := by
    rintro failed
    obtain ⟨path, listed, error⟩ := one.1 failed
    obtain ⟨text, read, rule, listed_, -, issue, member, uncut⟩ := exists_error_issuesOf_iff.1 error
    rw [List.mem_singleton.1 listed] at read member uncut
    rw [← Option.some.inj (whole.symm.trans read)] at member uncut
    exact hidden rule listed_ issue member uncut
  obtain rfl : code = 0 := by omega
  exact ⟨whole, by decide +kernel, ending⟩

end CommandLine

end ArturoInsight
