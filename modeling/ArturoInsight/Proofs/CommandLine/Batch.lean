import ArturoInsight.CommandLine.Run
import ArturoInsight.Proofs.CommandLine.Asked
import ArturoInsight.Settings.Lax
import ArturoInsight.Written.Reader
import Mathlib.Data.List.Forall2
import Mathlib.Tactic.SplitIfs

/-! What the check of several files comes to. A file that cannot be read is reported and the others are checked; a file
whose bytes are no text, and a path that no report is made of, end the check and leave nothing of what it found. -/

namespace ArturoInsight.CommandLine

/-- The text of the file that a path leads to, where there is one. -/
def text? (files : Files) (path : String) : Option (List Char) := (files.read path).toOption.bind decode?

/-- A path whose file ends the check, and the fault that it ends with. -/
inductive Breaks (files : Files) (path : String) : Fault → Prop
  | undecodable {bytes : ByteArray} (whole : files.read path = .ok bytes) (broken : decode? bytes = none) :
      Breaks files path (.undecodable path)
  | unreported {error : FileError} (refused : files.read path = .error error) (silent : error.reason? = none) :
      Breaks files path (.unopenable error path)

/-- A line that reports why the file that a path leads to cannot be read. -/
def Reports (files : Files) (path line : String) : Prop :=
  ∃ error, files.read path = .error error ∧ report? path error = some line

section Files

variable {files : Files} {path : String}

theorem readSource_cases (files : Files) (path : String) :
    (∃ text, text? files path = some text ∧ readSource files path = .ok (.ok text) ∧
      ∀ fault, ¬ Breaks files path fault) ∨
    (∃ line, text? files path = none ∧ Reports files path line ∧ readSource files path = .ok (.error line) ∧
      ∀ fault, ¬ Breaks files path fault) ∨
    ∃ fault, text? files path = none ∧ Breaks files path fault ∧ readSource files path = .error fault := by
  unfold text? Reports readSource
  cases read : files.read path with
  | error error =>
    cases reported : report? path error with
    | some line =>
      refine .inr (.inl ⟨line, rfl, ⟨error, rfl, reported⟩, by simp [reported], ?_⟩)
      rintro fault (⟨whole, -⟩ | ⟨refused, silent⟩)
      · simp [read] at whole
      · obtain rfl : error = _ := Except.error.inj (read.symm.trans refused)
        simp [report?, silent] at reported
    | none =>
      have silent : error.reason? = none := by simpa [report?] using reported
      exact .inr (.inr ⟨_, rfl, .unreported read silent, by simp [reported]⟩)
  | ok bytes =>
    cases decoded : decode? bytes with
    | some text =>
      refine .inl ⟨text, decoded, by simp [decoded], ?_⟩
      rintro fault (⟨whole, broken⟩ | ⟨refused, -⟩)
      · obtain rfl : bytes = _ := Except.ok.inj (read.symm.trans whole)
        simp [decoded] at broken
      · simp [read] at refused
    | none => exact .inr (.inr ⟨_, decoded, .undecodable read decoded, by simp [decoded]⟩)

theorem Breaks.text?_eq_none {fault : Fault} (breaks : Breaks files path fault) : text? files path = none := by
  obtain ⟨whole, broken⟩ | ⟨refused, -⟩ := breaks
  · rw [text?, whole]
    exact broken
  · rw [text?, refused]
    rfl

theorem Breaks.readSource {fault : Fault} (breaks : Breaks files path fault) :
    readSource files path = .error fault := by
  unfold CommandLine.readSource
  obtain ⟨whole, broken⟩ | ⟨refused, silent⟩ := breaks
  · simp only [whole, broken]
  · simp only [refused, report?, silent, Option.map_none]

end Files

section Batch

variable (files : Files) (linter : Linter) (threshold : Severity)

def issuesOf (path : String) : List Issue :=
  (text? files path).elim [] fun text => (linter.lintText text path).filter fun issue =>
    issue.severity.rank ≤ threshold.rank

variable {files linter threshold} {path : String} {rest : List String}

theorem lintFiles_of_fault {fault : Fault} (fails : readSource files path = .error fault) :
    lintFiles files linter threshold (path :: rest) = .error (fault, []) := by
  unfold lintFiles
  rw [fails]

theorem lintFiles_of_report {line : String} (refused : readSource files path = .ok (.error line)) :
    (∀ issues reports, lintFiles files linter threshold rest = .ok ⟨issues, reports⟩ →
      lintFiles files linter threshold (path :: rest) = .ok ⟨issues, line :: reports⟩) ∧
    ∀ fault reports, lintFiles files linter threshold rest = .error (fault, reports) →
      lintFiles files linter threshold (path :: rest) = .error (fault, line :: reports) := by
  constructor <;>
  · intro _ _ later
    unfold lintFiles
    simp only [refused, later]

theorem lintFiles_of_text {text : List Char} (read : readSource files path = .ok (.ok text))
    (decoded : text? files path = some text) :
    (∀ issues reports, lintFiles files linter threshold rest = .ok ⟨issues, reports⟩ →
      lintFiles files linter threshold (path :: rest) =
        .ok ⟨issuesOf files linter threshold path ++ issues, reports⟩) ∧
    ∀ fault reports, lintFiles files linter threshold rest = .error (fault, reports) →
      lintFiles files linter threshold (path :: rest) = .error (fault, reports) := by
  constructor <;>
  · intro _ _ later
    unfold lintFiles
    simp only [read, later, issuesOf, decoded]
    rfl

theorem lintFiles_of_clear {paths : List String} (clear : ∀ path ∈ paths, ∀ fault, ¬ Breaks files path fault) :
    ∃ reports, lintFiles files linter threshold paths = .ok ⟨paths.flatMap (issuesOf files linter threshold), reports⟩ ∧
      List.Forall₂ (Reports files) (paths.filter fun path => (text? files path).isNone) reports := by
  induction paths with
  | nil => exact ⟨[], rfl, .nil⟩
  | cons path paths ih =>
    obtain ⟨here, later⟩ := List.forall_mem_cons.1 clear
    obtain ⟨reports, checked, reported⟩ := ih later
    obtain ⟨text, decoded, read, -⟩ | ⟨line, none, refused, read, -⟩ | ⟨fault, -, breaks, -⟩ :=
      readSource_cases files path
    · refine ⟨reports, ?_, by simpa [decoded] using reported⟩
      rw [(lintFiles_of_text read decoded).1 _ _ checked, List.flatMap_cons]
    · refine ⟨line :: reports, ?_, by simpa [none] using ⟨refused, reported⟩⟩
      rw [(lintFiles_of_report read).1 _ _ checked, List.flatMap_cons, issuesOf, none]
      rfl
    · exact absurd breaks (here fault)

theorem lintFiles_of_breaks {before after : List String} {fault : Fault}
    (clear : ∀ path ∈ before, ∀ fault, ¬ Breaks files path fault) (breaks : Breaks files path fault) :
    ∃ reports, lintFiles files linter threshold (before ++ path :: after) = .error (fault, reports) ∧
      List.Forall₂ (Reports files) (before.filter fun path => (text? files path).isNone) reports := by
  induction before with
  | nil => exact ⟨[], lintFiles_of_fault breaks.readSource, .nil⟩
  | cons first before ih =>
    obtain ⟨here, later⟩ := List.forall_mem_cons.1 clear
    obtain ⟨reports, ends, reported⟩ := ih later
    obtain ⟨text, decoded, read, -⟩ | ⟨line, none, refused, read, -⟩ | ⟨fault, -, other, -⟩ :=
      readSource_cases files first
    · exact ⟨reports, (lintFiles_of_text read decoded).2 _ _ ends, by simpa [decoded] using reported⟩
    · exact ⟨line :: reports, (lintFiles_of_report read).2 _ _ ends, by simpa [none] using ⟨refused, reported⟩⟩
    · exact absurd other (here fault)

theorem exists_first_breaks {paths : List String} (broken : ¬ ∀ path ∈ paths, ∀ fault, ¬ Breaks files path fault) :
    ∃ before path after fault, paths = before ++ path :: after ∧
      (∀ earlier ∈ before, ∀ fault, ¬ Breaks files earlier fault) ∧ Breaks files path fault := by
  induction paths with
  | nil => exact absurd (List.forall_mem_nil _) broken
  | cons first rest ih =>
    by_cases here : ∃ fault, Breaks files first fault
    · obtain ⟨fault, breaks⟩ := here
      exact ⟨[], first, rest, fault, rfl, List.forall_mem_nil _, breaks⟩
    · have clear : ∀ fault, ¬ Breaks files first fault := not_exists.1 here
      obtain ⟨before, path, after, fault, rfl, earlier, breaks⟩ :=
        ih fun later => broken (List.forall_mem_cons.2 ⟨clear, later⟩)
      exact ⟨first :: before, path, after, fault, rfl, List.forall_mem_cons.2 ⟨clear, earlier⟩, breaks⟩

end Batch

section Command

variable {read : Raw.Reader} {validator : Settings.Validator} {world : Surroundings} {settings : Settings}
  {files : Files} {paths : List String} {json : Bool} {threshold : Severity} {args : List String} {invocation : Invocation}
  (asks : Invocation.ofArguments args = .ok invocation)

include asks

theorem perform_eq_lint (command : invocation.command = .lint paths json (some threshold))
    (prepared : prepare read validator world invocation = .ok (settings, files)) :
    perform read validator world args = lint files settings paths json threshold := by
  unfold perform
  simp only [asks]
  unfold run
  simp only [prepared, command]
  rfl

theorem perform_of_fault {fault : Fault} (fails : prepare read validator world invocation = .error fault) :
    perform read validator world args = .faulty fault := by
  unfold perform
  simp only [asks]
  unfold run
  simp only [fails]

omit asks

theorem lint_of_ok {issues : List Issue} {reports : List String}
    (checked : lintFiles files (.ofSettings settings.diagnostics) threshold paths = .ok ⟨issues, reports⟩) :
    lint files settings paths json threshold =
      { Outcome.printing (if !reports.isEmpty || issues.any fun issue => issue.severity == .error then 1 else 0)
        (issueReport json issues) with reports } := by
  unfold lint
  simp only [checked]

theorem lint_of_error {fault : Fault} {reports : List String}
    (ends : lintFiles files (.ofSettings settings.diagnostics) threshold paths = .error (fault, reports)) :
    lint files settings paths json threshold = { Outcome.faulty fault with reports } := by
  unfold lint
  simp only [ends]

end Command

theorem status_eq_one_iff {issues : List Issue} {reports : List String} :
    (if !reports.isEmpty || issues.any fun issue => issue.severity == .error then 1 else 0) = 1 ↔
      reports ≠ [] ∨ ∃ issue ∈ issues, issue.severity = .error := by
  simp [imp_iff_not_or]

theorem issuesOf_hint (files : Files) (linter : Linter) (path : String) :
    issuesOf files linter .hint path = (text? files path).elim [] fun text => linter.lintText text path := by
  have all (issue : Issue) : issue.severity.rank ≤ Severity.hint.rank := by cases issue.severity <;> decide
  simp [issuesOf, all]

section Json

variable {files : Files} {settings : Settings} {paths : List String}

theorem lint_json_of_clear (clear : ∀ path ∈ paths, ∀ fault, ¬ Breaks files path fault) :
    let outcome := lint files settings paths true .hint
    let issues := paths.flatMap fun path =>
      (text? files path).elim [] fun text => (Linter.ofSettings settings.diagnostics).lintText text path
    (∃ code, outcome.ending = .status code) ∧
      outcome.output = Written.pretty 0 (.list (issues.map issueRecord)) ++ "\n" ∧
      List.Forall₂ (Reports files) (paths.filter fun path => (text? files path).isNone) outcome.reports ∧
      (outcome.ending = .status 1 ↔
        (∃ path ∈ paths, text? files path = none) ∨ ∃ issue ∈ issues, issue.severity = .error) := by
  intro outcome issues
  obtain ⟨reports, checked, reported⟩ := @lintFiles_of_clear _ (.ofSettings settings.diagnostics) .hint _ clear
  have all : paths.flatMap (issuesOf files (.ofSettings settings.diagnostics) .hint) = issues :=
    List.flatMap_congr fun path _ => issuesOf_hint files _ path
  have unread : reports ≠ [] ↔ ∃ path ∈ paths, text? files path = none := by
    rw [← List.length_pos_iff, ← reported.length_eq, List.length_pos_iff]
    simp [List.filter_eq_nil_iff]
  rw [all] at checked
  have same : outcome = _ := lint_of_ok checked
  rw [same]
  refine ⟨⟨_, rfl⟩, rfl, reported, ?_⟩
  rw [← unread, ← status_eq_one_iff]
  exact iff_of_eq (Ending.status.injEq _ _)

theorem lint_json_of_breaks {before after : List String} {path : String} {fault : Fault}
    (split : paths = before ++ path :: after) (clear : ∀ earlier ∈ before, ∀ fault, ¬ Breaks files earlier fault)
    (breaks : Breaks files path fault) :
    let outcome := lint files settings paths true .hint
    outcome.ending = .fault fault ∧ outcome.output = "" ∧
      List.Forall₂ (Reports files) (before.filter fun path => (text? files path).isNone) outcome.reports := by
  intro outcome
  obtain ⟨reports, ends, reported⟩ := lintFiles_of_breaks clear breaks
  rw [← split] at ends
  have same : outcome = _ := lint_of_error ends
  rw [same]
  exact ⟨rfl, rfl, reported⟩

end Json

/-- Checking files in JSON: there is a status exactly when there are settings and no path ends the check. Then all
issues of the files that can be read are printed in order, there is a report for each other path, and the status tells
of those and of errors. A path that ends the check leaves nothing of the issues and only the reports before it, and without
settings nothing is checked. -/
theorem lint_json_iff (read : Raw.Reader) (validator : Settings.Validator) (world : Surroundings)
    {paths operands : List String} (named : Named paths operands) (some : paths ≠ []) :
    let outcome := perform read validator world ("lint" :: "--json" :: operands)
    let prepared := prepare read validator world ⟨none, none, none, .lint paths true (Option.some .hint)⟩
    ((∃ code, outcome.ending = .status code) ↔
      ∃ settings files, prepared = .ok (settings, files) ∧ ∀ path ∈ paths, ∀ fault, ¬ Breaks files path fault) ∧
    (∀ fault, prepared = .error fault →
      outcome.ending = .fault fault ∧ outcome.output = "" ∧ outcome.reports = []) ∧
    ∀ settings files, prepared = .ok (settings, files) →
      let issues := paths.flatMap fun path =>
        (text? files path).elim [] fun text => (Linter.ofSettings settings.diagnostics).lintText text path
      ((∃ code, outcome.ending = .status code) →
        outcome.output = Written.pretty 0 (.list (issues.map issueRecord)) ++ "\n" ∧
        List.Forall₂ (Reports files) (paths.filter fun path => (text? files path).isNone) outcome.reports ∧
        (outcome.ending = .status 1 ↔
          (∃ path ∈ paths, text? files path = none) ∨ ∃ issue ∈ issues, issue.severity = .error)) ∧
      ∀ before path after fault, paths = before ++ path :: after →
        (∀ earlier ∈ before, ∀ fault, ¬ Breaks files earlier fault) → Breaks files path fault →
          outcome.ending = .fault fault ∧ outcome.output = "" ∧
            List.Forall₂ (Reports files) (before.filter fun path => (text? files path).isNone) outcome.reports := by
  intro outcome prepared
  have asks := ofArguments_lint_json named some
  cases ready : prepared with
  | error fault =>
    have same : outcome = .faulty fault := perform_of_fault asks ready
    rw [same]
    refine ⟨iff_of_false (fun ⟨_, status⟩ => nomatch status) (fun ⟨_, _, given, _⟩ => nomatch given), ?_,
      fun settings files given => nomatch given⟩
    rintro other ⟨⟩
    exact ⟨rfl, rfl, rfl⟩
  | ok result =>
    obtain ⟨settings, files⟩ := result
    have same : outcome = lint files settings paths true .hint := perform_eq_lint asks rfl ready
    rw [same]
    by_cases clear : ∀ path ∈ paths, ∀ fault, ¬ Breaks files path fault
    · obtain ⟨status, shows⟩ := @lint_json_of_clear files settings paths clear
      refine ⟨iff_of_true status ⟨settings, files, rfl, clear⟩, (fun _ given => nomatch given), ?_⟩
      rintro _ _ ⟨⟩
      refine ⟨fun _ => shows, fun before path after fault split _ breaks => ?_⟩
      exact absurd breaks (clear path (by simp [split]) fault)
    · obtain ⟨before, path, after, fault, split, earlier, breaks⟩ := exists_first_breaks clear
      have none : ¬ ∃ code, (lint files settings paths true .hint).ending = .status code := by
        rintro ⟨code, status⟩
        rw [(lint_json_of_breaks split earlier breaks).1] at status
        nomatch status
      refine ⟨iff_of_false none ?_, (fun _ given => nomatch given), ?_⟩
      · rintro ⟨_, _, ⟨⟩, all⟩
        exact clear all
      · rintro _ _ ⟨⟩
        exact ⟨fun returns => absurd returns none, fun before path after fault => lint_json_of_breaks⟩

/-- A file that is missing and one with an issue. -/
theorem lint_json_iff_missing :
    let world : Surroundings := ⟨⟨[(Place.ofString "a.art", .file "print foo".toUTF8)]⟩, [], none⟩
    (∀ path ∈ ["b.art", "a.art"], ∀ fault, ¬ Breaks world.files path fault) ∧
      (perform Written.read .lax world ["lint", "--json", "b.art", "a.art"]).ending = .status 1 := by
  intro world
  have named : Named ["b.art", "a.art"] ["b.art", "a.art"] := .plain (by decide)
  have prepared : prepare Written.read .lax world ⟨none, none, none, .lint ["b.art", "a.art"] true (some .hint)⟩ =
      .ok (Settings.default, world.files) := rfl
  have missing : text? world.files "b.art" = none := by decide +kernel
  obtain ⟨returns, -, shows⟩ := lint_json_iff Written.read .lax world named (List.cons_ne_nil _ _)
  have status : ∃ code, (perform Written.read .lax world ["lint", "--json", "b.art", "a.art"]).ending = .status code :=
    ⟨1, by decide +kernel⟩
  obtain ⟨settings, files, ready, clear⟩ := returns.1 status
  obtain ⟨rfl, rfl⟩ := Prod.mk.inj (Except.ok.inj (prepared.symm.trans ready))
  exact ⟨clear, ((shows _ _ prepared).1 status).2.2.2 (.inl ⟨"b.art", List.mem_cons_self, missing⟩)⟩

/-- The issue of the first file is lost where the bytes of the second are no text. -/
theorem lint_json_of_undecodable :
    let world : Surroundings := ⟨⟨[(Place.ofString "a.art", .file "print foo".toUTF8),
      (Place.ofString "b.art", .file ⟨#[0xff]⟩)]⟩, [], none⟩
    let outcome := perform Written.read .lax world ["lint", "--json", "a.art", "b.art"]
    text? world.files "a.art" = some "print foo".toList ∧
      Linter.default.lintText "print foo".toList "a.art" ≠ [] ∧
      (¬ ∃ code, outcome.ending = .status code) ∧ outcome.output = "" := by
  intro world outcome
  have ending : outcome.ending = .fault (.undecodable "b.art") := by decide +kernel
  refine ⟨by decide +kernel, by decide +kernel, ?_, by decide +kernel⟩
  rintro ⟨code, status⟩
  rw [ending] at status
  nomatch status

end ArturoInsight.CommandLine
