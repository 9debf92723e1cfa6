import ArturoInsight.Proofs.Lint.Undefined
import ArturoInsight.Proofs.Text.Lines
import ArturoInsight.Proofs.Text.Readers
import Mathlib.Data.List.Nodup
import Mathlib.Data.List.Perm.Basic
import Mathlib.Data.List.Sort
import Mathlib.Data.Prod.Lex

/-! The order of issues. No two issues of the default rules have both one place and one gravity, so the order of
the rules does not count, a rule that fails changes nothing, and switching a rule off leaves out its issues alone. -/

namespace ArturoInsight

open Text Lexical

/-- What issues are put in order by: line, column and gravity. -/
def Issue.place (issue : Issue) : Nat ×ₗ Nat ×ₗ Nat := toLex (issue.line, toLex (issue.column, issue.severity.rank))

/-- Whether the settings ask for the issues with a code. -/
def DiagnosticsSettings.asksFor (settings : DiagnosticsSettings) (code : String) : Bool :=
  settings.enabled && (code == "E002" && settings.bracketBalance ||
    code == "W001" && settings.undefinedIdentifiers || code == "E001" && settings.typeChecks)

namespace Issue

variable {left right : Issue}

theorem place_lt_iff : left.place < right.place ↔ left.line < right.line ∨ left.line = right.line ∧
    (left.column < right.column ∨ left.column = right.column ∧ left.severity.rank < right.severity.rank) := by
  simp only [place, Prod.Lex.toLex_lt_toLex]

theorem before_iff : left.before right = true ↔ left.place ≤ right.place := by
  simp only [before, place, Prod.Lex.toLex_le_toLex, Bool.or_eq_true, Bool.and_eq_true, decide_eq_true_eq, beq_iff_eq]

theorem pairwise_mergeSort (issues : List Issue) :
    (issues.mergeSort before).Pairwise fun left right => left.place ≤ right.place := by
  refine (List.pairwise_mergeSort (fun left middle right first second => ?_) (fun left right => ?_) issues).imp
    before_iff.1
  · exact before_iff.2 ((before_iff.1 first).trans (before_iff.1 second))
  · simpa only [Bool.or_eq_true, before_iff] using le_total left.place right.place

section Apart

variable {first second : List Issue} (apart : (first.map place).Nodup)

include apart

theorem eq_of_perm (perm : first.Perm second) (left : first.Pairwise fun left right => left.place ≤ right.place)
    (right : second.Pairwise fun left right => left.place ≤ right.place) : first = second := by
  refine perm.eq_of_pairwise (fun issue other here there above below => ?_) left right
  exact List.inj_on_of_nodup_map apart here (perm.mem_iff.2 there) (le_antisymm above below)

theorem mergeSort_eq_of_perm (perm : first.Perm second) : first.mergeSort before = second.mergeSort before := by
  have sorted := List.mergeSort_perm first before
  refine eq_of_perm ((sorted.map place).nodup_iff.2 apart) ?_ (pairwise_mergeSort first) (pairwise_mergeSort second)
  exact sorted.trans (perm.trans (List.mergeSort_perm second before).symm)

theorem filter_mergeSort (keeps : Issue → Bool) :
    (first.mergeSort before).filter keeps = (first.filter keeps).mergeSort before := by
  have perm := (List.mergeSort_perm first before).filter keeps
  refine eq_of_perm ?_ (perm.trans (List.mergeSort_perm _ before).symm) ((pairwise_mergeSort first).filter keeps)
    (pairwise_mergeSort _)
  exact (perm.map place).nodup_iff.2 (apart.sublist (List.filter_sublist.map place))

end Apart

end Issue

theorem Rule.pairwise_byLine {code : String} {severity : Severity} {find : Source → Nat → Scan → List Issue}
    {source : Source} (lines : ∀ line scan, ∀ issue ∈ find source line scan, issue.line = line)
    (ordered : ∀ line scan, (find source line scan).Pairwise fun left right => left.place < right.place) :
    (((Rule.byLine code severity find).check source).getD []).Pairwise fun left right => left.place < right.place := by
  refine List.pairwise_flatMap.2 ⟨fun (scan, line) _ => ?_, ?_⟩
  · dsimp only
    split_ifs
    · exact .nil
    · exact ordered line scan
  · refine (pairwise_zipIdx source.scans).imp fun {first second} earlier issue here other there => ?_
    have inside {entry : Scan × Nat} {issue : Issue}
        (member : issue ∈ if Source.skips entry.1 then [] else find source entry.2 entry.1) :
        issue.line = entry.2 := by
      split_ifs at member
      · contradiction
      · exact lines _ _ _ member
    rw [Issue.place_lt_iff, inside here, inside there]
    exact .inl earlier

theorem Rule.filter_byLine {code : String} {severity : Severity} {find : Source → Nat → Scan → List Issue}
    {source : Source} {line : Nat} {scan : Scan}
    (lines : ∀ line scan, ∀ issue ∈ find source line scan, issue.line = line)
    (held : source.scans[line]? = some scan) (read : Source.skips scan = false) :
    (((Rule.byLine code severity find).check source).getD []).filter (·.line == line) = find source line scan := by
  obtain ⟨inside, same⟩ := List.getElem?_eq_some_iff.1 held
  have whole : source.scans = source.scans.take line ++ scan :: source.scans.drop (line + 1) := by
    rw [← same, ← List.drop_eq_getElem_cons, List.take_append_drop]
  have others (entry : Scan × Nat) (other : entry.2 ≠ line) :
      (if Source.skips entry.1 then [] else find source entry.2 entry.1).filter (·.line == line) = [] := by
    refine List.filter_eq_nil_iff.2 fun issue member => ?_
    split_ifs at member
    · contradiction
    · rw [lines _ _ issue member]
      simpa using other
  have own : (find source line scan).filter (·.line == line) = find source line scan :=
    List.filter_eq_self.2 fun issue member => by simp [lines _ _ issue member]
  have early : (source.scans.take line).length = line := by simpa using Nat.le_of_lt inside
  rw [Rule.byLine, Option.getD_some, whole, List.zipIdx_append, List.zipIdx_cons, List.flatMap_append,
    List.flatMap_cons, List.filter_append, List.filter_append, List.filter_flatMap, List.filter_flatMap, early,
    Nat.zero_add]
  have front : ((source.scans.take line).zipIdx.flatMap fun entry =>
      (if Source.skips entry.1 then [] else find source entry.2 entry.1).filter (·.line == line)) = [] := by
    refine List.flatMap_eq_nil_iff.2 fun entry member => others entry ?_
    have earlier := List.snd_lt_of_mem_zipIdx member
    omega
  have back : (((source.scans.drop (line + 1)).zipIdx (line + 1)).flatMap fun entry =>
      (if Source.skips entry.1 then [] else find source entry.2 entry.1).filter (·.line == line)) = [] := by
    refine List.flatMap_eq_nil_iff.2 fun entry member => others entry ?_
    have later := List.le_snd_of_mem_zipIdx member
    omega
  rw [front, back]
  simp [read, own]

theorem Brackets.place_of_mem {source : Source} {issue : Issue} (member : issue ∈ Brackets.check source) :
    issue.severity = .error ∧ issue.column = 0 := by
  unfold check at member
  cases last : source.scans.getLast? with
  | none => simp [last] at member
  | some scan =>
    simp only [last] at member
    split_ifs at member
    · contradiction
    · rw [List.mem_singleton.1 member]
      exact ⟨rfl, rfl⟩

theorem Brackets.pairwise_check (source : Source) :
    (Brackets.check source).Pairwise fun left right => left.place < right.place := by
  unfold check
  split
  · exact .nil
  · split_ifs
    · exact .nil
    · exact List.pairwise_singleton ..

namespace Undefined

theorem place_of_mem {source : Source} {line : Nat} {scan : Scan} {issue : Issue}
    (member : issue ∈ ofLine source line scan) : issue.severity = .warning ∧ issue.line = line := by
  obtain ⟨found, -, -, -, rfl⟩ := mem_ofLine.1 member
  exact ⟨rfl, rfl⟩

theorem pairwise_ofLine (source : Source) (line : Nat) (scan : Scan) :
    (ofLine source line scan).Pairwise fun left right => left.place < right.place := by
  have starts : (finds use scan.uncommented).Pairwise fun left right => left.start < right.start :=
    (pairwise_findsFrom 0 0 none scan.uncommented).1
  refine List.pairwise_map.2 ((starts.filter _).imp fun {left right} earlier => ?_)
  exact Issue.place_lt_iff.2 (.inr ⟨rfl, .inl earlier⟩)

end Undefined

namespace Operands

theorem pos_of_ofLine? {scan : Scan} {operation : Operation} (found : ofLine? scan = some operation) :
    0 < operation.column := by
  obtain ⟨front, back, -, accepted⟩ := exists_of_firstPlaceFrom found
  obtain ⟨named, -, accepted⟩ := Option.bind_eq_some_iff.1 accepted
  obtain ⟨value, -, accepted⟩ := Option.bind_eq_some_iff.1 accepted
  obtain ⟨sides, -, accepted⟩ := Option.bind_eq_some_iff.1 accepted
  obtain ⟨-, accepted⟩ := Option.ite_none_right_eq_some.1 accepted
  rw [← Option.some.inj accepted]
  dsimp only
  omega

variable {source : Source} {line : Nat} {scan : Scan}

theorem ofLine_cases (source : Source) (line : Nat) (scan : Scan) : ofLine source line scan = [] ∨
    ∃ operation message, ofLine? scan = some operation ∧ ofLine source line scan =
      [source.issue .error "E001" message line scan operation.column scan.text.length] := by
  unfold ofLine
  cases found : ofLine? scan with
  | none => exact .inl rfl
  | some operation =>
    dsimp only
    split
    · split_ifs
      · exact .inl rfl
      · exact .inr ⟨operation, _, rfl, rfl⟩
    · exact .inl rfl

theorem place_of_mem {issue : Issue} (member : issue ∈ ofLine source line scan) :
    issue.severity = .error ∧ issue.line = line ∧ 0 < issue.column := by
  obtain none | ⟨operation, message, found, one⟩ := ofLine_cases source line scan
  · rw [none] at member
    contradiction
  · rw [one, List.mem_singleton] at member
    rw [member]
    exact ⟨rfl, rfl, pos_of_ofLine? found⟩

theorem pairwise_ofLine (source : Source) (line : Nat) (scan : Scan) :
    (ofLine source line scan).Pairwise fun left right => left.place < right.place := by
  obtain none | ⟨operation, message, -, one⟩ := ofLine_cases source line scan
  · rw [none]
    exact .nil
  · rw [one]
    exact List.pairwise_singleton ..

end Operands

namespace Linter

def raised (rules : List Rule) (source : Source) : List Issue :=
  rules.flatMap fun rule => (rule.check source).getD []

theorem found_eq (rules : List Rule) (source : Source) :
    found rules source = (raised rules source).mergeSort Issue.before := rfl

theorem code_of_mem {rule : Rule} (listed : rule ∈ defaultRules) {source : Source} {issue : Issue}
    (member : issue ∈ (rule.check source).getD []) : issue.code = rule.code := by
  simp only [defaultRules, List.mem_cons, List.not_mem_nil, or_false] at listed
  obtain rfl | rfl | rfl := listed
  · exact Brackets.code_of_mem member
  · obtain ⟨line, scan, -, -, member⟩ := Rule.mem_byLine.1 member
    obtain ⟨found, -, -, -, rfl⟩ := Undefined.mem_ofLine.1 member
    rfl
  · obtain ⟨line, scan, -, -, member⟩ := Rule.mem_byLine.1 member
    exact Operands.code_of_mem member

theorem mem_check_iff {rule : Rule} (listed : rule ∈ defaultRules) {source : Source} {issue : Issue} :
    issue ∈ (rule.check source).getD [] ↔ issue ∈ found defaultRules source ∧ issue.code = rule.code := by
  rw [mem_found]
  constructor
  · intro member
    exact ⟨⟨rule, listed, member⟩, code_of_mem listed member⟩
  · intro both
    obtain ⟨⟨other, there, member⟩, code⟩ := both
    have codes : (defaultRules.map Rule.code).Nodup := by decide
    have same : other = rule := List.inj_on_of_nodup_map codes there listed ((code_of_mem there member).symm.trans code)
    rwa [same] at member

theorem undefined_listed : Undefined.rule ∈ defaultRules := by simp [defaultRules]

theorem operands_listed : Operands.rule ∈ defaultRules := by simp [defaultRules]

theorem mem_found_undefined {source : Source} {issue : Issue} :
    issue ∈ found defaultRules source ∧ issue.code = "W001" ↔ ∃ line scan, source.scans[line]? = some scan ∧
      Source.skips scan = false ∧ issue ∈ Undefined.ofLine source line scan :=
  (mem_check_iff undefined_listed).symm.trans Rule.mem_byLine

theorem mem_found_operands {source : Source} {issue : Issue} :
    issue ∈ found defaultRules source ∧ issue.code = "E001" ↔ ∃ line scan, source.scans[line]? = some scan ∧
      Source.skips scan = false ∧ issue ∈ Operands.ofLine source line scan :=
  (mem_check_iff operands_listed).symm.trans Rule.mem_byLine

theorem nodup_place_raised (source : Source) : ((raised defaultRules source).map Issue.place).Nodup := by
  have words : ((Undefined.rule.check source).getD []).Pairwise fun left right => left.place < right.place :=
    Rule.pairwise_byLine (fun _ _ _ member => (Undefined.place_of_mem member).2) (Undefined.pairwise_ofLine source)
  have operators : ((Operands.rule.check source).getD []).Pairwise fun left right => left.place < right.place :=
    Rule.pairwise_byLine (fun _ _ _ member => (Operands.place_of_mem member).2.1) (Operands.pairwise_ofLine source)
  have warns : ∀ issue ∈ (Undefined.rule.check source).getD [], issue.severity = .warning := by
    intro issue member
    obtain ⟨line, scan, -, -, member⟩ := Rule.mem_byLine.1 member
    exact (Undefined.place_of_mem member).1
  have fails : ∀ issue ∈ (Operands.rule.check source).getD [], issue.severity = .error ∧ 0 < issue.column := by
    intro issue member
    obtain ⟨line, scan, -, -, member⟩ := Rule.mem_byLine.1 member
    exact ⟨(Operands.place_of_mem member).1, (Operands.place_of_mem member).2.2⟩
  have same {left right : Issue} (placed : left.place = right.place) :
      left.column = right.column ∧ left.severity.rank = right.severity.rank := by
    simpa using (Prod.mk.inj (toLex.injective placed)).2
  rw [raised, defaultRules, List.flatMap_cons, List.flatMap_cons, List.flatMap_singleton]
  refine List.pairwise_map.2 (List.pairwise_append.2 ⟨(Brackets.pairwise_check source).imp fun less => less.ne,
    List.pairwise_append.2 ⟨words.imp fun less => less.ne, operators.imp fun less => less.ne, ?_⟩, ?_⟩)
  · intro word used operator here placed
    have rank := (same placed).2
    rw [warns word used, (fails operator here).1] at rank
    contradiction
  · intro bracket there issue member placed
    obtain ⟨error, start⟩ := Brackets.place_of_mem there
    obtain ⟨column, rank⟩ := same placed
    obtain used | here := List.mem_append.1 member
    · rw [error, warns issue used] at rank
      contradiction
    · have later := (fails issue here).2
      omega

theorem pairwise_place_found (source : Source) :
    (found defaultRules source).Pairwise fun left right => left.place < right.place := by
  have once := ((List.mergeSort_perm (raised defaultRules source) Issue.before).map Issue.place).nodup_iff.2
    (nodup_place_raised source)
  exact (Issue.pairwise_mergeSort _).imp₂ (fun _ _ => lt_of_le_of_ne) (List.pairwise_map.1 once)

theorem limited_natCast (limit : Nat) (issues : List Issue) : limited limit issues = issues.take limit := by
  rw [limited, if_neg (by omega), Int.toNat_natCast]

theorem rules_ofSettings (settings : DiagnosticsSettings) :
    (ofSettings settings).rules = defaultRules.filter fun rule => settings.asksFor rule.code := by
  obtain ⟨enabled, words, types, brackets, limit⟩ := settings
  cases enabled <;> cases words <;> cases types <;> cases brackets <;> rfl

theorem raised_filter (asks : String → Bool) {rules : List Rule} {source : Source}
    (coded : ∀ rule ∈ rules, ∀ issue ∈ (rule.check source).getD [], issue.code = rule.code) :
    raised (rules.filter fun rule => asks rule.code) source =
      (raised rules source).filter fun issue => asks issue.code := by
  induction rules with
  | nil => rfl
  | cons rule rules ih =>
    obtain ⟨first, later⟩ := List.forall_mem_cons.1 coded
    have own : ((rule.check source).getD []).filter (fun issue => asks issue.code) =
        if asks rule.code then (rule.check source).getD [] else [] := by
      split_ifs with asked
      · exact List.filter_eq_self.2 fun issue member => by rw [first issue member, asked]
      · exact List.filter_eq_nil_iff.2 fun issue member => by rwa [first issue member]
    have rest := ih later
    rw [raised, raised] at rest
    rw [raised, raised, List.flatMap_cons, List.filter_append, own, List.filter_cons, ← rest]
    split_ifs <;> rfl

theorem found_ofSettings (settings : DiagnosticsSettings) (source : Source) : found (ofSettings settings).rules source =
    (found defaultRules source).filter fun issue => settings.asksFor issue.code := by
  rw [found_eq, found_eq, Issue.filter_mergeSort (nodup_place_raised source), rules_ofSettings,
    raised_filter settings.asksFor fun rule listed issue => code_of_mem listed]

theorem found_of_perm {rules failing : List Rule} (perm : rules.Perm (defaultRules ++ failing)) {source : Source}
    (fails : ∀ rule ∈ failing, rule.check source = none) : found rules source = found defaultRules source := by
  have nothing : raised failing source = [] :=
    List.flatMap_eq_nil_iff.2 fun rule listed => by rw [fails rule listed, Option.getD_none]
  have same : (raised rules source).Perm (raised defaultRules source) := by
    have whole := perm.flatMap_right fun rule => (rule.check source).getD []
    rwa [List.flatMap_append, ← raised, ← raised, ← raised, nothing, List.append_nil] at whole
  exact (Issue.mergeSort_eq_of_perm (nodup_place_raised source) same.symm).symm

/-- Switches leave out issues and limits cut them off; neither the order of the rules nor a rule that fails counts,
for all that is found comes in strict order. -/
theorem rules_independent (text : List Char) (file : String) :
    let all := found defaultRules (.ofScans (scanText text) file Catalog.shipped)
    (∀ settings : DiagnosticsSettings, (ofSettings settings).lintText text file =
      (all.filter fun issue => settings.asksFor issue.code).take settings.maxProblems) ∧
    (∀ rules failing : List Rule, rules.Perm (defaultRules ++ failing) →
      (∀ rule ∈ failing, ∀ source, rule.check source = none) → ∀ limit : Int,
        (Linter.mk rules limit).lintText text file = (Linter.mk defaultRules limit).lintText text file) ∧
    all.Pairwise fun left right => left.place < right.place := by
  refine ⟨fun settings => ?_, fun rules failing perm fails limit => ?_, pairwise_place_found _⟩
  · rw [lintText, issues, found_ofSettings]
    exact limited_natCast _ _
  · rw [lintText, lintText, issues, issues, found_of_perm perm fun rule listed => fails rule listed _]

/-- A rule that fails on every document. -/
def broken : Rule := ⟨"X999", .info, fun _ => none⟩

theorem rules_independent_reversed :
    [broken, Operands.rule, Undefined.rule, Brackets.rule].Perm (defaultRules ++ [broken]) ∧
      (∀ rule ∈ [broken], ∀ source, rule.check source = none) ∧
      (Linter.mk [broken, Operands.rule, Undefined.rule, Brackets.rule] 2).lintText "x: 1 + \"a\"\ny [".toList
          "main.art" =
        (Linter.mk defaultRules 2).lintText "x: 1 + \"a\"\ny [".toList "main.art" := by
  have perm : [broken, Operands.rule, Undefined.rule, Brackets.rule].Perm (defaultRules ++ [broken]) :=
    List.reverse_perm (defaultRules ++ [broken])
  have fails : ∀ rule ∈ [broken], ∀ source, rule.check source = none := by
    intro rule listed source
    rw [List.mem_singleton.1 listed]
    rfl
  exact ⟨perm, fails, (rules_independent _ _).2.1 _ [broken] perm fails 2⟩

end Linter

end ArturoInsight
