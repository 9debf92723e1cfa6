import ArturoInsight.Proofs.Files
import ArturoInsight.Proofs.Settings.Overrides
import ArturoInsight.Settings.Lax
import ArturoInsight.Settings.Loading
import ArturoInsight.Written.Reader

/-! Which candidate the settings come from, and when none are loaded at all. The loading ends at a path that nobody can
look for, at a file whose bytes are no text and at one that its reader fails on otherwise, unless a candidate before it
can be used. Whatever else the candidates are, there are settings: the first candidate that can be used overrides the
defaults, and the environment overrides what stands then. -/

namespace ArturoInsight.Settings

section Candidates

variable (read : Raw.Reader) (validator : Validator) (files : Files)

/-- A file can be read and holds a map with these entries; a falsy value counts as an empty map. -/
def Holds (path : String) (entries : List (Key × Raw)) : Prop :=
  ∃ bytes raw, files.read path = .ok bytes ∧ read bytes = .ok raw ∧
    (raw = .map entries ∨ raw.isFalsy = true ∧ entries = [])

def Usable (path : String) : Prop := ∃ entries, Holds read files path entries

/-- A path that nobody can tell of whether it leads to a file, or one to a file that is no text or that its reader
fails on in a way of its own. -/
inductive Ends (path : String) : Prop
  | unseen {error : FileError} (lookup : files.find path = .error error) (hidden : error.isAbsence = false) : Ends path
  | undecodable {bytes : ByteArray} (whole : files.read path = .ok bytes)
      (fails : read bytes = .error .undecodable) : Ends path
  | broken {bytes : ByteArray} (whole : files.read path = .ok bytes) (fails : read bytes = .error .broken) : Ends path

/-- One override on top of settings. An acceptable one gives every leaf that it has something for its value and
leaves the others; any other one is ignored as a whole. -/
structure Overridden (old : Settings) (override : Raw) (new : Settings) : Prop where
  given : Acceptable validator override → ∀ leaf : Leaf, ∀ raw ∈ leaf.addressed? override,
    validator.read leaf raw = .ok (leaf.get new)
  kept : Acceptable validator override → ∀ leaf : Leaf, leaf.addressed? override = none → leaf.get new = leaf.get old
  ignored : ¬ Acceptable validator override → new = old

/-- The settings that a list of candidates gives: the defaults with the first usable one on top. -/
inductive FromCandidates : List String → Settings → Prop
  | first {before after : List String} {path : String} {entries : List (Key × Raw)} {settings : Settings}
      (passed : ∀ earlier ∈ before, ¬ Usable read files earlier) (holds : Holds read files path entries)
      (onto : Overridden validator default (.map entries) settings) :
      FromCandidates (before ++ path :: after) settings
  | none {candidates : List String} (passed : ∀ path ∈ candidates, ¬ Usable read files path) :
      FromCandidates candidates default

/-- The loading ends at no candidate that it comes to. -/
def Clear (candidates : List String) : Prop :=
  ∀ before path after, candidates = before ++ path :: after → (∀ earlier ∈ before, ¬ Usable read files earlier) →
    ¬ Ends read files path

end Candidates

section Overriding

variable {validator : Validator}

theorem eq_of_leaves {settings other : Settings} (same : ∀ leaf : Leaf, leaf.get settings = leaf.get other) :
    settings = other := by
  obtain ⟨⟨_, _, _, _, _⟩, ⟨_⟩, ⟨_, _⟩, _, _⟩ := settings
  obtain ⟨⟨_, _, _, _, _⟩, ⟨_⟩, ⟨_, _⟩, _, _⟩ := other
  obtain rfl := same .enabled
  obtain rfl := same .undefinedIdentifiers
  obtain rfl := same .typeChecks
  obtain rfl := same .bracketBalance
  obtain rfl := same .maxProblems
  obtain rfl := same .indentSize
  obtain rfl := same .parameterNames
  obtain rfl := same .typeNames
  obtain rfl := same .level
  obtain rfl := same .file
  rfl

theorem Overridden.unique {old new other : Settings} {override : Raw} (onto : Overridden validator old override new)
    (again : Overridden validator old override other) : new = other := by
  by_cases acceptable : Acceptable validator override
  · refine eq_of_leaves fun leaf => ?_
    cases addressed : leaf.addressed? override with
    | none => rw [onto.kept acceptable leaf addressed, again.kept acceptable leaf addressed]
    | some raw =>
      have reads := onto.given acceptable leaf raw addressed
      rw [again.given acceptable leaf raw addressed] at reads
      exact (Except.ok.inj reads).symm
  · rw [onto.ignored acceptable, again.ignored acceptable]

theorem overridden_apply (settings : Settings) (override : Raw) (source : String) :
    Overridden validator settings override (settings.apply validator override source).1 := by
  refine ⟨fun acceptable leaf raw addressed => ?_, fun acceptable leaf silent => ?_, fun flawed => ?_⟩
  · have counts : Counts validator leaf override raw := ⟨acceptable, addressed⟩
    obtain ⟨other, ⟨-, same⟩, gives⟩ | ⟨never, -⟩ := get_apply validator settings leaf override source
    · rw [addressed] at same
      rwa [Option.some.inj same]
    · exact absurd ⟨raw, counts⟩ never
  · obtain ⟨raw, ⟨-, addressed⟩, -⟩ | ⟨-, same⟩ := get_apply validator settings leaf override source
    · rw [silent] at addressed
      contradiction
    · exact same
  · cases silent : override.isFalsy with
    | true => rw [apply_of_isFalsy validator settings silent]
    | false =>
      obtain ⟨acceptable, -⟩ | ⟨-, error, fails⟩ := merged_cases validator settings silent
      · exact absurd acceptable flawed
      · rw [apply_of_error validator settings fails]

end Overriding

section Search

variable {read : Raw.Reader} {files : Files} {path : String}

theorem not_usable_of_error {error : FileError} (refused : files.read path = .error error) :
    ¬ Usable read files path := by
  rintro ⟨entries, bytes, raw, whole, -⟩
  rw [refused] at whole
  nomatch whole

theorem not_usable_of_unread {bytes : ByteArray} {unread : Unread} (whole : files.read path = .ok bytes)
    (fails : read bytes = .error unread) : ¬ Usable read files path := by
  rintro ⟨entries, held, raw, again, gives, -⟩
  obtain rfl := Except.ok.inj (whole.symm.trans again)
  rw [fails] at gives
  nomatch gives

theorem Ends.not_usable (ends : Ends read files path) : ¬ Usable read files path := by
  cases ends with
  | unseen lookup => exact not_usable_of_error (Files.read_of_find_error lookup)
  | undecodable whole fails | broken whole fails => exact not_usable_of_unread whole fails

theorem Holds.unique {entries other : List (Key × Raw)} (holds : Holds read files path entries)
    (again : Holds read files path other) : entries = other := by
  obtain ⟨bytes, raw, whole, gives, map⟩ := holds
  obtain ⟨bytes', raw', whole', gives', map'⟩ := again
  obtain rfl := Except.ok.inj (whole.symm.trans whole')
  obtain rfl := Except.ok.inj (gives.symm.trans gives')
  obtain rfl | ⟨falsy, rfl⟩ := map
  · obtain same | ⟨falsy, rfl⟩ := map'
    · exact Raw.map.inj same
    · simpa [Raw.isFalsy] using falsy
  · obtain rfl | ⟨-, rfl⟩ := map'
    · exact (by simpa [Raw.isFalsy] using falsy : other = []).symm
    · rfl

theorem ofFile_of_value {bytes : ByteArray} {raw : Raw} (whole : files.read path = .ok bytes)
    (gives : read bytes = .ok raw) :
    (∃ entries, Holds read files path entries ∧ ofFile read files path = .ok (.ok (.map entries))) ∨
      ¬ Usable read files path ∧ ∃ error, ofFile read files path = .ok (.error error) := by
  have only {entries : List (Key × Raw)} (holds : Holds read files path entries) :
      raw = .map entries ∨ raw.isFalsy = true := by
    obtain ⟨_, other, again, same, map⟩ := holds
    obtain rfl := Except.ok.inj (whole.symm.trans again)
    obtain rfl := Except.ok.inj (gives.symm.trans same)
    exact map.imp_right And.left
  by_cases map : ∃ entries, raw = .map entries
  · obtain ⟨entries, rfl⟩ := map
    refine .inl ⟨entries, ⟨bytes, _, whole, gives, .inl rfl⟩, ?_⟩
    unfold ofFile
    simp only [whole, gives]
  · have outcome : ofFile read files path =
        .ok (if raw.isFalsy then .ok (.map []) else .error (.fileNotMap (Path.ofString path).toString)) := by
      unfold ofFile
      simp only [whole, gives]
      cases raw <;> simp_all
    cases falsy : raw.isFalsy with
    | true =>
      rw [falsy] at outcome
      exact .inl ⟨[], ⟨bytes, raw, whole, gives, .inr ⟨falsy, rfl⟩⟩, outcome⟩
    | false =>
      rw [falsy] at outcome
      refine .inr ⟨?_, _, outcome⟩
      rintro ⟨entries, holds⟩
      obtain same | same := only holds
      · exact map ⟨entries, same⟩
      · rw [falsy] at same
        nomatch same

theorem ofFile_of_found {entry : Entry} (found : files.find path = .ok entry) :
    (Ends read files path ∧ ∃ obstacle, ofFile read files path = .error obstacle) ∨
      (∃ entries, Holds read files path entries ∧ ofFile read files path = .ok (.ok (.map entries))) ∨
      ¬ Ends read files path ∧ ¬ Usable read files path ∧ ∃ error, ofFile read files path = .ok (.error error) := by
  cases outcome : files.read path with
  | error error =>
    have named : error ≠ .unnameable := fun same => Files.read_ne_unnameable found (by rw [outcome, same])
    refine .inr (.inr ⟨?_, not_usable_of_error outcome, .unreadable (Path.ofString path).toString, ?_⟩)
    · rintro (lookup | whole | whole)
      · rw [found] at lookup
        nomatch lookup
      all_goals
        rw [outcome] at whole
        nomatch whole
    · unfold ofFile
      cases error <;> simp_all
  | ok bytes =>
    have open_ (sound : read bytes ≠ .error .undecodable) (firm : read bytes ≠ .error .broken) :
        ¬ Ends read files path := by
      rintro (lookup | ⟨whole, fails⟩ | ⟨whole, fails⟩)
      · rw [found] at lookup
        nomatch lookup
      · obtain rfl := Except.ok.inj (outcome.symm.trans whole)
        exact sound fails
      · obtain rfl := Except.ok.inj (outcome.symm.trans whole)
        exact firm fails
    cases gives : read bytes with
    | ok raw =>
      exact .inr ((ofFile_of_value outcome gives).imp_right fun useless =>
        ⟨open_ (by simp [gives]) (by simp [gives]), useless⟩)
    | error unread =>
      cases unread with
      | undecodable =>
        refine .inl ⟨.undecodable outcome gives, .undecodable (Path.ofString path).toString, ?_⟩
        unfold ofFile
        simp only [outcome, gives]
      | broken =>
        refine .inl ⟨.broken outcome gives, .broken (Path.ofString path).toString, ?_⟩
        unfold ofFile
        simp only [outcome, gives]
      | refused =>
        refine .inr (.inr ⟨open_ (by simp [gives]) (by simp [gives]), not_usable_of_unread outcome gives,
          .unreadable (Path.ofString path).toString, ?_⟩)
        unfold ofFile
        simp only [outcome, gives]

theorem firstFile_of_error {error : FileError} (lookup : files.find path = .error error) (rest : List String) :
    firstFile read files (path :: rest) =
      if error.isAbsence then firstFile read files rest else .error (.unopenable error path) := by
  conv_lhs => unfold firstFile
  simp only [lookup]

variable {entry : Entry} (found : files.find path = .ok entry) (rest : List String)

include found

theorem firstFile_of_obstacle {obstacle : Obstacle} (fails : ofFile read files path = .error obstacle) :
    firstFile read files (path :: rest) = .error obstacle := by
  unfold firstFile
  simp only [found, fails]
  rfl

theorem firstFile_of_map {raw : Raw} (gives : ofFile read files path = .ok (.ok raw)) :
    firstFile read files (path :: rest) = .ok (some (path, raw), []) := by
  unfold firstFile
  simp only [found, gives]
  rfl

theorem firstFile_of_useless {error : SettingsError} (fails : ofFile read files path = .ok (.error error)) :
    firstFile read files (path :: rest) =
      (firstFile read files rest).map fun later => (later.1, .settingsUnreadable path :: later.2) := by
  conv_lhs => unfold firstFile
  simp only [found, fails]
  cases firstFile read files rest <;> rfl

omit found

theorem firstFile_cons (path : String) (rest : List String) :
    (Ends read files path ∧ ∃ obstacle, firstFile read files (path :: rest) = .error obstacle) ∨
      (∃ entries, Holds read files path entries ∧
        firstFile read files (path :: rest) = .ok (some (path, .map entries), [])) ∨
      ¬ Ends read files path ∧ ¬ Usable read files path ∧ ∃ notices, firstFile read files (path :: rest) =
        (firstFile read files rest).map fun later => (later.1, notices ++ later.2) := by
  cases found : files.find path with
  | error error =>
    have outcome := @firstFile_of_error read files path error found rest
    cases absence : error.isAbsence with
    | false =>
      rw [absence] at outcome
      exact .inl ⟨.unseen found absence, _, outcome⟩
    | true =>
      have unread := Files.read_of_find_error found
      rw [absence] at outcome
      refine .inr (.inr ⟨?_, not_usable_of_error unread, [], ?_⟩)
      · rintro (⟨lookup, hidden⟩ | whole | whole)
        · obtain rfl := Except.error.inj (found.symm.trans lookup)
          rw [absence] at hidden
          nomatch hidden
        all_goals
          rw [unread] at whole
          nomatch whole
      · rw [outcome]
        cases firstFile read files rest <;> rfl
  | ok entry =>
    obtain ⟨ends, obstacle, fails⟩ | ⟨entries, holds, gives⟩ | ⟨open_, unusable, error, fails⟩ :=
      @ofFile_of_found read files path entry found
    · exact .inl ⟨ends, obstacle, firstFile_of_obstacle found rest fails⟩
    · exact .inr (.inl ⟨entries, holds, firstFile_of_map found rest gives⟩)
    · exact .inr (.inr ⟨open_, unusable, [.settingsUnreadable path], firstFile_of_useless found rest fails⟩)

end Search

section Runs

variable {read : Raw.Reader} {validator : Validator} {files : Files} {path : String} {rest : List String}

theorem clear_cons : Clear read files (path :: rest) ↔
    ¬ Ends read files path ∧ (¬ Usable read files path → Clear read files rest) := by
  constructor
  · refine fun clear => ⟨clear [] path rest rfl (by simp), fun unusable before later after split passed => ?_⟩
    exact clear (path :: before) later after (by rw [split]; rfl) (List.forall_mem_cons.2 ⟨unusable, passed⟩)
  · rintro ⟨here, more⟩ before later after split passed
    cases before with
    | nil =>
      obtain ⟨rfl, -⟩ := List.cons.inj split
      exact here
    | cons first before =>
      obtain ⟨rfl, deeper⟩ := List.cons.inj split
      obtain ⟨unusable, passed⟩ := List.forall_mem_cons.1 passed
      exact more unusable before later after deeper passed

theorem fromCandidates_cons {settings : Settings} : FromCandidates read validator files (path :: rest) settings ↔
    (∃ entries, Holds read files path entries ∧ Overridden validator default (.map entries) settings) ∨
      ¬ Usable read files path ∧ FromCandidates read validator files rest settings := by
  constructor
  · intro from_
    generalize candidates_ : path :: rest = candidates at from_
    cases from_ with
    | @first before after other entries settings passed holds onto =>
      cases before with
      | nil =>
        obtain ⟨rfl, rfl⟩ := List.cons.inj candidates_
        exact .inl ⟨entries, holds, onto⟩
      | cons earlier before =>
        obtain ⟨rfl, rfl⟩ := List.cons.inj candidates_
        obtain ⟨unusable, passed⟩ := List.forall_mem_cons.1 passed
        exact .inr ⟨unusable, .first passed holds onto⟩
    | none passed =>
      subst candidates_
      obtain ⟨unusable, passed⟩ := List.forall_mem_cons.1 passed
      exact .inr ⟨unusable, .none passed⟩
  · rintro (⟨entries, holds, onto⟩ | ⟨unusable, from_⟩)
    · exact @FromCandidates.first read validator files [] rest path entries settings (by simp) holds onto
    · cases from_ with
      | @first before after other entries settings passed holds onto =>
        have all : ∀ earlier ∈ path :: before, ¬ Usable read files earlier :=
          List.forall_mem_cons.2 ⟨unusable, passed⟩
        exact @FromCandidates.first read validator files (path :: before) after other entries settings all holds onto
      | none passed => exact .none (List.forall_mem_cons.2 ⟨unusable, passed⟩)

theorem FromCandidates.unique {candidates : List String} {settings other : Settings}
    (from_ : FromCandidates read validator files candidates settings)
    (again : FromCandidates read validator files candidates other) : settings = other := by
  induction candidates with
  | nil =>
    have only {settings : Settings} (from_ : FromCandidates read validator files [] settings) : settings = default := by
      generalize nothing : [] = candidates at from_
      cases from_ with
      | first => exact absurd nothing (by simp)
      | none => rfl
    rw [only from_, only again]
  | cons path rest ih =>
    rw [fromCandidates_cons] at from_ again
    obtain ⟨entries, holds, onto⟩ | ⟨unusable, from_⟩ := from_
    · obtain ⟨others, holds', onto'⟩ | ⟨unusable, -⟩ := again
      · obtain rfl := holds.unique holds'
        exact onto.unique onto'
      · exact absurd ⟨entries, holds⟩ unusable
    · obtain ⟨entries, holds, -⟩ | ⟨-, again⟩ := again
      · exact absurd ⟨entries, holds⟩ unusable
      · exact ih from_ again

theorem firstFile_eq_ok_iff (candidates : List String) :
    (∃ found, firstFile read files candidates = .ok found) ↔ Clear read files candidates := by
  induction candidates with
  | nil => exact iff_of_true ⟨_, rfl⟩ fun before path after split => absurd split (by simp)
  | cons path rest ih =>
    rw [clear_cons]
    obtain ⟨ends, obstacle, fails⟩ | ⟨entries, holds, gives⟩ | ⟨open_, unusable, notices, passes⟩ :=
      @firstFile_cons read files path rest
    · refine iff_of_false ?_ fun clear => clear.1 ends
      rintro ⟨found, gives⟩
      rw [fails] at gives
      nomatch gives
    · have usable : Usable read files path := ⟨entries, holds⟩
      exact iff_of_true ⟨_, gives⟩ ⟨fun ends => ends.not_usable usable, fun unusable => absurd usable unusable⟩
    · rw [passes, and_iff_right open_, imp_iff_right unusable, ← ih]
      cases firstFile read files rest <;> simp [Except.map]

def onDefaults (validator : Validator) (found : Option (String × Raw)) : Settings :=
  found.elim default fun file => (default.apply validator file.2 file.1).1

theorem fromCandidates_of_firstFile {candidates : List String} {found : Option (String × Raw)}
    {notices : List Notice} (gives : firstFile read files candidates = .ok (found, notices)) :
    FromCandidates read validator files candidates (onDefaults validator found) := by
  induction candidates generalizing notices with
  | nil =>
    obtain ⟨rfl, -⟩ := Prod.mk.inj (Except.ok.inj gives)
    exact .none (by simp)
  | cons path rest ih =>
    rw [fromCandidates_cons]
    obtain ⟨ends, obstacle, fails⟩ | ⟨entries, holds, first⟩ | ⟨open_, unusable, more, passes⟩ :=
      @firstFile_cons read files path rest
    · rw [fails] at gives
      nomatch gives
    · rw [first] at gives
      obtain ⟨rfl, -⟩ := Prod.mk.inj (Except.ok.inj gives)
      exact .inl ⟨entries, holds, overridden_apply default (.map entries) path⟩
    · rw [passes] at gives
      cases later : firstFile read files rest with
      | error obstacle =>
        rw [later] at gives
        nomatch gives
      | ok result =>
        rw [later] at gives
        obtain ⟨rfl, -⟩ := Prod.mk.inj (Except.ok.inj gives)
        exact .inr ⟨unusable, ih later⟩

end Runs

section Loading

variable {read : Raw.Reader} {validator : Validator} {files : Files} {home named : Option String} {search : List String}
  {environment : List (String × String)}

theorem load_of_error {obstacle : Obstacle}
    (fails : firstFile read files (candidates home named search) = .error obstacle) :
    load read validator files home named search environment = .error obstacle := by
  unfold load
  rw [fails]
  rfl

theorem load_of_ok {found : Option (String × Raw)} {notices : List Notice}
    (gives : firstFile read files (candidates home named search) = .ok (found, notices)) :
    ∃ notices, load read validator files home named search environment =
      .ok (((onDefaults validator found).apply validator (ofEnvironment environment) "environment").1, notices) := by
  unfold load
  rw [gives]
  cases found <;> exact ⟨_, rfl⟩

end Loading

/-- The settings that are loaded: there are some exactly when no candidate before the first usable one ends the
loading, and they are the defaults with the first usable candidate and then the environment on top. -/
theorem load_eq_ok_iff (read : Raw.Reader) (validator : Validator) (files : Files) (home named : Option String)
    (search : List String) (environment : List (String × String)) :
    let paths := candidates home named search
    ((∃ loaded, load read validator files home named search environment = .ok loaded) ↔ Clear read files paths) ∧
      ∀ settings,
        (∃ notices, load read validator files home named search environment = .ok (settings, notices)) ↔
          Clear read files paths ∧ ∃ base, FromCandidates read validator files paths base ∧
            Overridden validator base (ofEnvironment environment) settings := by
  intro paths
  cases outcome : firstFile read files paths with
  | error obstacle =>
    have ends : ¬ Clear read files paths := fun clear => by
      obtain ⟨found, gives⟩ := (firstFile_eq_ok_iff paths).2 clear
      rw [outcome] at gives
      nomatch gives
    rw [load_of_error outcome]
    refine ⟨iff_of_false ?_ ends, fun settings => iff_of_false ?_ fun both => ends both.1⟩
    · rintro ⟨loaded, gives⟩
      nomatch gives
    · rintro ⟨notices, gives⟩
      nomatch gives
  | ok result =>
    obtain ⟨found, _⟩ := result
    have clear : Clear read files paths := (firstFile_eq_ok_iff paths).1 ⟨_, outcome⟩
    have base : FromCandidates read validator files paths (onDefaults validator found) :=
      fromCandidates_of_firstFile outcome
    have onto := @overridden_apply validator (onDefaults validator found) (ofEnvironment environment) "environment"
    obtain ⟨notices, loads⟩ :=
      @load_of_ok read validator files home named search environment _ _ outcome
    rw [loads]
    refine ⟨iff_of_true ⟨_, rfl⟩ clear, fun settings => ⟨?_, ?_⟩⟩
    · rintro ⟨_, same⟩
      obtain ⟨rfl, -⟩ := Prod.mk.inj (Except.ok.inj same)
      exact ⟨clear, _, base, onto⟩
    · rintro ⟨-, other, from_, again⟩
      obtain rfl := base.unique from_
      exact ⟨notices, by rw [onto.unique again]⟩

/-- Bytes that are no text end the loading, although the next candidate can be used. -/
theorem load_of_undecodable :
    let files : Files := ⟨[(Place.ofString "a.yaml", .file ⟨#[0xff]⟩),
      (Place.ofString "b.yaml", .file "formatting:\n  indentSize: 2\n".toUTF8)]⟩
    Usable Written.read files "b.yaml" ∧
      ¬ ∃ loaded, load Written.read .lax files none none ["a.yaml", "b.yaml"] [] = .ok loaded := by
  intro files
  constructor
  · have whole : files.read "b.yaml" = .ok "formatting:\n  indentSize: 2\n".toUTF8 := rfl
    have map : ((Written.read "formatting:\n  indentSize: 2\n".toUTF8).toOption.bind (·.at? "formatting")).isSome =
        true := by
      decide +kernel
    cases held : Written.read "formatting:\n  indentSize: 2\n".toUTF8 with
    | error unread =>
      rw [held] at map
      nomatch map
    | ok raw =>
      rw [held] at map
      cases raw with
      | map entries => exact ⟨entries, _, _, whole, held, .inl rfl⟩
      | _ => nomatch map
  · rintro ⟨loaded, gives⟩
    have nothing : (load Written.read .lax files none none ["a.yaml", "b.yaml"] []).toOption = none := by
      decide +kernel
    rw [gives] at nothing
    nomatch nothing

end ArturoInsight.Settings
