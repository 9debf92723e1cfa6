import ArturoInsight.Proofs.Checked
import ArturoInsight.Proofs.Raw

/-! Overrides one after the other. An override counts as a whole or not at all, and a leaf is what the last
one that counts and has something for it says. -/

namespace ArturoInsight

def Raw.at? : Raw → String → Option Raw
  | .map entries, name => get? entries name
  | _, _ => none

namespace Settings

open Checked (findings_bind findings_pure value_pure findings_read value_read)

def Leaf.at? (leaf : Leaf) (raw : Raw) : Option Raw := (raw.at? leaf.owner).bind fun part => part.at? leaf.key

def Leaf.addressed? (leaf : Leaf) (override : Raw) : Option Raw := leaf.at? override.normalise

section Overriding

variable (validator : Validator)

/-- An override that is a map, with a map for each section that it has and a value for each leaf. -/
structure Acceptable (override : Raw) : Prop where
  whole : ∃ entries, override = .map entries
  parts : ∀ leaf : Leaf, ∀ raw ∈ override.normalise.at? leaf.owner, ∃ inner, raw = .map inner
  leaves : ∀ leaf : Leaf, ∀ raw ∈ leaf.addressed? override, ∃ value, validator.read leaf raw = .ok value

/-- Overrides with their sources, one after the other. -/
def applyAll (settings : Settings) (overrides : List (Raw × String)) : Settings :=
  overrides.foldl (fun settings override => (settings.apply validator override.1 override.2).1) settings

end Overriding

section Reading

variable (validator : Validator)

def Reads (leaf : Leaf) (lookup : Option Raw) : Prop := ∀ raw ∈ lookup, ∃ value, validator.read leaf raw = .ok value

section Field

variable (path : List String) (entries : List (Key × Raw)) (leaf : Leaf)

theorem findings_field : (field validator path entries leaf).findings = [] ↔
    Reads validator leaf (Raw.get? entries leaf.key) := by
  unfold Reads
  cases found : Raw.get? entries leaf.key with
  | none => simp [field, found]
  | some raw => simp [field, found, findings_read]

theorem value_field : (field validator path entries leaf).value =
    ((Raw.get? entries leaf.key).bind fun raw => (validator.read leaf raw).toOption).getD (leaf.get default) := by
  cases found : Raw.get? entries leaf.key with
  | none => simp [field, found]
  | some raw => simp [field, found, value_read]

end Field

section Part

/-- The entries of a section, none where it is no map. -/
def inside (entries : List (Key × Raw)) (owner : String) : List (Key × Raw) :=
  match Raw.get? entries owner with
  | some (.map inner) => inner
  | _ => []

theorem at?_map (leaf : Leaf) (entries : List (Key × Raw)) :
    leaf.at? (.map entries) = Raw.get? (inside entries leaf.owner) leaf.key := by
  rw [Leaf.at?, Raw.at?, inside]
  split
  next inner found => rw [found]; rfl
  next other =>
    cases found : Raw.get? entries leaf.owner with
    | none => rfl
    | some raw => cases raw <;> first | rfl | exact absurd found (other _)

variable {α : Type} (entries : List (Key × Raw)) (owner : String) (default : α)
  (read : List String → List (Key × Raw) → Checked α) (still : read [owner] [] = pure default)

include still

theorem part_cases :
    ((∀ raw ∈ Raw.get? entries owner, ∃ inner, raw = .map inner) ∧
      part entries owner default read = read [owner] (inside entries owner)) ∨
    ((¬ ∀ raw ∈ Raw.get? entries owner, ∃ inner, raw = .map inner) ∧ inside entries owner = [] ∧
      part entries owner default read = Checked.flawed [owner] .notRecord default) := by
  cases found : Raw.get? entries owner with
  | none => exact .inl ⟨by simp, by simp [part, inside, found, still]⟩
  | some raw =>
    by_cases whole : ∃ inner, raw = .map inner
    · obtain ⟨inner, rfl⟩ := whole
      exact .inl ⟨by simp, by simp [part, inside, found]⟩
    · refine .inr ⟨by simpa using whole, ?_, ?_⟩ <;> cases raw <;> simp_all [inside, part]

theorem findings_part : (part entries owner default read).findings = [] ↔
    (∀ raw ∈ Raw.get? entries owner, ∃ inner, raw = .map inner) ∧
      (read [owner] (inside entries owner)).findings = [] := by
  obtain ⟨whole, same⟩ | ⟨broken, -, flawed⟩ := part_cases entries owner default read still
  · rw [same]
    exact (and_iff_right whole).symm
  · rw [flawed]
    exact iff_of_false (by simp) fun both => broken both.1

theorem value_part : (part entries owner default read).value = (read [owner] (inside entries owner)).value := by
  obtain ⟨-, same⟩ | ⟨-, nothing, flawed⟩ := part_cases entries owner default read still
  · rw [same]
  · rw [flawed, nothing, still]
    rfl

end Part

variable (entries : List (Key × Raw))

theorem value_ofEntries (leaf : Leaf) : leaf.get (ofEntries validator entries).value =
    ((leaf.at? (.map entries)).bind fun raw => (validator.read leaf raw).toOption).getD (leaf.get default) := by
  have diagnostics := value_part entries "diagnostics" default.diagnostics (readDiagnostics validator) rfl
  have formatting := value_part entries "formatting" default.formatting (readFormatting validator) rfl
  have hints := value_part entries "inlay_hints" default.hints (readHints validator) rfl
  have logging := value_part entries "logging" default.logging (readLogging validator) rfl
  rw [at?_map, ← value_field validator [leaf.owner]]
  cases leaf <;>
    simp only [ofEntries, Checked.value_bind, value_pure, Leaf.get, diagnostics, formatting, hints, logging] <;> rfl

theorem findings_ofEntries : (ofEntries validator entries).findings = [] ↔
    (∀ leaf : Leaf, ∀ raw ∈ Raw.get? entries leaf.owner, ∃ inner, raw = .map inner) ∧
      ∀ leaf : Leaf, Reads validator leaf (leaf.at? (.map entries)) := by
  have diagnostics := findings_part entries "diagnostics" default.diagnostics (readDiagnostics validator) rfl
  have formatting := findings_part entries "formatting" default.formatting (readFormatting validator) rfl
  have hints := findings_part entries "inlay_hints" default.hints (readHints validator) rfl
  have logging := findings_part entries "logging" default.logging (readLogging validator) rfl
  simp only [readDiagnostics, readFormatting, readHints, readLogging, findings_bind, findings_pure, findings_field,
    List.append_eq_nil_iff, and_true] at diagnostics formatting hints logging
  simp only [ofEntries, findings_bind, findings_pure, List.append_eq_nil_iff, and_true, diagnostics, formatting, hints,
    logging, at?_map]
  constructor
  · rintro ⟨⟨_, _, _, _, _, _⟩, ⟨_, _⟩, ⟨_, _, _⟩, _, _, _⟩
    exact ⟨fun leaf => by cases leaf <;> assumption, fun leaf => by cases leaf <;> assumption⟩
  · rintro ⟨parts, leaves⟩
    exact ⟨⟨parts .enabled, leaves .enabled, leaves .undefinedIdentifiers, leaves .typeChecks,
      leaves .bracketBalance, leaves .maxProblems⟩, ⟨parts .indentSize, leaves .indentSize⟩,
      ⟨parts .typeNames, leaves .parameterNames, leaves .typeNames⟩, parts .level, leaves .level, leaves .file⟩

end Reading

section Merging

variable (settings : Settings)

theorem nodup_keys_dump : settings.dump.keys.Nodup := by
  have keys : settings.dump.keys =
      [.text "diagnostics", .text "formatting", .text "inlay_hints", .text "logging"] := rfl
  rw [keys]
  decide

theorem exists_part_dump (leaf : Leaf) : ∃ part : Table Key Raw,
    settings.dump.get? (.text leaf.owner) = some (.map part) ∧ part.keys.Nodup ∧ part.get? (.text leaf.key) = some (leaf.write (leaf.get settings)) := by
  cases leaf <;> refine ⟨_, rfl, ?_, rfl⟩ <;> simp [Table.keys, Leaf.key]

theorem combine_write (leaf : Leaf) (value : leaf.Value) (raw : Raw) :
    Raw.combine (some (leaf.write value)) raw = raw := by
  refine Raw.combine_of_not_map (fun entries same => ?_) raw
  cases leaf with
  | file => cases value <;> simp [Leaf.write] at same
  | _ => simp [Leaf.write] at same

variable {entries : Table Key Raw} (once : entries.keys.Nodup)

include once

theorem get?_merge_dump (leaf : Leaf) : ∃ part : Table Key Raw,
    settings.dump.get? (.text leaf.owner) = some (.map part) ∧
      Raw.get? (Raw.merge settings.dump entries) leaf.owner =
        some ((Raw.get? entries leaf.owner).elim (.map part) (Raw.combine (some (.map part)))) := by
  obtain ⟨part, dumped, -, -⟩ := exists_part_dump settings leaf
  refine ⟨part, dumped, ?_⟩
  rw [Raw.get?_eq_table (Raw.nodup_keys_merge (nodup_keys_dump settings) entries), Raw.get?_merge once, dumped,
    Raw.get?_eq_table once]
  cases entries.get? (.text leaf.owner) <;> rfl

theorem parts_merge_dump (leaf : Leaf) :
    (∀ raw ∈ Raw.get? (Raw.merge settings.dump entries) leaf.owner, ∃ inner, raw = .map inner) ↔
      ∀ raw ∈ Raw.get? entries leaf.owner, ∃ inner, raw = .map inner := by
  obtain ⟨part, -, merged⟩ := get?_merge_dump settings once leaf
  rw [merged]
  cases Raw.get? entries leaf.owner with
  | none => simp
  | some raw => cases raw <;> simp [Raw.combine]

theorem at?_merge_dump (leaf : Leaf) (parts : ∀ raw ∈ Raw.get? entries leaf.owner,
      ∃ inner : Table Key Raw, raw = .map inner ∧ inner.keys.Nodup) :
    leaf.at? (.map (Raw.merge settings.dump entries)) =
      some ((leaf.at? (.map entries)).getD (leaf.write (leaf.get settings))) := by
  obtain ⟨part, dumped, merged⟩ := get?_merge_dump settings once leaf
  obtain ⟨other, dumped', unique, stands⟩ := exists_part_dump settings leaf
  obtain rfl : part = other := Raw.map.inj (Option.some.inj (dumped.symm.trans dumped'))
  rw [Leaf.at?, Leaf.at?, Raw.at?, Raw.at?, merged]
  cases found : Raw.get? entries leaf.owner with
  | none => simpa [Raw.at?, Raw.get?_eq_table unique] using stands
  | some raw =>
    obtain ⟨inner, rfl, single⟩ := parts raw found
    have here : Raw.get? (Raw.merge part inner) leaf.key =
        some ((Raw.get? inner leaf.key).getD (leaf.write (leaf.get settings))) := by
      rw [Raw.get?_eq_table (Raw.nodup_keys_merge unique inner), Raw.get?_merge single, stands,
        Raw.get?_eq_table single]
      cases inner.get? (.text leaf.key) with
      | none => rfl
      | some raw => simp [combine_write]
    simpa [Raw.at?, Raw.combine] using here

end Merging

section Overriding

variable (validator : Validator) (settings : Settings)

theorem apply_of_isFalsy {override : Raw} (silent : override.isFalsy = true) (source : String) :
    settings.apply validator override source = (settings, []) := by
  simp [apply, merged, silent]

theorem apply_of_error {override : Raw} {error : SettingsError}
    (fails : settings.merged validator override = .error error) (source : String) :
    settings.apply validator override source = (settings, [.settingsIgnored source]) := by
  rw [apply, fails]

section Whole

variable {override : Raw} {entries : Table Key Raw} (same : override.normalise = .map entries)

include same

theorem parts_normalised {leaf : Leaf} (parts : ∀ raw ∈ Raw.get? entries leaf.owner, ∃ inner, raw = .map inner) :
    ∀ raw ∈ Raw.get? entries leaf.owner, ∃ inner : Table Key Raw, raw = .map inner ∧ inner.keys.Nodup := by
  intro raw found
  obtain ⟨once, deeper⟩ := Raw.nodup_of_normalise same
  obtain ⟨inner, rfl⟩ := parts raw found
  rw [Raw.get?_eq_table once] at found
  obtain ⟨given, spelt⟩ := deeper _ (Table.mem_of_get? found)
  exact ⟨inner, rfl, (Raw.nodup_of_normalise spelt.symm).1⟩

theorem acceptable_iff :
    Acceptable validator override ↔ (ofEntries validator (Raw.merge settings.dump entries)).findings = [] := by
  obtain ⟨once, -⟩ := Raw.nodup_of_normalise same
  have whole : ∃ given, override = .map given := by cases override <;> simp_all [Raw.normalise]
  have under (name : String) : override.normalise.at? name = Raw.get? entries name := by rw [same]; rfl
  have leaves {leaf : Leaf} (parts : ∀ raw ∈ Raw.get? entries leaf.owner, ∃ inner, raw = .map inner) :
      Reads validator leaf (leaf.at? (.map (Raw.merge settings.dump entries))) ↔
        ∀ raw ∈ leaf.addressed? override, ∃ value, validator.read leaf raw = .ok value := by
    rw [at?_merge_dump settings once leaf (parts_normalised same parts), Leaf.addressed?, same]
    cases leaf.at? (.map entries) with
    | none => simp [Reads, validator.read_write]
    | some raw => simp [Reads]
  simp only [findings_ofEntries, parts_merge_dump settings once]
  constructor
  · rintro ⟨-, parts, reads⟩
    simp only [under] at parts
    exact ⟨parts, fun leaf => (leaves (parts leaf)).2 (reads leaf)⟩
  · rintro ⟨parts, reads⟩
    exact ⟨whole, by simpa only [under] using parts, fun leaf => (leaves (parts leaf)).1 (reads leaf)⟩

theorem value_of_acceptable (acceptable : Acceptable validator override) (leaf : Leaf) :
    leaf.get (ofEntries validator (Raw.merge settings.dump entries)).value =
      ((leaf.addressed? override).bind fun raw => (validator.read leaf raw).toOption).getD (leaf.get settings) := by
  obtain ⟨once, -⟩ := Raw.nodup_of_normalise same
  have parts : ∀ raw ∈ Raw.get? entries leaf.owner, ∃ inner, raw = .map inner := by
    have parts := acceptable.parts leaf
    rwa [same] at parts
  rw [value_ofEntries, at?_merge_dump settings once leaf (parts_normalised same parts), Leaf.addressed?, same]
  cases addressed : leaf.at? (.map entries) with
  | none => simp [validator.read_write, Except.toOption]
  | some raw =>
    have there : leaf.addressed? override = some raw := by rw [Leaf.addressed?, same, addressed]
    obtain ⟨value, reads⟩ := acceptable.leaves leaf raw there
    simp [reads, Except.toOption]

end Whole

theorem merged_cases {override : Raw} (speaks : override.isFalsy = false) :
    (Acceptable validator override ∧ ∃ new, settings.merged validator override = .ok new ∧
      ∀ leaf : Leaf, leaf.get new =
        ((leaf.addressed? override).bind fun raw => (validator.read leaf raw).toOption).getD (leaf.get settings)) ∨
      ¬ Acceptable validator override ∧ ∃ error, settings.merged validator override = .error error := by
  by_cases whole : ∃ given, override = .map given
  · obtain ⟨given, rfl⟩ := whole
    obtain ⟨entries, same⟩ : ∃ entries, (Raw.map given).normalise = .map entries := ⟨_, by rw [Raw.normalise]⟩
    have outcome : settings.merged validator (.map given) =
        ((ofEntries validator (Raw.merge settings.dump entries)).result).mapError .invalid := by
      simp only [merged, speaks, same, Bool.false_eq_true, if_false]
    by_cases sound : (ofEntries validator (Raw.merge settings.dump entries)).findings = []
    · have acceptable := (acceptable_iff validator settings same).2 sound
      rw [Checked.result_of_sound sound] at outcome
      exact .inl ⟨acceptable, _, outcome, value_of_acceptable validator settings same acceptable⟩
    · rw [Checked.result_of_flaws sound] at outcome
      exact .inr ⟨mt (acceptable_iff validator settings same).1 sound, _, outcome⟩
  · refine .inr ⟨fun acceptable => whole acceptable.whole, .notMap override.kindName, ?_⟩
    cases override <;> simp_all [merged, Raw.normalise]

theorem acceptable_of_ok {override : Raw} (speaks : override.isFalsy = false) {new : Settings}
    (taken : settings.merged validator override = .ok new) : Acceptable validator override := by
  obtain ⟨acceptable, -⟩ | ⟨-, error, fails⟩ := merged_cases validator settings speaks
  · exact acceptable
  · rw [fails] at taken
    nomatch taken

theorem addressed?_of_isFalsy (leaf : Leaf) {override : Raw} (silent : override.isFalsy = true) :
    leaf.addressed? override = none := by
  cases override with
  | map entries =>
    obtain rfl : entries = [] := by simpa [Raw.isFalsy] using silent
    rfl
  | _ => rfl

end Overriding

section Runs

variable (validator : Validator)

/-- An override counts for a leaf that it has something for, if it is taken as a whole. -/
def Counts (leaf : Leaf) (override : Raw) (raw : Raw) : Prop :=
  Acceptable validator override ∧ leaf.addressed? override = some raw

variable (settings : Settings) (leaf : Leaf)

theorem get_apply (override : Raw) (source : String) :
    (∃ raw, Counts validator leaf override raw ∧
      validator.read leaf raw = .ok (leaf.get (settings.apply validator override source).1)) ∨
      (¬ ∃ raw, Counts validator leaf override raw) ∧
        leaf.get (settings.apply validator override source).1 = leaf.get settings := by
  cases silent : override.isFalsy with
  | true =>
    right
    rw [apply_of_isFalsy validator settings silent]
    refine ⟨?_, rfl⟩
    rintro ⟨raw, -, addressed⟩
    rw [addressed?_of_isFalsy leaf silent] at addressed
    contradiction
  | false =>
    obtain ⟨acceptable, new, outcome, values⟩ | ⟨flawed, error, outcome⟩ := merged_cases validator settings silent
    · have taken : (settings.apply validator override source).1 = new := by rw [apply, outcome]
      have value := values leaf
      rw [taken]
      cases addressed : leaf.addressed? override with
      | none =>
        right
        rw [addressed] at value
        refine ⟨?_, value⟩
        rintro ⟨raw, -, found⟩
        rw [addressed] at found
        contradiction
      | some raw =>
        left
        obtain ⟨written, read⟩ := acceptable.leaves leaf raw addressed
        refine ⟨raw, ⟨acceptable, addressed⟩, ?_⟩
        rw [value, addressed, read]
        simp [read, Except.toOption]
    · right
      rw [apply_of_error validator settings outcome]
      exact ⟨fun ⟨_, acceptable, _⟩ => flawed acceptable, rfl⟩

theorem get_applyAll (overrides : List (Raw × String)) :
    (∃ before override after raw, overrides = before ++ override :: after ∧
      Counts validator leaf override.1 raw ∧
      validator.read leaf raw = .ok (leaf.get (settings.applyAll validator overrides)) ∧
        ∀ later ∈ after, ¬ ∃ raw, Counts validator leaf later.1 raw) ∨
      (∀ override ∈ overrides, ¬ ∃ raw, Counts validator leaf override.1 raw) ∧
        leaf.get (settings.applyAll validator overrides) = leaf.get settings := by
  induction overrides using List.reverseRecOn with
  | nil => exact .inr ⟨by simp, rfl⟩
  | append_singleton overrides override ih =>
    have last : settings.applyAll validator (overrides ++ [override]) =
        ((settings.applyAll validator overrides).apply validator override.1 override.2).1 := by
      rw [applyAll, List.foldl_append]
      rfl
    rw [last]
    obtain ⟨raw, counts, read⟩ | ⟨silent, same⟩ :=
      get_apply validator (settings.applyAll validator overrides) leaf override.1 override.2
    · exact .inl ⟨overrides, override, [], raw, rfl, counts, read, by simp⟩
    · rw [same]
      obtain ⟨before, decisive, after, raw, rfl, counts, read, later⟩ | ⟨never, kept⟩ := ih
      · refine .inl ⟨before, decisive, after ++ [override], raw, by simp, counts, read, ?_⟩
        exact List.forall_mem_append.2 ⟨later, List.forall_mem_singleton.2 silent⟩
      · exact .inr ⟨List.forall_mem_append.2 ⟨never, List.forall_mem_singleton.2 silent⟩, kept⟩

end Runs

/-- With any reading of leaves that takes a value as data for itself, a falsy override changes nothing, any other is
taken exactly when it is acceptable, and one that is not taken changes nothing; after overrides in a row every leaf has
the value that the last acceptable one with something for it gave, or the value that it had. -/
theorem last_acceptable_decides (validator : Validator) (settings : Settings) (overrides : List (Raw × String)) :
    (∀ override source, override.isFalsy = true → settings.apply validator override source = (settings, [])) ∧
      (∀ override, override.isFalsy = false →
        ((∃ new, settings.merged validator override = .ok new) ↔ Acceptable validator override)) ∧
      (∀ override source error, settings.merged validator override = .error error →
        settings.apply validator override source = (settings, [.settingsIgnored source])) ∧
      ∀ leaf : Leaf,
        (∃ before override after raw, overrides = before ++ override :: after ∧
          Counts validator leaf override.1 raw ∧
          validator.read leaf raw = .ok (leaf.get (settings.applyAll validator overrides)) ∧
            ∀ later ∈ after, ¬ ∃ raw, Counts validator leaf later.1 raw) ∨
          (∀ override ∈ overrides, ¬ ∃ raw, Counts validator leaf override.1 raw) ∧
            leaf.get (settings.applyAll validator overrides) = leaf.get settings := by
  refine ⟨fun override source silent => apply_of_isFalsy validator settings silent source, fun override speaks => ?_,
    fun override source error fails => apply_of_error validator settings fails source,
    fun leaf => get_applyAll validator settings leaf overrides⟩
  constructor
  · rintro ⟨new, taken⟩
    exact acceptable_of_ok validator settings speaks taken
  · intro acceptable
    obtain ⟨-, new, taken, -⟩ | ⟨flawed, -⟩ := merged_cases validator settings speaks
    · exact ⟨new, taken⟩
    · exact absurd acceptable flawed

end Settings

end ArturoInsight
