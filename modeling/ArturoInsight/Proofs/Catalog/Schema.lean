import ArturoInsight.Catalog.Loading
import ArturoInsight.Proofs.Checked
import ArturoInsight.Proofs.Files
import ArturoInsight.Proofs.Table
import ArturoInsight.Raw.Lax
import ArturoInsight.Written.Reader

/-! What a catalog file has to hold, and what loading it comes to. A file that conforms gives a catalog, and any other
one an error of the catalog, unless the part for functions or one entry of it is no map: the reading takes for granted
that they are, before anything is checked. -/

namespace ArturoInsight

/-- The errors that a load reports as those of its catalog. The others come from what it calls. -/
def CatalogError.isReported : CatalogError → Bool
  | missing _ | notMap _ | unreadable | invalid _ => true
  | undecodable | broken | unopenable _ | functionsNotMap | functionNotMap => false

namespace Catalog

section Schema

variable (validator : TextValidator)

def IsText (raw : Raw) : Prop := ∃ text, validator.read raw = .ok text

def IsNames (raw : Raw) : Prop := ∃ items, items? raw = some items ∧ ∀ item ∈ items, IsText validator item

def IsTypes (raw : Raw) : Prop :=
  ∃ entries, raw = .map entries ∧ ∀ entry ∈ entries, IsText validator entry.1.raw ∧ IsText validator entry.2

structure ParameterFields (fields : List (Key × Raw)) : Prop where
  name : ∃ raw ∈ Raw.get? fields "name", IsText validator raw
  type : ∀ raw ∈ Raw.get? fields "type", IsText validator raw

def IsParameter (raw : Raw) : Prop := ∃ fields, raw = .map fields ∧ ParameterFields validator fields

def IsParameters (raw : Raw) : Prop := ∃ items, items? raw = some items ∧ ∀ item ∈ items, IsParameter validator item

/-- The fields of a function, whose name is the key that they stand under unless they have another one. -/
structure SignatureFields (name : Key) (fields : List (Key × Raw)) : Prop where
  name : IsText validator ((Raw.get? fields "name").getD name.raw)
  usage : ∃ raw ∈ Raw.get? fields "signature", IsText validator raw
  description : ∀ raw ∈ Raw.get? fields "description", IsText validator raw
  params : ∀ raw ∈ Raw.get? fields "params", IsParameters validator raw
  returns : ∀ raw ∈ Raw.get? fields "returns", IsText validator raw

def IsSignature (name : Key) (raw : Raw) : Prop := ∃ fields, raw = .map fields ∧ SignatureFields validator name fields

def IsFunctions (raw : Raw) : Prop := ∃ functions, raw = .map functions ∧
  ∀ entry ∈ functions, IsText validator entry.1.raw ∧ IsSignature validator entry.1 entry.2

def nameKeys : List String := ["builtin_names", "attributes", "colors", "units"]

/-- Parts of a catalog. Those that are falsy may be of any kind. -/
structure Parts (entries : List (Key × Raw)) : Prop where
  types : ∀ raw ∈ part? entries "types", IsTypes validator raw
  names : ∀ key ∈ nameKeys, ∀ raw ∈ part? entries key, IsNames validator raw
  functions : ∀ raw ∈ part? entries "functions", IsFunctions validator raw

def Conforms (raw : Raw) : Prop := ∃ entries, raw = .map entries ∧ Parts validator entries

def IsStray (raw : Raw) : Prop := raw.isFalsy = false ∧ ∀ fields, raw ≠ .map fields

inductive Strays : Raw → CatalogError → Prop
  | functions {entries : List (Key × Raw)} {raw : Raw} (given : part? entries "functions" = some raw)
      (stray : IsStray raw) : Strays (.map entries) .functionsNotMap
  | function {entries functions : List (Key × Raw)} {entry : Key × Raw}
      (given : part? entries "functions" = some (.map functions)) (member : entry ∈ functions)
      (stray : IsStray entry.2) : Strays (.map entries) .functionNotMap

/-- The functions that a file describes, by their keys. -/
def functionKeys : Raw → List Key
  | .map entries =>
    match part? entries "functions" with
    | some (.map functions) => functions.map (·.1)
    | _ => []
  | _ => []

/-- The names of the functions that a file describes. -/
def functionNames (raw : Raw) : List String :=
  ((functionKeys raw).filterMap fun key => (validator.read key.raw).toOption).eraseDups

variable (read : Raw.Reader) (files : Files) (path : String)

/-- A file is there and holds a value. -/
def Holds (raw : Raw) : Prop := ∃ bytes, files.read path = .ok bytes ∧ read bytes = .ok raw

/-- What ends a load with an error that is not one of the catalog. -/
inductive Breaks : CatalogError → Prop
  | unseen {error : FileError} (lookup : files.find path = .error error) (hidden : error.isAbsence = false) :
      Breaks (.unopenable error)
  | unopened {entry : Entry} {error : FileError} (found : files.find path = .ok entry)
      (refused : files.read path = .error error) : Breaks (.unopenable error)
  | undecodable {bytes : ByteArray} (whole : files.read path = .ok bytes)
      (fails : read bytes = .error .undecodable) : Breaks .undecodable
  | broken {bytes : ByteArray} (whole : files.read path = .ok bytes) (fails : read bytes = .error .broken) :
      Breaks .broken
  | strays {raw : Raw} {error : CatalogError} (holds : Holds read files path raw) (strays : Strays raw error) :
      Breaks error

end Schema

section Fields

variable (validator : TextValidator) (path : List String) (entries : List (Key × Raw)) (key default : String)

theorem findings_textAt (raw : Raw) : (textAt validator path raw).findings = [] ↔ IsText validator raw :=
  Checked.findings_read ..

theorem findings_keyAt (name : Key) : (keyAt validator path name).findings = [] ↔ IsText validator name.raw :=
  findings_textAt ..

theorem findings_required : (required validator path entries key).findings = [] ↔
    ∃ raw ∈ Raw.get? entries key, IsText validator raw := by
  unfold required
  cases Raw.get? entries key with
  | none => simp
  | some raw => simp [findings_textAt]

theorem findings_optional : (optional validator path entries key default).findings = [] ↔
    ∀ raw ∈ Raw.get? entries key, IsText validator raw := by
  unfold optional
  cases Raw.get? entries key with
  | none => simp
  | some raw => simp [findings_textAt]

section Indexed

variable {α : Type} {check : List String → Raw → Checked α} {shape : Raw → Prop}

theorem findings_indexed (each : ∀ path raw, (check path raw).findings = [] ↔ shape raw) (items : List Raw) :
    (indexed path check items).findings = [] ↔ ∀ item ∈ items, shape item := by
  have places : (∀ item ∈ items, shape item) ↔ ∀ place ∈ items.zipIdx, shape place.1 := by
    conv => lhs; rw [← List.zipIdx_map_fst 0 items]
    exact List.forall_mem_map
  simp only [indexed, Checked.findings_mapM, List.flatMap_eq_nil_iff, places, each]

end Indexed

theorem findings_readNames (part : Option Raw) :
    (readNames validator path part).findings = [] ↔ ∀ raw ∈ part, IsNames validator raw := by
  cases part with
  | none => simp [readNames]
  | some raw =>
    cases held : items? raw with
    | some items => simp [readNames, held, findings_indexed path (findings_textAt validator), IsNames]
    | none => simp [readNames, held, IsNames]

theorem findings_readTypes (part : Option Raw) :
    (readTypes validator path part).findings = [] ↔ ∀ raw ∈ part, IsTypes validator raw := by
  cases part with
  | none => simp [readTypes]
  | some raw =>
    cases raw with
    | map entries =>
      simp [readTypes, Checked.findings_bind, Checked.findings_mapM, findings_keyAt, findings_textAt, IsTypes]
    | _ => simp [readTypes, IsTypes]

theorem findings_readParameter (raw : Raw) :
    (readParameter validator path raw).findings = [] ↔ IsParameter validator raw := by
  cases raw with
  | map fields =>
    simp only [readParameter, Checked.findings_bind, Checked.findings_pure, List.append_nil, List.append_eq_nil_iff,
      findings_required, findings_optional]
    constructor
    · rintro ⟨name, type⟩
      exact ⟨fields, rfl, name, type⟩
    · rintro ⟨_, ⟨⟩, name, type⟩
      exact ⟨name, type⟩
  | _ => simp [readParameter, IsParameter]

theorem findings_readParameters (part : Option Raw) :
    (readParameters validator path part).findings = [] ↔ ∀ raw ∈ part, IsParameters validator raw := by
  cases part with
  | none => simp [readParameters]
  | some raw =>
    cases held : items? raw with
    | some items => simp [readParameters, held, findings_indexed path (findings_readParameter validator), IsParameters]
    | none => simp [readParameters, held, IsParameters]

theorem findings_readSignature (name : Key) (fields : List (Key × Raw)) :
    (readSignature validator path name fields).findings = [] ↔ SignatureFields validator name fields := by
  simp only [readSignature, Checked.findings_bind, Checked.findings_pure, List.append_nil, List.append_eq_nil_iff,
    findings_textAt, findings_required, findings_optional, findings_readParameters]
  constructor
  · rintro ⟨name, usage, description, params, returns⟩
    exact ⟨name, usage, description, params, returns⟩
  · rintro ⟨name, usage, description, params, returns⟩
    exact ⟨name, usage, description, params, returns⟩

end Fields

section Entries

def fieldsOf : Raw → List (Key × Raw)
  | .map fields => fields
  | _ => []

theorem signatureFields_fieldsOf (validator : TextValidator) (name : Key) (raw : Raw) :
    SignatureFields validator name (fieldsOf raw) ↔ IsSignature validator name raw := by
  have nothing : ¬ SignatureFields validator name [] := fun described => by simpa [Raw.get?] using described.usage
  cases raw with
  | map fields => simp [fieldsOf, IsSignature]
  | _ => simpa [fieldsOf, IsSignature] using nothing

variable {α β ε : Type} {step : α → Except ε β} {items : List α}

theorem mapM_eq_ok {value : α → β} (each : ∀ item ∈ items, step item = .ok (value item)) :
    items.mapM step = .ok (items.map value) := by
  induction items with
  | nil => rfl
  | cons item rest ih =>
    rw [List.forall_mem_cons] at each
    rw [List.mapM_cons, each.1, ih each.2]
    rfl

theorem mapM_eq_error {error : ε} (each : ∀ item ∈ items, step item = .error error ∨ ∃ value, step item = .ok value)
    (fails : ∃ item ∈ items, step item = .error error) : items.mapM step = .error error := by
  induction items with
  | nil => simp at fails
  | cons item rest ih =>
    rw [List.forall_mem_cons] at each
    rw [List.mapM_cons]
    obtain failed | ⟨value, passed⟩ := each.1
    · rw [failed]
      rfl
    · have later : ∃ item ∈ rest, step item = .error error := by simpa [passed] using fails
      rw [passed, ih each.2 later]
      rfl

variable {entries functions : List (Key × Raw)}

theorem functionEntry_of_plain {entry : Key × Raw} (plain : ¬ IsStray entry.2) :
    functionEntry entry = .ok (entry.1, fieldsOf entry.2) := by
  obtain ⟨name, raw⟩ := entry
  cases raw <;> simp_all [IsStray, functionEntry, fieldsOf]

theorem functionEntry_of_stray {entry : Key × Raw} (stray : IsStray entry.2) :
    functionEntry entry = .error .functionNotMap := by
  obtain ⟨name, raw⟩ := entry
  cases raw <;> simp_all [IsStray, functionEntry]

theorem functionEntries_of_plain (given : part? entries "functions" = some (.map functions))
    (plain : ∀ entry ∈ functions, ¬ IsStray entry.2) :
    functionEntries entries = .ok (functions.map fun entry => (entry.1, fieldsOf entry.2)) := by
  rw [functionEntries, given]
  exact mapM_eq_ok fun entry member => functionEntry_of_plain (plain entry member)

theorem functionEntries_of_stray (given : part? entries "functions" = some (.map functions))
    (stray : ∃ entry ∈ functions, IsStray entry.2) : functionEntries entries = .error .functionNotMap := by
  rw [functionEntries, given]
  refine mapM_eq_error (fun entry _ => ?_) ?_
  · by_cases plain : IsStray entry.2
    · exact .inl (functionEntry_of_stray plain)
    · exact .inr ⟨_, functionEntry_of_plain plain⟩
  · obtain ⟨entry, member, stray⟩ := stray
    exact ⟨entry, member, functionEntry_of_stray stray⟩

theorem ofRaw_of_strays (validator : TextValidator) {raw : Raw} {error : CatalogError} (strays : Strays raw error) :
    ofRaw validator raw = .error error ∧ error.isReported = false := by
  cases strays with
  | @functions entries raw given stray =>
    have fails : functionEntries entries = .error .functionsNotMap := by
      rw [functionEntries, given]
      cases raw <;> simp_all [IsStray]
    rw [ofRaw, fails]
    exact ⟨rfl, rfl⟩
  | function given member stray =>
    rw [ofRaw, functionEntries_of_stray given ⟨_, member, stray⟩]
    exact ⟨rfl, rfl⟩

end Entries

section Reading

variable (validator : TextValidator) {entries : List (Key × Raw)} (functions : List (Key × List (Key × Raw)))

theorem findings_readParts : (readParts validator entries functions).findings = [] ↔
    (∀ raw ∈ part? entries "types", IsTypes validator raw) ∧
      (∀ key ∈ nameKeys, ∀ raw ∈ part? entries key, IsNames validator raw) ∧
      ∀ entry ∈ functions, IsText validator entry.1.raw ∧ SignatureFields validator entry.1 entry.2 := by
  simp only [readParts, Checked.findings_bind, Checked.findings_pure, List.append_nil, List.append_eq_nil_iff,
    findings_readTypes, findings_readNames, Checked.findings_mapM, List.flatMap_eq_nil_iff, findings_keyAt,
    findings_readSignature]
  simp [nameKeys, and_assoc]

theorem names_readParts (texts : ∀ entry ∈ functions, IsText validator entry.1.raw) :
    (readParts validator entries functions).value.functions.map (·.1) =
      ((functions.map (·.1)).filterMap fun key => (validator.read key.raw).toOption).eraseDups := by
  have each : functions.map (fun entry => (keyAt validator ["functions"] entry.1).value) =
      (functions.map (·.1)).filterMap fun key => (validator.read key.raw).toOption := by
    induction functions with
    | nil => rfl
    | cons entry rest ih =>
      obtain ⟨⟨text, reads⟩, later⟩ := List.forall_mem_cons.1 texts
      rw [List.map_cons, List.map_cons, List.filterMap_cons, ih later]
      simp [keyAt, textAt, Checked.value_read, reads, Except.toOption]
  have table : (readParts validator entries functions).value.functions.map (·.1) =
      (Table.collect (functions.map fun entry => ((keyAt validator ["functions"] entry.1).value,
        (readSignature validator ["functions", entry.1.shown] entry.1 entry.2).value))).keys := by
    simp only [readParts, Checked.value_bind, Checked.value_pure, Checked.value_mapM]
    rfl
  rw [table, Table.keys_collect, List.map_map, ← each]
  rfl

theorem parts_iff (described : (∀ entry ∈ functions, IsText validator entry.1.raw ∧
    SignatureFields validator entry.1 entry.2) ↔ ∀ raw ∈ part? entries "functions", IsFunctions validator raw) :
    Conforms validator (.map entries) ↔ (readParts validator entries functions).findings = [] := by
  rw [findings_readParts, described]
  constructor
  · rintro ⟨_, ⟨⟩, types, names, functions⟩
    exact ⟨types, names, functions⟩
  · rintro ⟨types, names, functions⟩
    exact ⟨entries, rfl, types, names, functions⟩

theorem isFalsy_of_part? {key : String} {raw : Raw} (given : part? entries key = some raw) : raw.isFalsy = false := by
  simpa using (Option.filter_eq_some_iff.1 given).2

theorem exists_functionEntries (plain : ∀ error, ¬ Strays (.map entries) error) :
    ∃ functions, functionEntries entries = .ok functions ∧ functions.map (·.1) = functionKeys (.map entries) ∧
      ((∀ entry ∈ functions, IsText validator entry.1.raw ∧ SignatureFields validator entry.1 entry.2) ↔
        ∀ raw ∈ part? entries "functions", IsFunctions validator raw) := by
  cases given : part? entries "functions" with
  | none =>
    refine ⟨[], ?_, ?_, by simp⟩
    · rw [functionEntries, given]
    · rw [functionKeys, given]
      rfl
  | some raw =>
    obtain ⟨functions, rfl⟩ : ∃ functions, raw = .map functions :=
      Classical.byContradiction fun other =>
        plain _ (.functions given ⟨isFalsy_of_part? given, not_exists.1 other⟩)
    refine ⟨_, functionEntries_of_plain given fun entry member stray => plain _ (.function given member stray), ?_, ?_⟩
    · rw [functionKeys, given, List.map_map]
      rfl
    · simp only [List.forall_mem_map, signatureFields_fieldsOf]
      simp [IsFunctions]

theorem isBuiltin_of_mem {catalog : Catalog} {name : String} (member : name ∈ catalog.functions.map (·.1)) :
    catalog.isBuiltin name.toList = true := by
  obtain ⟨entry, described, rfl⟩ := List.mem_map.1 member
  have found : (catalog.function? entry.1.toList).isSome = true := by
    rw [function?, String.ofList_toList, List.lookup_isSome_iff]
    exact ⟨entry, described, beq_self_eq_true _⟩
  rw [isBuiltin, found, Bool.or_true]

theorem ofRaw_of_not_strays {raw : Raw} (plain : ∀ error, ¬ Strays raw error) :
    (∃ catalog, ofRaw validator raw = .ok catalog ∧ Conforms validator raw ∧
        catalog.functions.map (·.1) = functionNames validator raw ∧
        ∀ key ∈ functionKeys raw, IsText validator key.raw) ∨
      ∃ error, ofRaw validator raw = .error error ∧ error.isReported = true ∧ ¬ Conforms validator raw := by
  by_cases whole : ∃ entries, raw = .map entries
  · obtain ⟨entries, rfl⟩ := whole
    obtain ⟨functions, fields, keys, described⟩ := exists_functionEntries validator plain
    have conforms := parts_iff validator functions described
    have reads : ofRaw validator (.map entries) =
        ((readParts validator entries functions).result).mapError .invalid := by
      rw [ofRaw, fields]
      rfl
    by_cases sound : (readParts validator entries functions).findings = []
    · have texts : ∀ entry ∈ functions, IsText validator entry.1.raw := fun entry member =>
        (((findings_readParts validator functions).1 sound).2.2 entry member).1
      refine .inl ⟨(readParts validator entries functions).value, ?_, conforms.2 sound, ?_, ?_⟩
      · rw [reads, Checked.result_of_sound sound]
        rfl
      · rw [names_readParts validator functions texts, functionNames, keys]
      · rw [← keys]
        exact List.forall_mem_map.2 texts
    · refine .inr ⟨.invalid (readParts validator entries functions).findings, ?_, rfl, mt conforms.1 sound⟩
      rw [reads, Checked.result_of_flaws sound]
      rfl
  · refine .inr ⟨.notMap raw.kind, ?_, rfl, ?_⟩
    · cases raw <;> simp_all [ofRaw]
    · rintro ⟨entries, rfl, -⟩
      exact whole ⟨entries, rfl⟩

theorem mem_functionNames {raw : Raw} {key : Key} {name : String} (member : key ∈ functionKeys raw)
    (reads : validator.read key.raw = .ok name) : name ∈ functionNames validator raw := by
  rw [functionNames, List.mem_eraseDups, List.mem_filterMap]
  exact ⟨key, member, by rw [reads]; rfl⟩

end Reading

section Loading

variable {read : Raw.Reader} {validator : TextValidator} {files : Files} {path : String}

theorem load_of_read {bytes : ByteArray} (whole : files.read path = .ok bytes) :
    load read validator files path = match read bytes with
      | .error .undecodable => .error .undecodable
      | .error .refused => .error .unreadable
      | .error .broken => .error .broken
      | .ok raw => ofRaw validator raw := by
  unfold load
  cases gives : read bytes with
  | error unread => cases unread <;> simp only [Files.find_of_read whole, whole, gives]
  | ok raw => simp only [Files.find_of_read whole, whole, gives]

theorem load_of_holds {raw : Raw} (holds : Holds read files path raw) :
    load read validator files path = ofRaw validator raw := by
  obtain ⟨bytes, whole, gives⟩ := holds
  rw [load_of_read whole, gives]

theorem Holds.unique {raw other : Raw} (holds : Holds read files path raw) (again : Holds read files path other) :
    raw = other := by
  obtain ⟨bytes, whole, gives⟩ := holds
  obtain ⟨bytes', whole', gives'⟩ := again
  obtain rfl := Except.ok.inj (whole.symm.trans whole')
  exact Except.ok.inj (gives.symm.trans gives')

theorem load_of_breaks {error : CatalogError} (breaks : Breaks read files path error) :
    load read validator files path = .error error ∧ error.isReported = false := by
  cases breaks with
  | unseen lookup hidden =>
    refine ⟨?_, rfl⟩
    unfold load
    simp [lookup, hidden]
  | unopened found refused =>
    refine ⟨?_, rfl⟩
    unfold load
    simp only [found, refused]
  | undecodable whole fails | broken whole fails =>
    refine ⟨?_, rfl⟩
    rw [load_of_read whole, fails]
  | strays holds strays =>
    rw [load_of_holds holds]
    exact ofRaw_of_strays validator strays

theorem not_holds_of_error {error : FileError} (refused : files.read path = .error error) (raw : Raw) :
    ¬ Holds read files path raw := by
  rintro ⟨bytes, whole, -⟩
  rw [refused] at whole
  nomatch whole

theorem load_cases (read : Raw.Reader) (validator : TextValidator) (files : Files) (path : String) :
    (∃ raw, Holds read files path raw) ∨
      (∃ error, load read validator files path = .error error ∧ error.isReported = true ∧
        ∀ raw, ¬ Holds read files path raw) ∨
      ∃ error, Breaks read files path error := by
  cases found : files.find path with
  | error error =>
    cases absence : error.isAbsence with
    | false => exact .inr (.inr ⟨_, .unseen found absence⟩)
    | true =>
      refine .inr (.inl ⟨.missing (Path.ofString path).toString, ?_, rfl,
        not_holds_of_error (Files.read_of_find_error found)⟩)
      unfold load
      simp [found, absence]
  | ok entry =>
    cases outcome : files.read path with
    | error error => exact .inr (.inr ⟨_, .unopened found outcome⟩)
    | ok bytes =>
      cases gives : read bytes with
      | ok raw => exact .inl ⟨raw, bytes, outcome, gives⟩
      | error unread =>
        cases unread with
        | undecodable => exact .inr (.inr ⟨_, .undecodable outcome gives⟩)
        | broken => exact .inr (.inr ⟨_, .broken outcome gives⟩)
        | refused =>
          refine .inr (.inl ⟨.unreadable, by rw [load_of_read outcome, gives], rfl, ?_⟩)
          rintro raw ⟨_, whole, other⟩
          obtain rfl := Except.ok.inj (outcome.symm.trans whole)
          rw [gives] at other
          nomatch other

theorem load_outcome (read : Raw.Reader) (validator : TextValidator) (files : Files) (path : String) :
    (∃ raw catalog, Holds read files path raw ∧ Conforms validator raw ∧
        load read validator files path = .ok catalog ∧
        catalog.functions.map (·.1) = functionNames validator raw ∧
        ∀ key ∈ functionKeys raw, IsText validator key.raw) ∨
      (∃ error, load read validator files path = .error error ∧ error.isReported = true ∧
        ∀ raw, Holds read files path raw → ¬ Conforms validator raw) ∨
      ∃ error, Breaks read files path error := by
  obtain ⟨raw, holds⟩ | ⟨error, fails, reported, empty⟩ | breaks := load_cases read validator files path
  · by_cases strays : ∃ error, Strays raw error
    · obtain ⟨error, strays⟩ := strays
      exact .inr (.inr ⟨error, .strays holds strays⟩)
    · obtain ⟨catalog, reads, conforms, names⟩ | ⟨error, fails, reported, flawed⟩ :=
        ofRaw_of_not_strays validator (not_exists.1 strays)
      · exact .inl ⟨raw, catalog, holds, conforms, (load_of_holds holds).trans reads, names⟩
      · exact .inr (.inl ⟨error, (load_of_holds holds).trans fails, reported, fun other again =>
          holds.unique again ▸ flawed⟩)
  · exact .inr (.inl ⟨error, fails, reported, fun raw holds => absurd holds (empty raw)⟩)
  · exact .inr (.inr breaks)

/-- A load ends in a catalog or in an error of the catalog as long as nothing breaks it: in a catalog where the file
conforms, and every function that the file describes is builtin then, under the name that its key is read as. What
breaks it is the error that it ends in. -/
theorem load_reported_iff (read : Raw.Reader) (validator : TextValidator) (files : Files) (path : String) :
    (((∃ raw catalog, Holds read files path raw ∧ Conforms validator raw ∧
          load read validator files path = .ok catalog ∧
          catalog.functions.map (·.1) = functionNames validator raw ∧
          ∀ key ∈ functionKeys raw, ∃ name, validator.read key.raw = .ok name ∧
            catalog.isBuiltin name.toList = true) ∨
        ∃ error, load read validator files path = .error error ∧ error.isReported = true ∧
          ∀ raw, Holds read files path raw → ¬ Conforms validator raw) ↔
      ∀ error, ¬ Breaks read files path error) ∧
    ∀ error, Breaks read files path error ↔
      load read validator files path = .error error ∧ error.isReported = false := by
  refine ⟨⟨?_, fun clear => ?_⟩, fun error => ⟨load_of_breaks, ?_⟩⟩
  · rintro (⟨_, _, _, _, loads, _⟩ | ⟨_, loads, reported, _⟩) error breaks
    · rw [(load_of_breaks breaks).1] at loads
      nomatch loads
    · obtain ⟨fails, unreported⟩ : load read validator files path = .error error ∧ error.isReported = false :=
        load_of_breaks breaks
      rw [fails] at loads
      obtain rfl := Except.error.inj loads
      rw [unreported] at reported
      nomatch reported
  · obtain ⟨raw, catalog, holds, conforms, loads, names, texts⟩ | refused | ⟨error, breaks⟩ :=
      load_outcome read validator files path
    · refine .inl ⟨raw, catalog, holds, conforms, loads, names, fun key member => ?_⟩
      obtain ⟨name, reads⟩ := texts key member
      exact ⟨name, reads, isBuiltin_of_mem (names ▸ mem_functionNames validator member reads)⟩
    · exact .inr refused
    · exact absurd breaks (clear error)
  · rintro ⟨fails, unreported⟩
    obtain ⟨_, _, _, _, loads, _⟩ | ⟨_, loads, reported, _⟩ | ⟨other, breaks⟩ := load_outcome read validator files path
    · rw [fails] at loads
      nomatch loads
    · rw [fails] at loads
      obtain rfl := Except.error.inj loads
      rw [unreported] at reported
      nomatch reported
    · have same : load read validator files path = .error other := (load_of_breaks breaks).1
      rw [fails] at same
      exact Except.error.inj same ▸ breaks

instance decidableEqOutcome : DecidableEq (Except CatalogError Catalog)
  | .ok _, .ok _ => decidable_of_iff _ ⟨congrArg _, Except.ok.inj⟩
  | .error _, .error _ => decidable_of_iff _ ⟨congrArg _, Except.error.inj⟩
  | .ok _, .error _ | .error _, .ok _ => isFalse nofun

/-- A list stands where the functions are taken from a map. -/
theorem load_of_listed_functions :
    load Written.read .lax ⟨[(Place.ofString "catalog.yaml", .file "functions: [1]".toUTF8)]⟩ "catalog.yaml" =
        .error .functionsNotMap ∧
      CatalogError.functionsNotMap.isReported = false := by
  decide +kernel

end Loading

end Catalog

end ArturoInsight
