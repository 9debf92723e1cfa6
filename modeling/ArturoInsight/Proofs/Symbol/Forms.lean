import ArturoInsight.Lint.Undefined
import Mathlib.Data.List.Basic
import Mathlib.Tactic.SplitIfs
import Mathlib.Tactic.Tauto

/-! The five ways in which a line binds a name. A document binds the names of its lines, and these are all that
a use is looked up in besides the catalog. -/

namespace ArturoInsight

open Text Lexical

inductive BindingForm where
  | label | type | parameter | loopVariable | key
deriving DecidableEq, Repr

def BindingForm.names (form : BindingForm) (scan : Scan) : List (List Char) :=
  match form with
  | label => ((Binding.ofLine? scan scan.uncommented).map (·.name)).toList
  | type => definedTypes scan scan.uncommented
  | parameter => parameters scan.blanked
  | loopVariable => loopVariables scan.blanked
  | key => dictionaryKeys scan.blanked

def Binds (scans : List Scan) (name : List Char) : Prop := ∃ scan ∈ scans, ∃ form : BindingForm, name ∈ form.names scan

namespace Symbols

variable {symbols : Symbols} {name : List Char}

theorem has_iff : symbols.has name = true ↔
    name ∈ symbols.values.keys ∨ name ∈ symbols.functions.keys ∨ name ∈ symbols.types := by
  simp [has, Table.has_iff_mem_keys, or_assoc]

theorem has_bind (symbol : Symbol) : (symbols.bind symbol).has name = true ↔
    symbols.has name = true ∨ name = symbol.name := by
  have put (table : Table (List Char) Symbol) : name ∈ (Table.put symbol.name symbol table).keys ↔
      name ∈ table.keys ∨ name = symbol.name := by
    rw [Table.keys_put]
    split_ifs with member
    · exact ⟨.inl, fun inside => inside.elim id fun same => same ▸ member⟩
    · simp
  have removed (table : Table (List Char) Symbol) : name ∈ (table.remove symbol.name).keys ↔
      name ∈ table.keys ∧ name ≠ symbol.name := by
    simp [Table.keys_remove]
  unfold bind
  cases symbol.kind <;> simp only [has_iff, put, removed] <;> tauto

theorem has_defineTypes (types : List (List Char)) : (types.foldl defineType symbols).has name = true ↔
    symbols.has name = true ∨ name ∈ types := by
  induction types generalizing symbols with
  | nil => simp
  | cons type types ih =>
    have here : (symbols.defineType type).has name = true ↔ symbols.has name = true ∨ name = type := by
      unfold defineType
      split_ifs with known
      · have member : type ∈ symbols.types := by simpa using known
        exact ⟨.inl, fun had => had.elim id fun same => has_iff.2 (.inr (.inr (same ▸ member)))⟩
      · simp only [has_iff, List.mem_append, List.mem_singleton]
        tauto
    rw [List.foldl_cons, ih, here, List.mem_cons, or_assoc]

theorem has_addLine (line : Nat) (scan : Scan) : (symbols.addLine line scan).has name = true ↔
    symbols.has name = true ∨ name ∈ BindingForm.label.names scan ∨ name ∈ BindingForm.type.names scan := by
  unfold addLine BindingForm.names
  cases Binding.ofLine? scan scan.uncommented with
  | none => simp [has_defineTypes]
  | some binding =>
    simp only [has_bind, has_defineTypes, Symbol.ofBinding, Option.map_some, Option.toList_some, List.mem_singleton]
    tauto

theorem has_addFrom (line : Nat) (scans : List Scan) : (symbols.addFrom line scans).has name = true ↔
    symbols.has name = true ∨
      ∃ scan ∈ scans, name ∈ BindingForm.label.names scan ∨ name ∈ BindingForm.type.names scan := by
  induction scans generalizing symbols line with
  | nil => simp [addFrom]
  | cons scan scans ih => rw [addFrom, ih, has_addLine, List.exists_mem_cons_iff, or_assoc]

end Symbols

theorem Quasi.has_ofScans {scans : List Scan} {name : List Char} : (Quasi.ofScans scans).has name = true ↔
    ∃ scan ∈ scans, name ∈ BindingForm.parameter.names scan ∨ name ∈ BindingForm.loopVariable.names scan ∨
      name ∈ BindingForm.key.names scan := by
  simp only [Quasi.has, Quasi.ofScans, Bool.or_eq_true, List.contains_iff_mem, List.mem_eraseDups, List.mem_flatMap,
    BindingForm.names, and_or_left, exists_or, or_assoc]

theorem binds_iff {scans : List Scan} {name : List Char} :
    Binds scans name ↔ (Symbols.ofScans scans).has name = true ∨ (Quasi.ofScans scans).has name = true := by
  have forms (scan : Scan) : (∃ form : BindingForm, name ∈ form.names scan) ↔
      (name ∈ BindingForm.label.names scan ∨ name ∈ BindingForm.type.names scan) ∨
        name ∈ BindingForm.parameter.names scan ∨ name ∈ BindingForm.loopVariable.names scan ∨
          name ∈ BindingForm.key.names scan := by
    constructor
    · rintro ⟨form, member⟩
      cases form <;> simp [member]
    · rintro ((member | member) | member | member | member) <;> exact ⟨_, member⟩
  have empty : Symbols.empty.has name = false := rfl
  rw [Symbols.ofScans, Symbols.has_addFrom, Quasi.has_ofScans, Binds]
  simp only [forms, empty, and_or_left, exists_or]
  simp

namespace Undefined

theorem isKnown_ofScans {scans : List Scan} {file : String} {catalog : Catalog} {word : List Char} :
    isKnown (.ofScans scans file catalog) word = true ↔
      Literal.holds word = true ∨ catalog.isBuiltin word = true ∨ Binds scans word := by
  simp only [isKnown, Source.ofScans, Bool.or_eq_true, binds_iff, or_assoc]

end Undefined

end ArturoInsight
