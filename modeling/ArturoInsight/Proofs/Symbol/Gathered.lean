import ArturoInsight.Proofs.Table
import ArturoInsight.Proofs.Text.Readers
import ArturoInsight.Symbol.Table
import Mathlib.Tactic.SplitIfs

/-! The symbols of a document gathered line by line, for any way to read the symbol of a line, and what they
tell of the document. -/

namespace ArturoInsight

open Text Lexical

/-- The symbols of both tables, with their names. -/
def Symbols.entries (symbols : Symbols) : List (List Char × Symbol) := symbols.values ++ symbols.functions

structure Definition where
  line : Nat
  kind : SymbolKind
  type : ValueType
deriving DecidableEq, Repr

def Symbol.definition (symbol : Symbol) : Definition := ⟨symbol.line, symbol.kind, symbol.type⟩

/-- What a document defines: its variables and functions in order, and its types. -/
structure Definitions where
  values : Table (List Char) Definition
  functions : Table (List Char) Definition
  types : List (List Char)
deriving DecidableEq, Repr

namespace Symbols

def definitions (symbols : Symbols) : Definitions where
  values := symbols.values.mapValues Symbol.definition
  functions := symbols.functions.mapValues Symbol.definition
  types := symbols.types

section Gathering

variable (read? : Nat → Scan → Option Symbol)

def gatherLine (symbols : Symbols) (line : Nat) (scan : Scan) : Symbols :=
  let symbols := (definedTypes scan scan.uncommented).foldl defineType symbols
  match read? line scan with
  | some symbol => symbols.bind symbol
  | none => symbols

def gather (symbols : Symbols) (line : Nat) : List Scan → Symbols
  | [] => symbols
  | scan :: rest => gather (symbols.gatherLine read? line scan) (line + 1) rest

end Gathering

/-- The symbol of a line as a document reads it. -/
def read? (line : Nat) (scan : Scan) : Option Symbol :=
  (Binding.ofLine? scan scan.uncommented).map (Symbol.ofBinding line)

theorem addFrom_eq (symbols : Symbols) (line : Nat) (scans : List Scan) :
    symbols.addFrom line scans = symbols.gather read? line scans := by
  induction scans generalizing symbols line with
  | nil => rfl
  | cons scan rest ih =>
    have here : symbols.addLine line scan = symbols.gatherLine read? line scan := by
      unfold addLine gatherLine read?
      cases Binding.ofLine? scan scan.uncommented <;> rfl
    rw [addFrom, gather, here, ih]

/-- Lines that define the same types and are read alike are gathered to the same symbols. -/
theorem gather_congr {read : Nat → Scan → Option Symbol} {olds news : List Scan}
    (alike : List.Forall₂ (fun old new => definedTypes old old.uncommented = definedTypes new new.uncommented ∧
      ∀ line, read line old = read line new) olds news) (symbols : Symbols) (line : Nat) :
    symbols.gather read line olds = symbols.gather read line news := by
  induction alike generalizing symbols line with
  | nil => rfl
  | @cons old new olds news here later ih =>
    have gathered : symbols.gatherLine read line old = symbols.gatherLine read line new := by
      unfold gatherLine
      rw [here.1, here.2 line]
    rw [gather, gather, gathered]
    exact ih _ _

section Agreement

variable {first second : Symbols}

theorem definitions_bind (same : first.definitions = second.definitions) {old new : Symbol}
    (name : new.name = old.name) (definition : new.definition = old.definition) :
    (first.bind old).definitions = (second.bind new).definitions := by
  have values : first.values.mapValues Symbol.definition = second.values.mapValues Symbol.definition :=
    congrArg Definitions.values same
  have functions : first.functions.mapValues Symbol.definition = second.functions.mapValues Symbol.definition :=
    congrArg Definitions.functions same
  have types : first.types = second.types := congrArg Definitions.types same
  have kind : new.kind = old.kind := congrArg Definition.kind definition
  unfold bind
  rw [kind]
  cases old.kind with
  | plain =>
    simp only [definitions, Table.mapValues_put, Table.mapValues_remove, values, functions, types, name, definition]
  | function =>
    simp only [definitions, Table.mapValues_put, Table.mapValues_remove, values, functions, types, name, definition]

theorem definitions_defineType (same : first.definitions = second.definitions) (name : List Char) :
    (first.defineType name).definitions = (second.defineType name).definitions := by
  have types : first.types = second.types := congrArg Definitions.types same
  unfold defineType
  rw [types]
  split_ifs
  · exact same
  · exact congrArg (fun found : Definitions => { found with types := second.types ++ [name] }) same

theorem definitions_defineTypes (same : first.definitions = second.definitions) (names : List (List Char)) :
    (names.foldl defineType first).definitions = (names.foldl defineType second).definitions := by
  induction names generalizing first second with
  | nil => exact same
  | cons name names ih => exact ih (definitions_defineType same name)

structure Agree (read other : Nat → Scan → Option Symbol) (old new : Scan) : Prop where
  types : definedTypes new new.uncommented = definedTypes old old.uncommented
  symbol : ∀ line, Option.Rel (fun before after => after.name = before.name ∧ after.definition = before.definition)
    (read line old) (other line new)

theorem definitions_gather {read other : Nat → Scan → Option Symbol} {olds news : List Scan}
    (agree : List.Forall₂ (Agree read other) olds news) (same : first.definitions = second.definitions)
    (line : Nat) : (first.gather read line olds).definitions = (second.gather other line news).definitions := by
  induction agree generalizing first second line with
  | nil => exact same
  | @cons old new olds news here later ih =>
    apply ih
    have defined := definitions_defineTypes same (definedTypes old old.uncommented)
    unfold gatherLine
    rw [here.types]
    have symbol := here.symbol line
    generalize read line old = before at symbol ⊢
    generalize other line new = after at symbol ⊢
    cases symbol with
    | none => exact defined
    | some told => exact definitions_bind defined told.1 told.2

end Agreement

section Changes

def change (changed : Symbol → Symbol) (symbols : Symbols) : Symbols where
  values := symbols.values.mapValues changed
  functions := symbols.functions.mapValues changed
  types := symbols.types

variable {changed : Symbol → Symbol} (name : ∀ symbol, (changed symbol).name = symbol.name)
  (kind : ∀ symbol, (changed symbol).kind = symbol.kind)

theorem change_defineType (symbols : Symbols) (type : List Char) :
    (symbols.defineType type).change changed = (symbols.change changed).defineType type := by
  unfold defineType change
  split_ifs <;> rfl

theorem change_defineTypes (symbols : Symbols) (types : List (List Char)) :
    (types.foldl defineType symbols).change changed = types.foldl defineType (symbols.change changed) := by
  induction types generalizing symbols with
  | nil => rfl
  | cons type types ih => rw [List.foldl_cons, ih, change_defineType, List.foldl_cons]

include name kind

theorem change_bind (symbols : Symbols) (symbol : Symbol) :
    (symbols.bind symbol).change changed = (symbols.change changed).bind (changed symbol) := by
  unfold bind
  rw [kind]
  cases symbol.kind <;> simp only [change, Table.mapValues_put, Table.mapValues_remove, name]

theorem change_gather {read other : Nat → Scan → Option Symbol} {line : Nat} {scans : List Scan}
    (reads : ∀ index scan, scans[index]? = some scan →
      other (line + index) scan = (read (line + index) scan).map changed) (symbols : Symbols) :
    (symbols.gather read line scans).change changed = (symbols.change changed).gather other line scans := by
  induction scans generalizing symbols line with
  | nil => rfl
  | cons scan rest ih =>
    have here := reads 0 scan rfl
    have later : ∀ index scan, rest[index]? = some scan →
        other (line + 1 + index) scan = (read (line + 1 + index) scan).map changed := by
      intro index scan found
      have next := reads (index + 1) scan found
      rwa [← Nat.add_assoc, Nat.add_right_comm] at next
    rw [gather, gather, ih later]
    congr 1
    unfold gatherLine
    rw [Nat.add_zero] at here
    rw [here]
    cases read line scan with
    | none => exact change_defineTypes symbols _
    | some symbol =>
      simp only [Option.map_some, change_bind name kind, change_defineTypes]

end Changes

section Members

theorem change_eq_self {changed : Symbol → Symbol} {symbols : Symbols}
    (same : ∀ entry ∈ symbols.entries, changed entry.2 = entry.2) : symbols.change changed = symbols := by
  have table {table : Table (List Char) Symbol} (same : ∀ entry ∈ table, changed entry.2 = entry.2) :
      table.mapValues changed = table := by
    refine (List.map_congr_left fun entry member => ?_).trans (List.map_id table)
    rw [same entry member]
    rfl
  obtain ⟨values, functions⟩ := List.forall_mem_append.1 same
  rw [change, table values, table functions]

theorem mem_bind {symbols : Symbols} {symbol : Symbol} {entry : List Char × Symbol}
    (member : entry ∈ (symbols.bind symbol).entries) :
    entry = (symbol.name, symbol) ∨ entry ∈ symbols.entries := by
  unfold bind at member
  cases kind : symbol.kind with
  | plain =>
    simp only [kind, entries, List.mem_append] at member ⊢
    obtain put | kept := member
    · exact (Table.mem_of_mem_put put).imp_right .inl
    · exact .inr (.inr (List.mem_of_mem_filter kept))
  | function =>
    simp only [kind, entries, List.mem_append] at member ⊢
    obtain kept | put := member
    · exact .inr (.inl (List.mem_of_mem_filter kept))
    · exact (Table.mem_of_mem_put put).imp_right .inr

theorem exists_of_definitions_change {changed : Symbol → Symbol} {first second : Symbols}
    (same : (first.change changed).definitions = second.definitions) {entry : List Char × Symbol}
    (member : entry ∈ first.entries) : ∃ other ∈ second.entries, other.1 = entry.1 ∧
      other.2.definition = (changed entry.2).definition := by
  have table {olds news : Table (List Char) Symbol} (inside : entry ∈ olds)
      (same : (olds.mapValues changed).mapValues Symbol.definition = news.mapValues Symbol.definition) :
      ∃ other ∈ news, other.1 = entry.1 ∧ other.2.definition = (changed entry.2).definition := by
    have told : (entry.1, (changed entry.2).definition) ∈ news.mapValues Symbol.definition := by
      rw [← same, Table.mapValues, Table.mapValues, List.map_map]
      exact List.mem_map_of_mem inside
    obtain ⟨other, found, equal⟩ := List.mem_map.1 told
    exact ⟨other, found, (Prod.mk.inj equal).1, (Prod.mk.inj equal).2⟩
  obtain value | function := List.mem_append.1 member
  · obtain ⟨other, found, told⟩ := table value (congrArg Definitions.values same)
    exact ⟨other, List.mem_append_left _ found, told⟩
  · obtain ⟨other, found, told⟩ := table function (congrArg Definitions.functions same)
    exact ⟨other, List.mem_append_right _ found, told⟩

theorem line_read? {line : Nat} {scan : Scan} {symbol : Symbol} (read : read? line scan = some symbol) :
    symbol.line = line := by
  obtain ⟨binding, -, rfl⟩ := Option.map_eq_some_iff.1 read
  rfl

theorem entries_defineTypes (symbols : Symbols) (types : List (List Char)) :
    (types.foldl defineType symbols).entries = symbols.entries := by
  induction types generalizing symbols with
  | nil => rfl
  | cons type types ih =>
    rw [List.foldl_cons, ih]
    unfold defineType
    split_ifs <;> rfl

theorem mem_gather {read : Nat → Scan → Option Symbol} {symbols : Symbols} {line : Nat} {scans : List Scan}
    {entry : List Char × Symbol} (member : entry ∈ (symbols.gather read line scans).entries) :
    entry ∈ symbols.entries ∨ ∃ index scan, scans[index]? = some scan ∧
      read (line + index) scan = some entry.2 := by
  induction scans generalizing symbols line with
  | nil => exact .inl member
  | cons scan rest ih =>
    obtain before | ⟨index, other, found, reads⟩ := ih member
    · unfold gatherLine at before
      cases reads : read line scan with
      | none =>
        simp only [reads, entries_defineTypes] at before
        exact .inl before
      | some symbol =>
        simp only [reads] at before
        obtain rfl | kept := mem_bind before
        · exact .inr ⟨0, scan, rfl, reads⟩
        · rw [entries_defineTypes] at kept
          exact .inl kept
    · refine .inr ⟨index + 1, other, found, ?_⟩
      rwa [← Nat.add_assoc, Nat.add_right_comm]

end Members

end Symbols

end ArturoInsight
