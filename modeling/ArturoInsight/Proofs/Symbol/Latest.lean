import ArturoInsight.Proofs.Lexical.Borders
import ArturoInsight.Proofs.Symbol.Gathered
import ArturoInsight.Proofs.Symbol.Name
import ArturoInsight.Proofs.ValueType
import Mathlib.Data.List.Sort

/-! What the table of symbols holds after the lines of a document: every name that some line binds, with the
symbol of the last such line, in the table of its kind. -/

namespace ArturoInsight

open Text Lexical

namespace Binding

/-- How the name of a binding stands in its line: with its first character in code, after no name character and
before one that no name goes on with. -/
structure Placed (scan : Scan) (line : List Char) (binding : Binding) (front tail : List Char) : Prop where
  whole : line = front ++ (binding.name ++ tail)
  column : binding.column = front.length
  code : scan.codeAt front.length = true
  opens : ∀ c ∈ front.getLast?, isNamePart c = false
  taken : Name.Taken tail binding.name
  starts : binding.name.head?.any isNameStart = true
  closes : ∃ c, tail.head? = some c ∧ isNamePart c = false ∧ c ≠ '?'

theorem closes_of_colon {tail after : List Char} (colon : after? [':'] (tail.dropWhile isAsciiBlank) = some after) :
    ∃ c, tail.head? = some c ∧ isNamePart c = false ∧ c ≠ '?' := by
  have rest := after?_eq_some.1 colon
  cases tail with
  | nil => contradiction
  | cons c tail =>
    refine ⟨c, rfl, ?_⟩
    cases ascii : isAsciiBlank c with
    | true =>
      constructor
      · by_contra part
        have solid := Name.not_isBlank_of_isNamePart (by simpa using part)
        rw [isBlank_of_isAsciiBlank ascii] at solid
        contradiction
      · rintro rfl
        contradiction
    | false =>
      obtain ⟨rfl, -⟩ : c = ':' ∧ tail = after := by simpa [ascii] using rest
      decide

theorem exists_placed {scan : Scan} {line : List Char} {binding : Binding}
    (found : ofLine? scan line = some binding) : ∃ front tail, Placed scan line binding front tail := by
  obtain ⟨front, back, rfl, accepted⟩ := exists_of_firstPlaceFrom found
  rw [Nat.zero_add, at?] at accepted
  obtain ⟨opens, accepted⟩ := Option.ite_none_left_eq_some.1 accepted
  obtain ⟨⟨name, tail⟩, reads, accepted⟩ := Option.bind_eq_some_iff.1 accepted
  obtain ⟨after, colon, accepted⟩ := Option.bind_eq_some_iff.1 accepted
  obtain ⟨holds, accepted⟩ := Option.ite_none_right_eq_some.1 accepted
  obtain rfl := Option.some.inj accepted
  obtain ⟨rfl, taken, starts⟩ := Name.read?_eq_some.1 reads
  simp only [Bool.and_eq_true] at holds
  refine ⟨front, tail, rfl, rfl, holds.1.1.1, fun c last => ?_, taken, starts, closes_of_colon colon⟩
  rw [last] at opens
  simpa using opens

theorem not_isBlankText {scan : Scan} {line : List Char} {binding : Binding}
    (found : ofLine? scan line = some binding) : isBlankText line = false := by
  obtain ⟨front, tail, placed⟩ := exists_placed found
  obtain ⟨c, name, same⟩ := List.exists_cons_of_ne_nil placed.taken.ne_nil
  have solid := placed.taken.solid (same ▸ List.mem_cons_self)
  simp [isBlankText, placed.whole, same, solid]

end Binding

/-- What a line of a document binds. A line that is blank before its comment binds nothing. -/
def boundIn (scans : List Scan) (line : Nat) : Option Binding :=
  scans[line]?.bind fun scan =>
    if isBlankText scan.uncommented then none else Binding.ofLine? scan scan.uncommented

structure IsLast (scans : List Scan) (name : List Char) (line : Nat) (binding : Binding) : Prop where
  bound : boundIn scans line = some binding
  named : binding.name = name
  last : ∀ later other, line < later → boundIn scans later = some other → other.name ≠ name

theorem boundIn_eq (scans : List Scan) (line : Nat) :
    boundIn scans line = scans[line]?.bind fun scan => Binding.ofLine? scan scan.uncommented := by
  unfold boundIn
  congr 1
  funext scan
  split_ifs with blank
  · cases found : Binding.ofLine? scan scan.uncommented with
    | none => rfl
    | some binding =>
      rw [Binding.not_isBlankText found] at blank
      contradiction
  · rfl

theorem boundIn_zero (scan : Scan) (rest : List Scan) :
    boundIn (scan :: rest) 0 = Binding.ofLine? scan scan.uncommented := by
  rw [boundIn_eq, List.getElem?_cons_zero, Option.bind_some]

theorem boundIn_succ (scan : Scan) (rest : List Scan) (line : Nat) :
    boundIn (scan :: rest) (line + 1) = boundIn rest line := by
  rw [boundIn, List.getElem?_cons_succ, boundIn]

theorem extract_of_boundIn {scans : List Scan} {line : Nat} {binding : Binding}
    (bound : boundIn scans line = some binding) : ∃ scan, scans[line]? = some scan ∧
      scan.text.extract binding.column (binding.column + binding.name.length) = binding.name ∧
      scan.codeAt binding.column = true := by
  rw [boundIn_eq] at bound
  obtain ⟨scan, here, found⟩ := Option.bind_eq_some_iff.1 bound
  obtain ⟨front, tail, placed⟩ := Binding.exists_placed found
  obtain ⟨comment, text⟩ := uncommented_prefix scan
  refine ⟨scan, here, ?_, placed.column ▸ placed.code⟩
  rw [← text, placed.whole, placed.column]
  simp

theorem IsLast.unique {scans : List Scan} {name : List Char} {line other : Nat} {binding second : Binding}
    (left : IsLast scans name line binding) (right : IsLast scans name other second) :
    line = other ∧ binding = second := by
  obtain less | rfl | greater := Nat.lt_trichotomy line other
  · exact absurd right.named (left.last other second less right.bound)
  · exact ⟨rfl, Option.some.inj (left.bound.symm.trans right.bound)⟩
  · exact absurd left.named (right.last line binding greater left.bound)

namespace Symbols

def ofKind (symbols : Symbols) : SymbolKind → Table (List Char) Symbol
  | .plain => symbols.values
  | .function => symbols.functions

def latestFrom (name : List Char) (line : Nat) : List Scan → Option Symbol
  | [] => none
  | scan :: rest => (latestFrom name (line + 1) rest).or ((read? line scan).filter fun symbol => symbol.name == name)

theorem latestFrom_cases (name : List Char) (line : Nat) (scans : List Scan) :
    (latestFrom name line scans = none ∧
      ∀ index other, boundIn scans index = some other → other.name ≠ name) ∨
    ∃ index binding, latestFrom name line scans = some (.ofBinding (line + index) binding) ∧
      IsLast scans name index binding := by
  induction scans generalizing line with
  | nil => exact .inl ⟨rfl, by simp [boundIn]⟩
  | cons scan rest ih =>
    rw [latestFrom]
    obtain ⟨none, fresh⟩ | ⟨index, binding, found, bound, named, last⟩ := ih (line + 1)
    · rw [none, Option.none_or]
      have later {index : Nat} {other : Binding} (after : 0 < index)
          (bound : boundIn (scan :: rest) index = some other) : other.name ≠ name := by
        obtain ⟨index, rfl⟩ := Nat.exists_eq_add_one_of_ne_zero (Nat.ne_of_gt after)
        rw [boundIn_succ] at bound
        exact fresh index other bound
      by_cases here : ∃ binding, boundIn (scan :: rest) 0 = some binding ∧ binding.name = name
      · obtain ⟨binding, bound, named⟩ := here
        refine .inr ⟨0, binding, ?_, bound, named, fun index other => later⟩
        rw [boundIn_zero] at bound
        have kept : ((Symbol.ofBinding line binding).name == name) = true := beq_iff_eq.2 named
        rw [read?, bound, Option.map_some, Option.filter_some, if_pos kept, Nat.add_zero]
      · refine .inl ⟨?_, fun index other bound => ?_⟩
        · rw [boundIn_zero] at here
          rw [Option.filter_eq_none_iff]
          intro symbol read named
          obtain ⟨binding, bound, rfl⟩ := Option.map_eq_some_iff.1 read
          exact here ⟨binding, bound, beq_iff_eq.1 named⟩
        · obtain rfl | after := Nat.eq_zero_or_pos index
          · exact fun named => here ⟨other, bound, named⟩
          · exact later after bound
    · refine .inr ⟨index + 1, binding, ?_, ?_, named, fun later other after bound' => ?_⟩
      · rw [found, Option.some_or, Nat.add_right_comm, Nat.add_assoc]
      · rw [boundIn_succ, bound]
      · obtain ⟨later, rfl⟩ := Nat.exists_eq_add_one_of_ne_zero (by omega : later ≠ 0)
        rw [boundIn_succ] at bound'
        exact last later other (by omega) bound'

theorem get?_bind (symbols : Symbols) (symbol : Symbol) (kind : SymbolKind) (name : List Char) :
    ((symbols.bind symbol).ofKind kind).get? name =
      if symbol.name = name then if symbol.kind = kind then some symbol else none
      else (symbols.ofKind kind).get? name := by
  unfold bind
  by_cases same : symbol.name = name
  · rw [if_pos same, ← same]
    cases symbol.kind <;> cases kind <;> simp [ofKind, Table.get?_put_self, Table.get?_remove_self]
  · rw [if_neg same]
    cases symbol.kind <;> cases kind <;>
      simp [ofKind, Table.get?_put_of_ne same, Table.get?_remove_of_ne same]

theorem ofKind_defineTypes (symbols : Symbols) (types : List (List Char)) (kind : SymbolKind) :
    (types.foldl defineType symbols).ofKind kind = symbols.ofKind kind := by
  induction types generalizing symbols with
  | nil => rfl
  | cons type types ih =>
    rw [List.foldl_cons, ih]
    unfold defineType
    split_ifs <;> cases kind <;> rfl

theorem get?_addLine (symbols : Symbols) (line : Nat) (scan : Scan) (kind : SymbolKind) (name : List Char) :
    ((symbols.addLine line scan).ofKind kind).get? name =
      match (read? line scan).filter fun symbol => symbol.name == name with
      | some symbol => if symbol.kind = kind then some symbol else none
      | none => (symbols.ofKind kind).get? name := by
  unfold addLine read?
  cases Binding.ofLine? scan scan.uncommented with
  | none => exact congrArg (Table.get? · name) (ofKind_defineTypes symbols _ kind)
  | some binding =>
    simp only [get?_bind, ofKind_defineTypes, Option.map_some, Option.filter_some, beq_iff_eq]
    by_cases same : (Symbol.ofBinding line binding).name = name <;> simp [same]

theorem get?_addFrom (symbols : Symbols) (line : Nat) (scans : List Scan) (kind : SymbolKind) (name : List Char) :
    ((symbols.addFrom line scans).ofKind kind).get? name =
      match latestFrom name line scans with
      | some symbol => if symbol.kind = kind then some symbol else none
      | none => (symbols.ofKind kind).get? name := by
  induction scans generalizing symbols line with
  | nil => rfl
  | cons scan rest ih =>
    rw [addFrom, ih, latestFrom, get?_addLine]
    cases latestFrom name (line + 1) rest <;> rfl

theorem nodup_bind {symbols : Symbols} (once : ∀ kind, (symbols.ofKind kind).keys.Nodup) (symbol : Symbol)
    (kind : SymbolKind) : ((symbols.bind symbol).ofKind kind).keys.Nodup := by
  unfold bind
  cases symbol.kind with
  | plain =>
    cases kind with
    | plain => exact Table.nodup_keys_put (once .plain) _ _
    | function => exact Table.nodup_keys_remove (once .function) _
  | function =>
    cases kind with
    | plain => exact Table.nodup_keys_remove (once .plain) _
    | function => exact Table.nodup_keys_put (once .function) _ _

theorem nodup_addFrom {symbols : Symbols} (once : ∀ kind, (symbols.ofKind kind).keys.Nodup) (line : Nat)
    (scans : List Scan) (kind : SymbolKind) : ((symbols.addFrom line scans).ofKind kind).keys.Nodup := by
  induction scans generalizing symbols line with
  | nil => exact once kind
  | cons scan rest ih =>
    apply ih
    intro other
    have defined (kind : SymbolKind) :
        (((definedTypes scan scan.uncommented).foldl defineType symbols).ofKind kind).keys.Nodup := by
      rw [ofKind_defineTypes]
      exact once kind
    unfold addLine
    cases Binding.ofLine? scan scan.uncommented with
    | none => exact defined other
    | some binding => exact nodup_bind defined _ other

/-- What the symbols of a document keep to, for the scans of its lines. -/
structure Tracks (scans : List Scan) (symbols : Symbols) : Prop where
  once : ∀ kind, (symbols.ofKind kind).keys.Nodup
  apart : ∀ name ∈ symbols.values.keys, name ∉ symbols.functions.keys
  own : ∀ entry ∈ symbols.entries, entry.2.name = entry.1
  bound : ∀ name, name ∈ symbols.entries.map (·.1) ↔
    ∃ line binding, boundIn scans line = some binding ∧ binding.name = name
  last : ∀ entry ∈ symbols.entries, ∃ binding, IsLast scans entry.1 entry.2.line binding ∧
    entry.2 = .ofBinding entry.2.line binding
  /-- The name stands in its line between the columns of its symbol, where code starts. -/
  placed : ∀ entry ∈ symbols.entries, ∃ scan, scans[entry.2.line]? = some scan ∧
    scan.text.extract entry.2.column entry.2.stop = entry.1 ∧ scan.codeAt entry.2.column = true
  kinds : ∀ entry ∈ symbols.entries, (entry ∈ symbols.functions ↔ entry.2.kind = .function) ∧
    (entry.2.kind = .function ↔ entry.2.type = .function ∨ entry.2.type = .method)
  listed : symbols.all.Perm (symbols.entries.map (·.2))
  ordered : symbols.all.Pairwise fun left right => left.line < right.line

theorem mem_entries_iff {symbols : Symbols} {entry : List Char × Symbol} :
    entry ∈ symbols.entries ↔ ∃ kind, entry ∈ symbols.ofKind kind := by
  rw [entries, List.mem_append]
  constructor
  · rintro (value | function)
    · exact ⟨.plain, value⟩
    · exact ⟨.function, function⟩
  · rintro ⟨_ | _, member⟩
    · exact .inl member
    · exact .inr member

theorem get?_ofScans (scans : List Scan) (kind : SymbolKind) (name : List Char) :
    ((ofScans scans).ofKind kind).get? name =
      (latestFrom name 0 scans).filter fun symbol => symbol.kind = kind := by
  have nothing : (empty.ofKind kind).get? name = none := by cases kind <;> rfl
  rw [ofScans, get?_addFrom, nothing]
  cases latestFrom name 0 scans with
  | none => rfl
  | some symbol => simp [Option.filter_some]

theorem nodup_ofScans (scans : List Scan) (kind : SymbolKind) : ((ofScans scans).ofKind kind).keys.Nodup :=
  nodup_addFrom (fun kind => by cases kind <;> exact List.nodup_nil) 0 scans kind

theorem mem_ofKind_ofScans {scans : List Scan} {kind : SymbolKind} {entry : List Char × Symbol} :
    entry ∈ (ofScans scans).ofKind kind ↔ latestFrom entry.1 0 scans = some entry.2 ∧ entry.2.kind = kind := by
  have found : entry ∈ (ofScans scans).ofKind kind ↔ ((ofScans scans).ofKind kind).get? entry.1 = some entry.2 :=
    ⟨Table.get?_of_mem (nodup_ofScans scans kind), Table.mem_of_get?⟩
  rw [found, get?_ofScans, Option.filter_eq_some_iff, decide_eq_true_eq]

theorem mem_entries_ofScans {scans : List Scan} {entry : List Char × Symbol} :
    entry ∈ (ofScans scans).entries ↔ latestFrom entry.1 0 scans = some entry.2 := by
  simp [mem_entries_iff, mem_ofKind_ofScans]

theorem exists_isLast {scans : List Scan} {entry : List Char × Symbol} (member : entry ∈ (ofScans scans).entries) :
    ∃ binding, IsLast scans entry.1 entry.2.line binding ∧ entry.2 = .ofBinding entry.2.line binding := by
  obtain ⟨none, -⟩ | ⟨line, binding, found, last⟩ := latestFrom_cases entry.1 0 scans
  · rw [mem_entries_ofScans, none] at member
    contradiction
  · rw [mem_entries_ofScans, found, Nat.zero_add] at member
    rw [← Option.some.inj member]
    exact ⟨binding, last, rfl⟩

theorem eq_of_line {scans : List Scan} {left right : List Char × Symbol} (first : left ∈ (ofScans scans).entries)
    (second : right ∈ (ofScans scans).entries) (same : left.2.line = right.2.line) : left = right := by
  obtain ⟨binding, here, told⟩ := exists_isLast first
  obtain ⟨other, there, said⟩ := exists_isLast second
  have bound : some binding = some other := by rw [← here.bound, same, there.bound]
  obtain rfl := Option.some.inj bound
  apply Prod.ext
  · exact here.named.symm.trans there.named
  · rw [told, said, same]

theorem not_mem_functions {scans : List Scan} {name : List Char} (member : name ∈ (ofScans scans).values.keys) :
    name ∉ (ofScans scans).functions.keys := by
  intro other
  obtain ⟨value, here, rfl⟩ := List.mem_map.1 member
  obtain ⟨function, there, same⟩ := List.mem_map.1 other
  have plain : latestFrom value.1 0 scans = some value.2 ∧ value.2.kind = .plain := mem_ofKind_ofScans.1 here
  have callable : latestFrom function.1 0 scans = some function.2 ∧ function.2.kind = .function :=
    mem_ofKind_ofScans.1 there
  rw [same, plain.1] at callable
  obtain ⟨equal, kind⟩ := callable
  rw [← Option.some.inj equal, plain.2] at kind
  contradiction

theorem nodup_entries (scans : List Scan) : ((ofScans scans).entries.map (·.1)).Nodup := by
  rw [entries, List.map_append]
  refine List.nodup_append.2 ⟨nodup_ofScans scans .plain, nodup_ofScans scans .function, ?_⟩
  rintro name value other function rfl
  exact not_mem_functions value function

theorem nodup_lines (scans : List Scan) : ((ofScans scans).entries.map fun entry => entry.2.line).Nodup :=
  (nodup_entries scans).of_map.map_on fun _ first _ second => eq_of_line first second

theorem all_perm (symbols : Symbols) : symbols.all.Perm (symbols.entries.map (·.2)) := by
  rw [entries, List.map_append]
  exact List.mergeSort_perm _ _

theorem pairwise_before_all (symbols : Symbols) :
    symbols.all.Pairwise fun left right => left.before right = true := by
  apply List.pairwise_mergeSort
  · intro left middle right first second
    simp only [Symbol.before, Bool.or_eq_true, Bool.and_eq_true, decide_eq_true_eq, beq_iff_eq] at first second ⊢
    omega
  · intro left right
    simp only [Symbol.before, Bool.or_eq_true, Bool.and_eq_true, decide_eq_true_eq, beq_iff_eq]
    omega

theorem pairwise_line_all (scans : List Scan) :
    (ofScans scans).all.Pairwise fun left right => left.line < right.line := by
  have lines : ((ofScans scans).all.map Symbol.line).Nodup := by
    rw [((all_perm (ofScans scans)).map Symbol.line).nodup_iff, List.map_map]
    exact nodup_lines scans
  apply ((pairwise_before_all _).and (List.pairwise_map.1 lines)).imp
  intro left right both
  simp only [Symbol.before, Bool.or_eq_true, Bool.and_eq_true, decide_eq_true_eq, beq_iff_eq] at both
  omega

theorem kind_ofBinding (line : Nat) (binding : Binding) :
    (Symbol.ofBinding line binding).kind = .function ↔
      (Symbol.ofBinding line binding).type = .function ∨ (Symbol.ofBinding line binding).type = .method := by
  have kind : (Symbol.ofBinding line binding).kind = .function ↔ isFunctionValue binding.value = true := by
    unfold Symbol.ofBinding
    cases isFunctionValue binding.value <;> simp
  rw [kind, isFunctionValue_iff]
  rfl

theorem mem_names {scans : List Scan} {name : List Char} : name ∈ (ofScans scans).entries.map (·.1) ↔
    ∃ line binding, boundIn scans line = some binding ∧ binding.name = name := by
  constructor
  · intro member
    obtain ⟨entry, inside, rfl⟩ := List.mem_map.1 member
    obtain ⟨binding, last, -⟩ := exists_isLast inside
    exact ⟨entry.2.line, binding, last.bound, last.named⟩
  · rintro ⟨line, binding, bound, named⟩
    obtain ⟨-, fresh⟩ | ⟨latest, symbol, found, -⟩ := latestFrom_cases name 0 scans
    · exact absurd named (fresh line binding bound)
    · exact List.mem_map.2 ⟨(name, _), mem_entries_ofScans.2 found, rfl⟩

/-- Each name that a line of the text binds has one symbol, that of the last such line, in the table of its kind. -/
theorem tracks_ofText (text : List Char) : Tracks (scanText text) (ofText text) where
  once := nodup_ofScans _
  apart _ := not_mem_functions
  own entry member := by
    obtain ⟨binding, last, told⟩ := exists_isLast member
    rw [told]
    exact last.named
  bound _ := mem_names
  last _ := exists_isLast
  placed entry member := by
    obtain ⟨binding, last, told⟩ := exists_isLast member
    rw [told, ← last.named]
    exact extract_of_boundIn last.bound
  kinds entry member := by
    obtain ⟨binding, -, told⟩ := exists_isLast member
    have kept := @mem_ofKind_ofScans (scanText text) .function entry
    rw [and_iff_right (mem_entries_ofScans.1 member)] at kept
    refine ⟨kept, ?_⟩
    rw [told]
    exact kind_ofBinding _ _
  listed := all_perm _
  ordered := pairwise_line_all _

end Symbols

end ArturoInsight
