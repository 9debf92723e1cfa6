import ArturoInsight.Proofs.Symbol.Grammar
import ArturoInsight.Proofs.Symbol.Latest

/-! The binding of a line is the leftmost that stands in it. Where one stands is said without a reader, by the grammar
of names and the tags of the line. A search that matches labels from left to right and starts again one character
behind a label that binds nothing ends, and finds that binding, however the parts of a label are told apart. -/

namespace ArturoInsight

open Text Lexical

namespace Name

theorem formed_of_read? {text name tail : List Char} (reads : read? text = some (name, tail)) : Formed name := by
  obtain ⟨-, taken, starts⟩ := read?_eq_some.1 reads
  cases taken with
  | @marked run some_ parts =>
    obtain ⟨first, rest, rfl⟩ := List.exists_cons_of_ne_nil some_
    exact .marked starts (List.forall_mem_cons.1 parts).2
  | plain some_ parts =>
    obtain ⟨first, rest, rfl⟩ := List.exists_cons_of_ne_nil some_
    exact .plain starts (List.forall_mem_cons.1 parts).2

theorem Formed.read?_eq {name tail : List Char} (formed : Formed name)
    (ends : ∀ c ∈ tail.head?, isNamePart c = false ∧ c ≠ '?') : read? (name ++ tail) = some (name, tail) := by
  refine read?_eq_some.2 ⟨rfl, ?_⟩
  cases formed with
  | plain start parts => exact ⟨.plain (by simp) (parts_cons start parts) ends, start⟩
  | marked start parts => exact ⟨.marked (by simp) (parts_cons start parts), start⟩

end Name

namespace Binding

/-- How a binding stands in a line: the longest name at its column, which no name character is before, then blanks
and a colon, and its value after the colon, which is not blank. Name and colon start in code, and no letter follows
the colon directly where blanks come before it. -/
structure Stands (scan : Scan) (line : List Char) (binding : Binding) (gap after : List Char) : Prop where
  opens : ∀ c ∈ (line.take binding.column).getLast?, isNamePart c = false
  named : Name.Leads binding.name (line.drop binding.column)
  whole : line.drop binding.column = binding.name ++ (gap ++ ':' :: after)
  blanks : ∀ c ∈ gap, isAsciiBlank c = true
  code : scan.codeAt binding.column = true
  colon : scan.codeAt (binding.column + binding.name.length + gap.length) = true
  binds : gap = [] ∨ ∀ c ∈ after.head?, isLetter c = false
  value : binding.value = trim after
  some_ : ¬ Blanks after

section Places

variable {scan : Scan} {line : List Char} {binding : Binding}

theorem after?_of_blanks {gap : List Char} (blanks : ∀ c ∈ gap, isAsciiBlank c = true) (after : List Char) :
    (gap ++ ':' :: after).takeWhile isAsciiBlank = gap ∧
      after? [':'] ((gap ++ ':' :: after).dropWhile isAsciiBlank) = some after := by
  have stops : ∀ c ∈ (':' :: after).head?, isAsciiBlank c = false := by simp +decide
  rw [takeWhile_run blanks stops, dropWhile_run blanks stops]
  exact ⟨rfl, after?_eq_some.2 rfl⟩

theorem ends_of_blanks {gap : List Char} (blanks : ∀ c ∈ gap, isAsciiBlank c = true) (after : List Char) :
    ∀ c ∈ (gap ++ ':' :: after).head?, isNamePart c = false ∧ c ≠ '?' := by
  obtain ⟨c, head, other⟩ := closes_of_colon (after?_of_blanks blanks after).2
  intro d same
  obtain rfl : c = d := Option.some.inj (head.symm.trans same)
  exact other

theorem annotates_eq_false {gap after : List Char} :
    annotates gap after = false ↔ gap = [] ∨ ∀ c ∈ after.head?, isLetter c = false := by
  cases gap <;> cases after <;> simp [annotates]

theorem isEmpty_trim_eq_false {text : List Char} : (trim text).isEmpty = false ↔ ¬ Blanks text := by
  rw [isEmpty_trim, ← solids_eq_nil, ← Bool.not_eq_true, List.isEmpty_iff]

theorem any_isNamePart_eq_false {before : Option Char} :
    before.any isNamePart = false ↔ ∀ c ∈ before, isNamePart c = false := by
  cases before <;> simp

theorem Stands.at?_eq {gap after : List Char} (stands : Stands scan line binding gap after) :
    at? scan binding.column (line.take binding.column).getLast? (line.drop binding.column) = some binding := by
  obtain ⟨takes, colon⟩ := after?_of_blanks stands.blanks after
  have reads := stands.named.formed.read?_eq (ends_of_blanks stands.blanks after)
  rw [at?, any_isNamePart_eq_false.2 stands.opens, stands.whole, reads]
  simp only [Bool.false_eq_true, if_false, Option.bind_eq_bind, Option.bind_some, takes, colon]
  rw [stands.code, stands.colon, annotates_eq_false.2 stands.binds, isEmpty_trim_eq_false.2 stands.some_,
    ← stands.value]
  rfl

theorem exists_stands_of_at? {column : Nat}
    (found : at? scan column (line.take column).getLast? (line.drop column) = some binding) :
    binding.column = column ∧ ∃ gap after, Stands scan line binding gap after := by
  rw [at?] at found
  obtain ⟨opens, found⟩ := Option.ite_none_left_eq_some.1 found
  obtain ⟨⟨name, tail⟩, reads, found⟩ := Option.bind_eq_some_iff.1 found
  obtain ⟨after, colon, found⟩ := Option.bind_eq_some_iff.1 found
  obtain ⟨holds, found⟩ := Option.ite_none_right_eq_some.1 found
  obtain rfl := Option.some.inj found
  simp only [Bool.and_eq_true, Bool.not_eq_true'] at holds
  obtain ⟨⟨⟨code, coded⟩, binds⟩, some_⟩ := holds
  have split : tail = tail.takeWhile isAsciiBlank ++ ':' :: after := eq_of_after?_dropWhile colon
  have blanks : ∀ c ∈ tail.takeWhile isAsciiBlank, isAsciiBlank c = true := fun c => List.mem_takeWhile_imp
  have whole := (Name.read?_eq_some.1 reads).1
  refine ⟨rfl, tail.takeWhile isAsciiBlank, after, any_isNamePart_eq_false.1 (by simpa using opens), ?_, ?_, blanks,
    code, coded, annotates_eq_false.1 binds, rfl, isEmpty_trim_eq_false.1 some_⟩
  · rw [whole, split]
    exact Name.leads_of_ends (Name.formed_of_read? reads) (ends_of_blanks blanks after)
  · rw [whole]
    exact congrArg (name ++ ·) split

theorem at?_eq_some_iff {column : Nat} :
    at? scan column (line.take column).getLast? (line.drop column) = some binding ↔
      binding.column = column ∧ ∃ gap after, Stands scan line binding gap after := by
  refine ⟨exists_stands_of_at?, ?_⟩
  rintro ⟨rfl, gap, after, stands⟩
  exact stands.at?_eq

theorem lt_of_drop {place : Nat} {name gap after : List Char}
    (whole : line.drop place = name ++ (gap ++ ':' :: after)) : place < line.length := by
  by_contra beyond
  rw [List.drop_eq_nil_of_le (Nat.le_of_not_lt beyond)] at whole
  simp at whole

theorem ofLine?_eq_some_iff : ofLine? scan line = some binding ↔
    (∃ gap after, Stands scan line binding gap after) ∧
      ∀ other gap after, Stands scan line other gap after → binding.column ≤ other.column := by
  rw [ofLine?, firstPlace_eq_some]
  constructor
  · rintro ⟨place, -, found, fails⟩
    obtain ⟨rfl, exists_⟩ := at?_eq_some_iff.1 found
    refine ⟨exists_, fun other gap after stands => ?_⟩
    by_contra before
    have missed := fails other.column (Nat.lt_of_not_le before)
    rw [stands.at?_eq] at missed
    contradiction
  · rintro ⟨⟨gap, after, stands⟩, first⟩
    refine ⟨binding.column, lt_of_drop stands.whole, stands.at?_eq, fun earlier before => ?_⟩
    by_contra found
    obtain ⟨other, found⟩ := Option.ne_none_iff_exists'.1 found
    obtain ⟨rfl, gap, after, stands⟩ := at?_eq_some_iff.1 found
    exact absurd (first other gap after stands) (Nat.not_le_of_lt before)

theorem ofLine?_eq_none_iff : ofLine? scan line = none ↔
    ∀ binding gap after, ¬ Stands scan line binding gap after := by
  rw [ofLine?, firstPlace_eq_none]
  constructor
  · intro fails binding gap after stands
    have missed := fails binding.column (lt_of_drop stands.whole)
    rw [stands.at?_eq] at missed
    contradiction
  · intro none_ place inside
    by_contra found
    obtain ⟨binding, found⟩ := Option.ne_none_iff_exists'.1 found
    obtain ⟨rfl, gap, after, stands⟩ := at?_eq_some_iff.1 found
    exact none_ binding gap after stands

end Places

/-- What a pattern takes for a label: a name of the grammar, blanks, a colon, blanks and a value. -/
structure Label where
  name : List Char
  gap : List Char
  lead : List Char
  value : List Char

namespace Label

/-- A label is matched at a place and takes the rest of the line. Its name, its blanks and those before its value may
end anywhere. -/
structure Matches (label : Label) (line : List Char) (place : Nat) : Prop where
  opens : ∀ c ∈ (line.take place).getLast?, isNamePart c = false
  whole : line.drop place = label.name ++ (label.gap ++ ':' :: (label.lead ++ label.value))
  formed : Name.Formed label.name
  gap : ∀ c ∈ label.gap, isAsciiBlank c = true
  lead : ∀ c ∈ label.lead, isAsciiBlank c = true
  some_ : label.value ≠ []

def stop (label : Label) (place : Nat) : Nat := place + label.name.length

def colon (label : Label) (line : List Char) (place : Nat) : Nat :=
  label.stop place + (line.drop (label.stop place)).idxOf ':'

structure Binds (label : Label) (scan : Scan) (line : List Char) (place : Nat) : Prop where
  code : scan.codeAt place = true
  colon : scan.codeAt (label.colon line place) = true
  binds : ¬ (label.stop place < label.colon line place ∧
    (line.drop (label.colon line place + 1)).head?.any isLetter = true)
  some_ : trim label.value ≠ []

def binding (label : Label) (place : Nat) : Binding := ⟨label.name, place, trim label.value⟩

structure Next (label : Label) (line : List Char) (start place : Nat) : Prop where
  matched : label.Matches line place
  low : start ≤ place
  first : ∀ earlier, start ≤ earlier → earlier < place → ∀ other : Label, ¬ other.Matches line earlier

end Label

/-- The search of a line from a place on: a match that makes no binding is passed over by one character. -/
inductive Search (scan : Scan) (line : List Char) : Nat → Option Binding → Prop where
  | absent {start : Nat} : (∀ place, start ≤ place → ∀ label : Label, ¬ label.Matches line place) →
      Search scan line start none
  | bound {start place : Nat} {label : Label} : label.Next line start place → label.Binds scan line place →
      Search scan line start (some (label.binding place))
  | passed {start place : Nat} {label : Label} {result : Option Binding} : label.Next line start place →
      ¬ label.Binds scan line place → Search scan line (place + 1) result → Search scan line start result

section Searching

variable {scan : Scan} {line : List Char} {place : Nat} {label : Label}

theorem Label.Matches.read?_eq (matched : label.Matches line place) :
    Name.read? (line.drop place) = some (label.name, label.gap ++ ':' :: (label.lead ++ label.value)) := by
  rw [matched.whole]
  exact matched.formed.read?_eq (ends_of_blanks matched.gap _)

theorem Label.Matches.unique {other : Label} (first : label.Matches line place) (second : other.Matches line place) :
    label.name = other.name ∧ label.gap = other.gap ∧ label.lead ++ label.value = other.lead ++ other.value := by
  obtain ⟨name, tail⟩ := Prod.mk.inj (Option.some.inj (first.read?_eq.symm.trans second.read?_eq))
  obtain ⟨gap, after⟩ := after?_of_blanks first.gap (label.lead ++ label.value)
  obtain ⟨other_gap, other_after⟩ := after?_of_blanks second.gap (other.lead ++ other.value)
  rw [tail] at gap after
  exact ⟨name, gap.symm.trans other_gap, Option.some.inj (after.symm.trans other_after)⟩

theorem Label.Matches.trim_eq (matched : label.Matches line place) :
    trim (label.lead ++ label.value) = trim label.value :=
  trim_blanks_append (fun c member => isBlank_of_isAsciiBlank (matched.lead c member)) _

theorem Label.Matches.colon_eq (matched : label.Matches line place) :
    label.colon line place = place + label.name.length + label.gap.length ∧
      line.drop (label.colon line place + 1) = label.lead ++ label.value := by
  have behind : line.drop (label.stop place) = label.gap ++ ':' :: (label.lead ++ label.value) := by
    rw [stop, ← List.drop_drop, matched.whole, List.drop_left]
  have outside : ':' ∉ label.gap := fun member => absurd (matched.gap ':' member) (by decide)
  have here : label.colon line place = label.stop place + label.gap.length := by
    rw [colon, behind, List.idxOf_append_of_notMem outside, List.idxOf_cons_self, Nat.add_zero]
  refine ⟨here, ?_⟩
  rw [here, Nat.add_assoc, ← List.drop_drop, behind, ← List.drop_drop, List.drop_left]
  rfl

theorem Label.Matches.binds_iff (matched : label.Matches line place) : label.Binds scan line place ↔
    Stands scan line (label.binding place) label.gap (label.lead ++ label.value) := by
  obtain ⟨colon, after⟩ := matched.colon_eq
  have value := matched.trim_eq
  have annotated : ¬ (label.stop place < label.colon line place ∧
      (line.drop (label.colon line place + 1)).head?.any isLetter = true) ↔
        label.gap = [] ∨ ∀ c ∈ (label.lead ++ label.value).head?, isLetter c = false := by
    rw [after, colon, stop, ← annotates_eq_false, annotates]
    cases label.gap <;> simp
  have solid : trim label.value ≠ [] ↔ ¬ Blanks (label.lead ++ label.value) := by
    rw [← isEmpty_trim_eq_false, value, ne_eq, ← List.isEmpty_iff, Bool.not_eq_true]
  constructor
  · intro binds
    refine ⟨matched.opens, ?_, matched.whole, matched.gap, binds.code, colon ▸ binds.colon, annotated.1 binds.binds,
      value.symm, solid.1 binds.some_⟩
    have leads := Name.leads_of_ends matched.formed (ends_of_blanks matched.gap (label.lead ++ label.value))
    rwa [← matched.whole] at leads
  · intro stands
    exact ⟨stands.code, colon ▸ stands.colon, annotated.2 stands.binds, solid.2 stands.some_⟩

theorem Label.Matches.binds_of_binds {other : Label} (first : label.Matches line place)
    (second : other.Matches line place) (binds : label.Binds scan line place) : other.Binds scan line place := by
  obtain ⟨name, gap, after⟩ := first.unique second
  have same : label.binding place = other.binding place := by
    rw [binding, binding, name, ← first.trim_eq, ← second.trim_eq, after]
  rw [second.binds_iff, ← same, ← gap, ← after]
  exact first.binds_iff.1 binds

theorem Stands.exists_label {binding : Binding} {gap after : List Char} (stands : Stands scan line binding gap after) :
    ∃ label : Label, label.Matches line binding.column ∧ label.Binds scan line binding.column ∧
      label.binding binding.column = binding := by
  have some_ : after ≠ [] := by
    rintro rfl
    exact stands.some_ blanks_nil
  have matched : Label.Matches ⟨binding.name, gap, [], after⟩ line binding.column :=
    ⟨stands.opens, stands.whole, stands.named.formed, stands.blanks, List.forall_mem_nil _, some_⟩
  have same : Label.binding ⟨binding.name, gap, [], after⟩ binding.column = binding := by
    rw [Label.binding, ← stands.value]
  exact ⟨_, matched, matched.binds_iff.2 (same.symm ▸ stands), same⟩

def IsFirst (scan : Scan) (line : List Char) (start : Nat) : Option Binding → Prop
  | none => ∀ binding gap after, Stands scan line binding gap after → binding.column < start
  | some binding => (∃ gap after, Stands scan line binding gap after) ∧ start ≤ binding.column ∧
    ∀ other gap after, Stands scan line other gap after → start ≤ other.column → binding.column ≤ other.column

theorem isFirst_zero_iff {result : Option Binding} : IsFirst scan line 0 result ↔ ofLine? scan line = result := by
  cases result with
  | none => simp [IsFirst, ofLine?_eq_none_iff]
  | some binding => simp [IsFirst, ofLine?_eq_some_iff]

theorem Label.Next.lt_of_not_binds {start : Nat} (next : label.Next line start place)
    (fails : ¬ label.Binds scan line place) {other : Binding} {gap after : List Char}
    (stands : Stands scan line other gap after) (low : start ≤ other.column) : place < other.column := by
  obtain ⟨found, matched, binds, -⟩ := stands.exists_label
  obtain earlier | same | later := Nat.lt_trichotomy other.column place
  · exact absurd matched (next.first _ low earlier found)
  · rw [same] at matched binds
    exact absurd (matched.binds_of_binds next.matched binds) fails
  · exact later

theorem Search.isFirst {start : Nat} {result : Option Binding} (search : Search scan line start result) :
    IsFirst scan line start result := by
  induction search with
  | absent none_ =>
    intro binding gap after stands
    obtain ⟨label, matched, -⟩ := stands.exists_label
    by_contra low
    exact none_ _ (Nat.le_of_not_lt low) label matched
  | bound next binds =>
    refine ⟨⟨_, _, next.matched.binds_iff.1 binds⟩, next.low, fun other gap after stands low => ?_⟩
    obtain ⟨label, matched, -⟩ := stands.exists_label
    by_contra earlier
    exact next.first _ low (Nat.lt_of_not_le earlier) label matched
  | @passed start place label result next fails _ ih =>
    cases result with
    | none =>
      intro binding gap after stands
      by_contra low
      have later := next.lt_of_not_binds fails stands (Nat.le_of_not_lt low)
      exact absurd (ih binding gap after stands) (by omega)
    | some binding =>
      obtain ⟨stands, low, first⟩ := ih
      exact ⟨stands, Nat.le_trans next.low (Nat.le_of_succ_le low), fun other gap after stands low =>
        first other gap after stands (next.lt_of_not_binds fails stands low)⟩

theorem exists_search (scan : Scan) (line : List Char) (start : Nat) : ∃ result, Search scan line start result := by
  classical
  induction size : line.length - start using Nat.strong_induction_on generalizing start with
  | h size ih =>
  subst size
  by_cases found : ∃ place, start ≤ place ∧ ∃ label : Label, label.Matches line place
  · obtain ⟨low, label, matched⟩ := Nat.find_spec found
    have next : label.Next line start (Nat.find found) :=
      ⟨matched, low, fun earlier low before other matches_ => Nat.find_min found before ⟨low, other, matches_⟩⟩
    by_cases binds : label.Binds scan line (Nat.find found)
    · exact ⟨_, .bound next binds⟩
    · have inside := lt_of_drop matched.whole
      have shorter : line.length - (Nat.find found + 1) < line.length - start := by omega
      obtain ⟨result, search⟩ := ih _ shorter _ rfl
      exact ⟨result, .passed next binds search⟩
  · exact ⟨none, .absent fun place low label matched => found ⟨place, low, label, matched⟩⟩

end Searching

/-- The search of a line for its binding ends with the leftmost binding that stands in the line, and without one
exactly where none does. -/
theorem ofLine?_leftmost (scan : Scan) (line : List Char) :
    (∀ result, Search scan line 0 result ↔ ofLine? scan line = result) ∧
      (∀ binding, ofLine? scan line = some binding ↔ (∃ gap after, Stands scan line binding gap after) ∧
        ∀ other gap after, Stands scan line other gap after → binding.column ≤ other.column) ∧
      (ofLine? scan line = none ↔ ∀ binding gap after, ¬ Stands scan line binding gap after) := by
  refine ⟨fun result => ⟨fun search => isFirst_zero_iff.1 search.isFirst, ?_⟩, fun _ => ofLine?_eq_some_iff,
    ofLine?_eq_none_iff⟩
  rintro rfl
  obtain ⟨result, search⟩ := exists_search scan line 0
  rwa [isFirst_zero_iff.1 search.isFirst]

example : let text := "x :integer \"a: 1\" y?  : 5 ".toList
    ofLine? (scanLine .none text) text = some ⟨"y?".toList, 18, ['5']⟩ := by decide

end Binding

end ArturoInsight
