import ArturoInsight.Lexical.Scan
import Mathlib.Data.List.Chain
import Mathlib.Tactic.SplitIfs

/-! The spans of a line: they lie side by side from its start to its end, and each goes as far as its tag
does. -/

namespace ArturoInsight.Lexical

namespace Span

def Joins (left right : Span) : Prop := left.stop = right.start ∧ left.tag ≠ right.tag

end Span

namespace Scan

/-- The spans of a line cover it from its start to its end, in order and without an overlap. -/
structure Tiled (scan : Scan) : Prop where
  nonempty : ∀ span ∈ scan.spans, span.start < span.stop
  within : ∀ span ∈ scan.spans, 0 ≤ span.start ∧ span.stop ≤ scan.tags.length
  first : ∀ span ∈ scan.spans.head?, span.start = 0
  last : ∀ span ∈ scan.spans.getLast?, span.stop = scan.tags.length
  joined : scan.spans.IsChain Span.Joins
  covered : ∀ column < scan.tags.length, ∃ span ∈ scan.spans, span.contains column = true
  tagged : ∀ span ∈ scan.spans, ∀ offset, span.contains offset = true → scan.tagAt offset = span.tag

section Tags

variable (start column : Nat) (tag : Tag) (tags : List Tag)

theorem exists_spansFrom : ∃ stop more, spansFrom start column tag tags = ⟨start, stop, tag⟩ :: more := by
  induction tags generalizing column with
  | nil => exact ⟨column, [], rfl⟩
  | cons next rest ih =>
    rw [spansFrom]
    split_ifs
    · exact ih (column + 1)
    · exact ⟨column, _, rfl⟩

theorem isChain_spansFrom : (spansFrom start column tag tags).IsChain Span.Joins := by
  induction tags generalizing start column tag with
  | nil => exact .singleton _
  | cons next rest ih =>
    rw [spansFrom]
    split_ifs with same
    · exact ih start (column + 1) tag
    · have later := ih column (column + 1) next
      obtain ⟨stop, more, whole⟩ := exists_spansFrom column (column + 1) next rest
      rw [whole] at later ⊢
      exact .cons_cons ⟨rfl, fun equal => same equal.symm⟩ later

theorem getLast?_spansFrom :
    ∀ span ∈ (spansFrom start column tag tags).getLast?, span.stop = column + tags.length := by
  induction tags generalizing start column tag with
  | nil => simp [spansFrom]
  | cons next rest ih =>
    have place : (column : Int) + (next :: rest).length = (column + 1 : Nat) + rest.length := by
      rw [List.length_cons]
      omega
    rw [place, spansFrom]
    split_ifs
    · exact ih start (column + 1) tag
    · have later := ih column (column + 1) next
      obtain ⟨stop, more, whole⟩ := exists_spansFrom column (column + 1) next rest
      rw [whole] at later ⊢
      rwa [List.getLast?_cons_cons]

def Stretch (all : List Tag) : Prop :=
  ∀ place, start ≤ place → all[place]? = if place < column then some tag else tags[place - column]?

variable {start column tag tags} {all : List Tag}

theorem Stretch.tag_of_contains {tags : List Tag} (stretch : Stretch start column tag tags all) {place : Nat}
    (inside : Span.contains ⟨start, column, tag⟩ place = true) : all[place]? = some tag := by
  simp only [Span.contains, Bool.and_eq_true, decide_eq_true_eq] at inside
  rw [stretch place (by omega), if_pos (by omega)]

theorem Stretch.getElem?_next {next : Tag} {rest : List Tag} (stretch : Stretch start column tag (next :: rest) all)
    (before : start ≤ column) {place : Nat} (later : column ≤ place) :
    all[place]? = if place < column + 1 then some next else rest[place - (column + 1)]? := by
  rw [stretch place (by omega), if_neg (by omega)]
  split_ifs with here
  · rw [show place - column = 0 by omega, List.getElem?_cons_zero]
  · rw [show place - column = place - (column + 1) + 1 by omega, List.getElem?_cons_succ]

theorem Stretch.of_mem (stretch : Stretch start column tag tags all) (before : start < column) {span : Span}
    (member : span ∈ spansFrom start column tag tags) : start ≤ span.start ∧ span.start < span.stop ∧
      ∀ place : Nat, span.contains place = true → all[place]? = some span.tag := by
  induction tags generalizing start column tag with
  | nil =>
    obtain rfl := List.mem_singleton.1 member
    exact ⟨Int.le_refl _, Int.ofNat_lt.2 before, fun place => stretch.tag_of_contains⟩
  | cons next rest ih =>
    rw [spansFrom] at member
    split_ifs at member with same
    · apply ih ?_ (Nat.lt_succ_of_lt before) member
      intro place high
      by_cases low : place < column
      · rw [stretch place high, if_pos low, if_pos (Nat.lt_succ_of_lt low)]
      · rw [← same]
        exact stretch.getElem?_next (Nat.le_of_lt before) (Nat.le_of_not_lt low)
    · obtain rfl | further := List.mem_cons.1 member
      · exact ⟨Int.le_refl _, Int.ofNat_lt.2 before, fun place => stretch.tag_of_contains⟩
      · have more : Stretch column (column + 1) next rest all :=
          fun place => stretch.getElem?_next (Nat.le_of_lt before)
        obtain ⟨low, nonempty, tagged⟩ := ih more (Nat.lt_succ_self column) further
        exact ⟨by omega, nonempty, tagged⟩

theorem exists_mem_spansFrom {place : Nat} (low : start ≤ place) (high : place < column + tags.length) :
    ∃ span ∈ spansFrom start column tag tags, span.contains place = true := by
  induction tags generalizing start column tag with
  | nil =>
    refine ⟨_, List.mem_singleton_self _, ?_⟩
    simp only [List.length_nil] at high
    simp only [Span.contains, Bool.and_eq_true, decide_eq_true_eq]
    omega
  | cons next rest ih =>
    rw [List.length_cons] at high
    rw [spansFrom]
    split_ifs
    · exact ih low (by omega)
    · by_cases here : place < column
      · refine ⟨_, List.mem_cons_self, ?_⟩
        simp only [Span.contains, Bool.and_eq_true, decide_eq_true_eq]
        omega
      · obtain ⟨span, member, inside⟩ := ih (Nat.le_of_not_lt here) (by omega : place < column + 1 + rest.length)
        exact ⟨span, List.mem_cons_of_mem _ member, inside⟩

end Tags

theorem tagAt_of_getElem? {scan : Scan} {place : Nat} {tag : Tag} (found : scan.tags[place]? = some tag) :
    scan.tagAt place = tag := by
  rw [tagAt, List.getD_eq_getElem?_getD, Int.toNat_natCast, found]
  rfl

theorem tiled (scan : Scan) : scan.Tiled := by
  cases tags : scan.tags with
  | nil =>
    have none : scan.spans = [] := by rw [spans, tags]
    constructor <;> simp [none, tags]
  | cons tag rest =>
    have whole : scan.spans = spansFrom 0 1 tag rest := by rw [spans, tags]
    have length : scan.tags.length = 1 + rest.length := by rw [tags, List.length_cons, Nat.add_comm]
    have stretch : Stretch 0 1 tag rest scan.tags := by
      intro place _
      rw [tags]
      cases place with
      | zero => rfl
      | succ place => rw [if_neg (by omega), Nat.add_sub_cancel, List.getElem?_cons_succ]
    constructor <;> rw [whole]
    case nonempty => exact fun span member => (stretch.of_mem Nat.one_pos member).2.1
    case within =>
      intro span member
      obtain ⟨low, nonempty, tagged⟩ := stretch.of_mem Nat.one_pos member
      obtain ⟨place, last⟩ : ∃ place : Nat, span.stop = place + 1 := ⟨(span.stop - 1).toNat, by omega⟩
      have inside : span.contains place = true := by
        simp only [Span.contains, Bool.and_eq_true, decide_eq_true_eq]
        omega
      have bound := (List.getElem?_eq_some_iff.1 (tagged place inside)).1
      omega
    case first =>
      obtain ⟨stop, more, parts⟩ := exists_spansFrom 0 1 tag rest
      rw [parts]
      simp
    case last =>
      intro span last
      rw [getLast?_spansFrom 0 1 tag rest span last, length]
      rfl
    case joined => exact isChain_spansFrom 0 1 tag rest
    case covered =>
      intro column inside
      exact exists_mem_spansFrom (Nat.zero_le column) (by omega)
    case tagged =>
      intro span member offset inside
      obtain ⟨low, -, tagged⟩ := stretch.of_mem Nat.one_pos member
      obtain ⟨place, rfl⟩ : ∃ place : Nat, offset = place := by
        simp only [Span.contains, Bool.and_eq_true, decide_eq_true_eq] at inside
        exact ⟨offset.toNat, by omega⟩
      exact tagAt_of_getElem? (tagged place inside)

end Scan

theorem Span.pairwise_of_joins {spans : List Span} (nonempty : ∀ span ∈ spans, span.start < span.stop)
    (joined : spans.IsChain Span.Joins) : spans.Pairwise fun left right => left.stop ≤ right.start := by
  induction spans with
  | nil => exact .nil
  | cons span rest ih =>
    have later := ih (List.forall_mem_cons.1 nonempty).2 joined.tail
    refine List.pairwise_cons.2 ⟨fun other member => ?_, later⟩
    cases rest with
    | nil => contradiction
    | cons next more =>
      have meets : span.stop = next.start := (List.isChain_cons_cons.1 joined).1.1
      obtain rfl | further := List.mem_cons.1 member
      · exact Int.le_of_eq meets
      · have positive := nonempty next (by simp)
        have apart := (List.pairwise_cons.1 later).1 other further
        omega

end ArturoInsight.Lexical
