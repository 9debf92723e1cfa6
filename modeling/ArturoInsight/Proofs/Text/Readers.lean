import ArturoInsight.Text.Cut
import Mathlib.Data.List.Basic
import Mathlib.Data.List.DropRight
import Mathlib.Data.List.TakeWhile
import Mathlib.Tactic.SplitIfs

/-! Runs of blanks, and replacement of the matches of a reader: what a match covers is skipped, and
the text after it is taken up again with the last covered character before it. -/

namespace ArturoInsight.Text

instance (priority := high) decidableForallMem {p : Char → Prop} [DecidablePred p] (text : List Char) :
    Decidable (∀ c ∈ text, p c) := List.decidableBAll p text

abbrev Blanks (text : List Char) : Prop := ∀ c ∈ text, isBlank c = true

theorem blanks_nil : Blanks [] := List.forall_mem_nil _

theorem blanks_one : Blanks [' '] := by decide

theorem getElem?_append_length {α : Type} (front back : List α) : (front ++ back)[front.length]? = back.head? := by
  rw [List.getElem?_append_right le_rfl, Nat.sub_self, List.head?_eq_getElem?]

theorem getLast?_cons_or {α : Type} (before : Option α) (c : α) (front : List α) :
    (c :: front).getLast?.or before = front.getLast?.or (some c) := by
  cases front <;> simp [List.getLast?_cons]

theorem any_getLast?_append_takeWhile {holds : Char → Bool} {text : List Char}
    (some_ : (text.takeWhile holds).isEmpty = false) (front : List Char) :
    (front ++ text.takeWhile holds).getLast?.any holds = true := by
  have run : text.takeWhile holds ≠ [] := by simpa using some_
  rw [List.getLast?_append_of_ne_nil front run, List.getLast?_eq_some_getLast run, Option.any_some]
  exact List.mem_takeWhile_imp (List.getLast_mem run)

/-- A place of a part of a text, counted from the start of the text. -/
theorem getElem?_append_within {α : Type} {front word back : List α} {place : Nat} (inside : place < word.length) :
    (front ++ (word ++ back))[front.length + place]? = some word[place] := by
  rw [List.getElem?_append_right (Nat.le_add_right _ _), Nat.add_sub_cancel_left, List.getElem?_append_left inside,
    List.getElem?_eq_getElem inside]

section Runs

variable {holds : Char → Bool} {run rest : List Char} (all : ∀ c ∈ run, holds c = true)
  (stops : ∀ c ∈ rest.head?, holds c = false)

include all stops

theorem takeWhile_run : (run ++ rest).takeWhile holds = run := by
  rw [List.takeWhile_append_of_pos all]
  cases rest with
  | nil => simp
  | cons c rest => simp [stops c rfl]

theorem dropWhile_run : (run ++ rest).dropWhile holds = rest := by
  rw [List.dropWhile_append_of_pos all]
  cases rest with
  | nil => rfl
  | cons c rest => simp [stops c rfl]

end Runs

/-- A run that may end before a text does goes no further where the next character stops it. -/
theorem takeWhile_append_stop {holds : Char → Bool} {rest : List Char} (text : List Char)
    (stops : ∀ c ∈ rest.head?, holds c = false) : (text ++ rest).takeWhile holds = text.takeWhile holds ∧
      (text ++ rest).dropWhile holds = text.dropWhile holds ++ rest := by
  induction text with
  | nil => exact ⟨takeWhile_run (List.forall_mem_nil _) stops, dropWhile_run (List.forall_mem_nil _) stops⟩
  | cons c text ih =>
    cases held : holds c with
    | true => simp [held, ih]
    | false => simp [held]

theorem trimStart_run {gap rest : List Char} (blanks : Blanks gap)
    (stops : ∀ c ∈ rest.head?, isBlank c = false) : trimStart (gap ++ rest) = rest :=
  dropWhile_run blanks stops

theorem trimStart_cons {c : Char} (solid : isBlank c = false) (rest : List Char) :
    trimStart (c :: rest) = c :: rest := by
  simp [trimStart, solid]

theorem trimStart_blanks {gap : List Char} (blanks : Blanks gap) : trimStart gap = [] := by
  rw [← List.append_nil gap]
  exact trimStart_run blanks (by simp)

theorem trimEnd_append_blanks {gap : List Char} (blanks : Blanks gap) (text : List Char) :
    trimEnd (text ++ gap) = trimEnd text := by
  rw [trimEnd, List.reverse_append, List.dropWhile_append_of_pos (by simpa using blanks)]
  rfl

/-- A text is the longest run of a class of characters and what remains. -/
theorem exists_run (holds : Char → Bool) (text : List Char) : ∃ run rest, text = run ++ rest ∧
    (∀ c ∈ run, holds c = true) ∧ ∀ c ∈ rest.head?, holds c = false := by
  induction text with
  | nil => exact ⟨[], [], rfl, by simp, by simp⟩
  | cons c text ih =>
    cases held : holds c with
    | false => exact ⟨[], c :: text, rfl, by simp, by simpa using held⟩
    | true =>
      obtain ⟨run, rest, rfl, all, stops⟩ := ih
      exact ⟨c :: run, rest, rfl, List.forall_mem_cons.2 ⟨held, all⟩, stops⟩

theorem trim_append_blanks {gap : List Char} (blanks : Blanks gap) (text : List Char) :
    trim (text ++ gap) = trim text := by
  obtain ⟨run, rest, rfl, all, stops⟩ := exists_run isBlank text
  cases rest with
  | nil =>
    have nothing : Blanks (run ++ gap) := List.forall_mem_append.2 ⟨all, blanks⟩
    rw [List.append_nil, trim, trim, trimStart_blanks nothing, trimStart_blanks all]
  | cons c rest =>
    rw [trim, trim, List.append_assoc, List.cons_append, trimStart_run all (by simpa using stops c rfl),
      trimStart_run all stops, ← List.cons_append, trimEnd_append_blanks blanks]

/-- A text is blanks, then nothing or a character that is none. -/
theorem exists_gap (text : List Char) : ∃ gap, Blanks gap ∧
    (text = gap ∨ ∃ c rest, isBlank c = false ∧ text = gap ++ c :: rest) := by
  obtain ⟨gap, rest, whole, blanks, stops⟩ := exists_run isBlank text
  refine ⟨gap, blanks, ?_⟩
  cases rest with
  | nil => exact .inl (by simpa using whole)
  | cons c rest => exact .inr ⟨c, rest, stops c rfl, whole⟩

theorem isBlank_of_isAsciiBlank {c : Char} (ascii : isAsciiBlank c = true) : isBlank c = true := by
  simp [isBlank, ascii]

def solids (text : List Char) : List Char := text.filter (!isBlank ·)

theorem solids_append (first second : List Char) :
    solids (first ++ second) = solids first ++ solids second := List.filter_append ..

theorem solids_cons (c : Char) (rest : List Char) :
    solids (c :: rest) = if isBlank c then solids rest else c :: solids rest := by
  cases blank : isBlank c <;> simp [solids, blank]

theorem solids_eq_nil {text : List Char} : solids text = [] ↔ Blanks text := by
  simp [solids]

theorem solids_trimStart (text : List Char) : solids (trimStart text) = solids text := by
  obtain ⟨gap, rest, rfl, blanks, stops⟩ := exists_run isBlank text
  rw [trimStart_run blanks stops, solids_append, solids_eq_nil.2 blanks, List.nil_append]

theorem run?_eq (holds : Char → Bool) (text : List Char) :
    run? holds text = if (text.takeWhile holds).isEmpty then none
      else some (text.takeWhile holds, text.dropWhile holds) := by
  unfold run?
  cases text.takeWhile holds <;> rfl

theorem run?_append {holds : Char → Bool} {rest : List Char} (stops : ∀ c ∈ rest.head?, holds c = false)
    (text : List Char) : run? holds (text ++ rest) = (run? holds text).map fun (run, tail) => (run, tail ++ rest) := by
  obtain ⟨takes, drops⟩ := takeWhile_append_stop text stops
  rw [run?_eq, run?_eq, takes, drops]
  split_ifs <;> rfl

theorem run?_eq_some {holds : Char → Bool} {text run rest : List Char} : run? holds text = some (run, rest) ↔
    text = run ++ rest ∧ run ≠ [] ∧ (∀ c ∈ run, holds c = true) ∧ ∀ c ∈ rest.head?, holds c = false := by
  rw [run?_eq]
  constructor
  · intro found
    split_ifs at found with empty
    obtain ⟨rfl, rfl⟩ := Prod.mk.inj (Option.some.inj found)
    refine ⟨List.takeWhile_append_dropWhile.symm, by simpa using empty, fun c => List.mem_takeWhile_imp, fun c head => ?_⟩
    obtain ⟨run, rest, rfl, all, stops⟩ := exists_run holds text
    rw [dropWhile_run all stops] at head
    exact stops c head
  · rintro ⟨rfl, some_, all, stops⟩
    rw [takeWhile_run all stops, dropWhile_run all stops, if_neg (by simpa using some_)]

theorem upTo?_eq_some {mark : Char} {text found rest : List Char} (read : upTo? mark text = some (found, rest)) :
    text = found ++ mark :: rest := by
  obtain ⟨run, tail, rfl, all, stops⟩ := exists_run (· != mark) text
  unfold upTo? at read
  rw [dropWhile_run all stops, takeWhile_run all stops] at read
  cases tail with
  | nil => contradiction
  | cons c tail =>
    obtain ⟨rfl, rfl⟩ := Prod.mk.inj (Option.some.inj read)
    have same : c = mark := by simpa using stops c rfl
    rw [same]

theorem upTo?_append {mark : Char} {text : List Char} (other : ∀ c ∈ text, c ≠ mark) (rest : List Char) :
    upTo? mark (text ++ mark :: rest) = some (text, rest) := by
  have differs : ∀ c ∈ text, (c != mark) = true := by simpa using other
  have stops : ∀ c ∈ (mark :: rest).head?, (c != mark) = false := by simp
  rw [upTo?, dropWhile_run differs stops, takeWhile_run differs stops]

theorem trimEnd_eq_nil {text : List Char} : trimEnd text = [] ↔ Blanks text := by
  simp [trimEnd, List.dropWhile_eq_nil_iff]

theorem trimEnd_blanks {gap : List Char} (blanks : Blanks gap) : trimEnd gap = [] := trimEnd_eq_nil.2 blanks

theorem trimEnd_append_cons {c : Char} (solid : isBlank c = false) (before rest : List Char) :
    trimEnd (before ++ c :: rest) = before ++ c :: trimEnd rest := by
  simp only [trimEnd, List.reverse_append, List.reverse_cons, List.dropWhile_append]
  cases rest.reverse.dropWhile isBlank <;> simp [solid]

theorem solids_trimEnd (text : List Char) : solids (trimEnd text) = solids text :=
  calc solids (trimEnd text) = (solids (trimStart text.reverse)).reverse := List.filter_reverse ..
    _ = (solids text.reverse).reverse := by rw [solids_trimStart]
    _ = solids text := by rw [solids, List.filter_reverse, List.reverse_reverse, solids]

theorem getLast?_trimEnd {text : List Char} {c : Char} (last : (trimEnd text).getLast? = some c) :
    isBlank c = false := by
  have some_ : text.rdropWhile isBlank ≠ [] := by
    intro none
    have none : trimEnd text = [] := none
    simp [none] at last
  have last : (text.rdropWhile isBlank).getLast? = some c := last
  rw [List.getLast?_eq_some_getLast some_, Option.some.injEq] at last
  simpa [last] using List.rdropWhile_last_not isBlank text some_

theorem exists_trimEnd (text : List Char) : ∃ gap, Blanks gap ∧ text = trimEnd text ++ gap := by
  refine ⟨(text.reverse.takeWhile isBlank).reverse, fun c member => ?_, ?_⟩
  · exact List.mem_takeWhile_imp (List.mem_reverse.1 member)
  · rw [trimEnd, ← List.reverse_append, List.takeWhile_append_dropWhile, List.reverse_reverse]

theorem mem_of_mem_trim {c : Char} {text : List Char} (member : c ∈ trim text) : c ∈ text := by
  obtain ⟨gap, -, whole⟩ := exists_trimEnd (trimStart text)
  have inside : c ∈ trimStart text := by
    rw [whole]
    exact List.mem_append_left gap member
  exact (List.dropWhile_suffix isBlank).subset inside

theorem solids_trim (text : List Char) : solids (trim text) = solids text := by
  rw [trim, solids_trimEnd, solids_trimStart]

theorem isEmpty_trim (text : List Char) : (trim text).isEmpty = (solids text).isEmpty := by
  rw [Bool.eq_iff_iff, List.isEmpty_iff, List.isEmpty_iff, trim, trimEnd_eq_nil, ← solids_eq_nil,
    solids_trimStart]

theorem isEmpty_trim_append {rest : List Char} (stops : ∀ c ∈ rest.head?, isBlank c = false) (text : List Char) :
    (trim (text ++ rest)).isEmpty = ((trim text).isEmpty && rest.isEmpty) := by
  rw [isEmpty_trim, isEmpty_trim, solids_append]
  cases rest with
  | nil => simp [solids]
  | cons c rest => simp [solids_cons, stops c rfl]

theorem trim_gap {gap : List Char} (blanks : Blanks gap) {c : Char} (solid : isBlank c = false) (rest : List Char) :
    trim (gap ++ c :: rest) = c :: trimEnd rest := by
  rw [trim, trimStart_run blanks (by simpa using solid)]
  exact trimEnd_append_cons solid [] rest

theorem trim_blanks_append {gap : List Char} (blanks : Blanks gap) (text : List Char) :
    trim (gap ++ text) = trim text := by
  rw [trim, trimStart, List.dropWhile_append_of_pos blanks]
  rfl

theorem trim_of_solid {text : List Char} (solid : ∀ c ∈ text, isBlank c = false) : trim text = text := by
  cases text with
  | nil => rfl
  | cons c rest =>
    obtain ⟨first, later⟩ := List.forall_mem_cons.1 solid
    obtain ⟨gap, blanks, whole⟩ := exists_trimEnd rest
    have none_ : gap = [] := by
      refine List.eq_nil_iff_forall_not_mem.2 fun d member => ?_
      have visible := later d (by rw [whole]; exact List.mem_append_right _ member)
      rw [blanks d member] at visible
      contradiction
    calc trim (c :: rest) = c :: trimEnd rest := trim_gap blanks_nil first rest
      _ = c :: rest := by rw [none_, List.append_nil] at whole; rw [← whole]

theorem trim_blanks {gap : List Char} (blanks : Blanks gap) : trim gap = [] := by
  rw [trim, trimStart_blanks blanks]
  rfl

theorem head?_trim (text : List Char) : (trim text).head? = (solids text).head? := by
  obtain ⟨gap, blanks, rfl | ⟨c, rest, solid, rfl⟩⟩ := exists_gap text
  · rw [trim_blanks blanks, solids_eq_nil.2 blanks]
  · rw [trim_gap blanks solid, solids_append, solids_eq_nil.2 blanks, solids_cons, solid]
    rfl

theorem trim_trim (text : List Char) : trim (trim text) = trim text := by
  obtain ⟨gap, blanks, rfl | ⟨c, rest, solid, rfl⟩⟩ := exists_gap text
  · rw [trim_blanks blanks, trim_blanks blanks_nil]
  · rw [trim_gap blanks solid]
    refine (trim_gap blanks_nil solid _).trans (congrArg _ ?_)
    exact List.rdropWhile_idempotent isBlank rest

theorem after?_eq_some {mark text tail : List Char} : after? mark text = some tail ↔ text = mark ++ tail := by
  unfold after?
  constructor
  · intro found
    split_ifs at found with starts
    obtain ⟨rest, rfl⟩ := List.isPrefixOf_iff_prefix.1 starts
    rw [List.drop_left, Option.some.injEq] at found
    rw [found]
  · rintro rfl
    rw [if_pos (List.isPrefixOf_iff_prefix.2 (List.prefix_append mark tail)), List.drop_left]

theorem eq_of_after?_dropWhile {holds : Char → Bool} {mark text tail : List Char}
    (found : after? mark (text.dropWhile holds) = some tail) : text = text.takeWhile holds ++ (mark ++ tail) := by
  rw [← after?_eq_some.1 found, List.takeWhile_append_dropWhile]

section Replacement

variable {read : Reader (List Char)}

theorem replaceFrom_skip (covered rest : List Char) (before : Option Char) :
    replaceFrom read covered.length before (covered ++ rest) =
      replaceFrom read 0 (covered.getLast?.or before) rest := by
  induction covered generalizing before with
  | nil => rfl
  | cons c covered ih =>
    rw [getLast?_cons_or, ← ih]
    rfl

theorem replaceFrom_none {before : Option Char} {c : Char} {rest : List Char}
    (fails : read before (c :: rest) = none) :
    replaceFrom read 0 before (c :: rest) = c :: replaceFrom read 0 (some c) rest := by
  simp [replaceFrom, fails]

theorem replaceFrom_some {before : Option Char} {covered rest written : List Char}
    (some_ : covered ≠ []) (reads : read before (covered ++ rest) = some (written, rest)) :
    replaceFrom read 0 before (covered ++ rest) =
      written ++ replaceFrom read 0 covered.getLast? rest := by
  obtain ⟨c, more, rfl⟩ := List.exists_cons_of_ne_nil some_
  rw [List.cons_append] at reads ⊢
  have width : (more ++ rest).length - rest.length = more.length := by simp
  simp only [replaceFrom, reads, width, replaceFrom_skip]
  cases more <;> simp [List.getLast?_cons]

end Replacement

section Finding

variable {α : Type} {read : Reader α}

theorem findsFrom_skip (column : Nat) (covered rest : List Char) (before : Option Char) :
    findsFrom read column covered.length before (covered ++ rest) =
      findsFrom read (column + covered.length) 0 (covered.getLast?.or before) rest := by
  induction covered generalizing column before with
  | nil => rfl
  | cons c covered ih =>
    have place : column + (c :: covered).length = column + 1 + covered.length := by
      rw [List.length_cons]
      omega
    rw [getLast?_cons_or, place, ← ih]
    rfl

theorem findsFrom_none {column : Nat} {before : Option Char} {c : Char} {rest : List Char}
    (fails : read before (c :: rest) = none) :
    findsFrom read column 0 before (c :: rest) = findsFrom read (column + 1) 0 (some c) rest := by
  simp [findsFrom, fails]

theorem findsFrom_some {column : Nat} {before : Option Char} {covered rest : List Char} {value : α}
    (some_ : covered ≠ []) (reads : read before (covered ++ rest) = some (value, rest)) :
    findsFrom read column 0 before (covered ++ rest) = ⟨column, column + covered.length, value⟩ ::
      findsFrom read (column + covered.length) 0 covered.getLast? rest := by
  obtain ⟨c, more, rfl⟩ := List.exists_cons_of_ne_nil some_
  have width : (more ++ rest).length + 1 - rest.length = (c :: more).length := by
    rw [List.length_append, List.length_cons]
    omega
  have place : column + (c :: more).length = column + 1 + more.length := by
    rw [List.length_cons]
    omega
  rw [List.cons_append] at reads ⊢
  simp only [findsFrom, reads, width]
  rw [List.length_cons, Nat.add_sub_cancel, findsFrom_skip, ← List.length_cons, place]
  cases more <;> simp [List.getLast?_cons]

theorem findsFrom_fails {column : Nat} {before : Option Char} {covered rest : List Char}
    (fails : ∀ front back, covered = front ++ back → back ≠ [] →
      read (front.getLast?.or before) (back ++ rest) = none) :
    findsFrom read column 0 before (covered ++ rest) =
      findsFrom read (column + covered.length) 0 (covered.getLast?.or before) rest := by
  induction covered generalizing column before with
  | nil => rfl
  | cons c covered ih =>
    have here := fails [] (c :: covered) rfl (by simp)
    rw [List.cons_append, findsFrom_none (by simpa using here), ih, getLast?_cons_or, List.length_cons]
    · congr 1
      omega
    · intro front back whole some_
      rw [← getLast?_cons_or before]
      exact fails (c :: front) back (by rw [whole, List.cons_append]) some_

/-- A match is what the reader takes where the match starts. -/
theorem exists_of_mem_findsFrom {column skip : Nat} {before : Option Char} {text : List Char}
    {found : Found α} (member : found ∈ findsFrom read column skip before text) :
    ∃ front back, text = front ++ back ∧ found.start = column + front.length ∧
      ∃ after, read (front.getLast?.or before) back = some (found.value, after) := by
  induction text generalizing column skip before with
  | nil =>
    unfold findsFrom at member
    split at member
    next reads =>
      obtain rfl := List.mem_singleton.1 member
      exact ⟨[], [], rfl, rfl, _, reads⟩
    · contradiction
  | cons c rest ih =>
    have later {skip : Nat} (member : found ∈ findsFrom read (column + 1) skip (some c) rest) :
        ∃ front back, c :: rest = front ++ back ∧ found.start = column + front.length ∧
          ∃ after, read (front.getLast?.or before) back = some (found.value, after) := by
      obtain ⟨front, back, rfl, start, after, reads⟩ := ih member
      exact ⟨c :: front, back, rfl, by rw [start, List.length_cons]; omega, after, by rwa [getLast?_cons_or]⟩
    cases skip with
    | succ skip => exact later member
    | zero =>
      cases reads : read before (c :: rest) with
      | none =>
        rw [findsFrom_none reads] at member
        exact later member
      | some result =>
        simp only [findsFrom, reads] at member
        obtain rfl | member := List.mem_cons.1 member
        · exact ⟨[], c :: rest, rfl, rfl, result.2, reads⟩
        · exact later member

theorem pairwise_findsFrom (column skip : Nat) (before : Option Char) (text : List Char) :
    (findsFrom read column skip before text).Pairwise (·.start < ·.start) ∧
      ∀ found ∈ findsFrom read column skip before text, column ≤ found.start := by
  induction text generalizing column skip before with
  | nil =>
    unfold findsFrom
    split <;> simp
  | cons c rest ih =>
    have later (skip : Nat) : ∀ found ∈ findsFrom read (column + 1) skip (some c) rest, column < found.start :=
      fun found member => (ih (column + 1) skip (some c)).2 found member
    cases skip with
    | succ skip => exact ⟨(ih _ _ _).1, fun found member => Nat.le_of_lt (later _ found member)⟩
    | zero =>
      cases reads : read before (c :: rest) with
      | none =>
        rw [findsFrom_none reads]
        exact ⟨(ih _ _ _).1, fun found member => Nat.le_of_lt (later _ found member)⟩
      | some result =>
        simp only [findsFrom, reads]
        refine ⟨List.pairwise_cons.2 ⟨later _, (ih _ _ _).1⟩, List.forall_mem_cons.2 ⟨le_rfl, ?_⟩⟩
        exact fun found member => Nat.le_of_lt (later _ found member)

theorem pairwise_findsFrom_apart {size : α → Nat} (takes : ∀ before text value after,
    read before text = some (value, after) → size value + after.length = text.length)
    (column skip : Nat) (before : Option Char) (text : List Char) :
    ((findsFrom read column skip before text).Pairwise fun left right => left.start + size left.value ≤ right.start) ∧
      ∀ found ∈ findsFrom read column skip before text, column + skip ≤ found.start := by
  induction text generalizing column skip before with
  | nil =>
    unfold findsFrom
    split <;> simp
  | cons c rest ih =>
    cases skip with
    | succ skip =>
      refine ⟨(ih _ _ _).1, fun found member => ?_⟩
      have later := (ih (column + 1) skip (some c)).2 found member
      omega
    | zero =>
      cases reads : read before (c :: rest) with
      | none =>
        rw [findsFrom_none reads]
        exact ⟨(ih _ _ _).1, fun found member => Nat.le_of_succ_le ((ih _ _ _).2 found member)⟩
      | some result =>
        obtain ⟨value, after⟩ := result
        have width := takes _ _ _ _ reads
        rw [List.length_cons] at width
        simp only [findsFrom, reads]
        refine ⟨List.pairwise_cons.2 ⟨fun found member => ?_, (ih _ _ _).1⟩,
          List.forall_mem_cons.2 ⟨le_rfl, fun found member => ?_⟩⟩
        · have later := (ih (column + 1) _ (some c)).2 found member
          simp only
          omega
        · have later := (ih (column + 1) _ (some c)).2 found member
          omega

theorem stop_of_mem_findsFrom {size : α → Nat} (takes : ∀ before text value after,
    read before text = some (value, after) → size value + after.length = text.length)
    {column skip : Nat} {before : Option Char} {text : List Char} {found : Found α}
    (member : found ∈ findsFrom read column skip before text) : found.stop = found.start + size found.value := by
  induction text generalizing column skip before with
  | nil =>
    unfold findsFrom at member
    split at member
    next reads =>
      have width := takes _ _ _ _ reads
      rw [List.length_nil] at width
      rw [List.mem_singleton.1 member]
      dsimp only
      omega
    · contradiction
  | cons c rest ih =>
    cases skip with
    | succ skip => exact ih member
    | zero =>
      cases reads : read before (c :: rest) with
      | none =>
        rw [findsFrom_none reads] at member
        exact ih member
      | some result =>
        have width := takes _ _ _ _ reads
        simp only [findsFrom, reads] at member
        rcases List.mem_cons.1 member with same | later
        · rw [List.length_cons] at width
          rw [same]
          dsimp only
          omega
        · exact ih later

theorem exists_of_mem_runs {holds : Char → Bool} {column : Nat} {before : Option Char} {text : List Char}
    {found : Found (List Char)} (member : found ∈ findsFrom (fun _ rest => run? holds rest) column 0 before text)
    (apart : (∀ c ∈ before, holds c = false) ∨ ∀ c ∈ text.head?, holds c = false) :
    ∃ front back, text = front ++ back ∧ found.start = column + front.length ∧ back.head?.any holds = true ∧
      ∀ c ∈ front.getLast?.or before, holds c = false := by
  induction size : text.length using Nat.strong_induction_on generalizing column before text with
  | h size ih =>
  subst size
  obtain ⟨run, rest, rfl, all, stops⟩ := exists_run holds text
  cases run with
  | nil =>
    cases rest with
    | nil => contradiction
    | cons c rest =>
      have fails : run? holds (c :: rest) = none := by simp [run?_eq, stops c rfl]
      rw [List.nil_append, findsFrom_none fails] at member
      obtain ⟨front, back, rfl, start, held, last⟩ := ih rest.length (by simp) member (.inl (by simpa using stops)) rfl
      refine ⟨c :: front, back, rfl, ?_, held, ?_⟩
      · rw [start, List.length_cons]
        omega
      · rwa [getLast?_cons_or]
  | cons c run =>
    have reads : run? holds ((c :: run) ++ rest) = some (c :: run, rest) :=
      run?_eq_some.2 ⟨rfl, List.cons_ne_nil c run, all, stops⟩
    have held : holds c = true := all c List.mem_cons_self
    rw [findsFrom_some (List.cons_ne_nil c run) reads] at member
    obtain rfl | later := List.mem_cons.1 member
    · refine ⟨[], c :: run ++ rest, rfl, rfl, held, ?_⟩
      rcases apart with before | text
      · exact before
      · rw [text c rfl] at held
        contradiction
    · have shorter : rest.length < (c :: run ++ rest).length := by
        rw [List.length_append, List.length_cons]
        omega
      obtain ⟨front, back, rfl, start, opens, last⟩ := ih rest.length shorter later (.inr stops) rfl
      refine ⟨(c :: run) ++ front, back, by simp, ?_, opens, ?_⟩
      · rw [start, List.length_append, Nat.add_assoc]
      · rw [List.getLast?_append, List.getLast?_cons, Option.or_assoc, Option.some_or]
        rwa [List.getLast?_cons] at last

theorem firstPlaceFrom_fails {accept : Nat → Option Char → List Char → Option α} {column : Nat}
    {before : Option Char} {covered rest : List Char}
    (fails : ∀ front back, covered = front ++ back → back ≠ [] →
      accept (column + front.length) (front.getLast?.or before) (back ++ rest) = none) :
    firstPlaceFrom accept column before (covered ++ rest) =
      firstPlaceFrom accept (column + covered.length) (covered.getLast?.or before) rest := by
  induction covered generalizing column before with
  | nil => rfl
  | cons c covered ih =>
    have here : accept column before (c :: (covered ++ rest)) = none := fails [] (c :: covered) rfl (by simp)
    rw [List.cons_append, firstPlaceFrom, here]
    simp only
    rw [ih, getLast?_cons_or, List.length_cons]
    · congr 1
      omega
    · intro front back whole items
      rw [← getLast?_cons_or before, Nat.add_assoc, Nat.add_comm 1]
      exact fails (c :: front) back (by rw [whole, List.cons_append]) items

/-- What the first place gives is what the text gives there. -/
theorem exists_of_firstPlaceFrom {accept : Nat → Option Char → List Char → Option α} {column : Nat}
    {before : Option Char} {text : List Char} {value : α}
    (found : firstPlaceFrom accept column before text = some value) : ∃ front back, text = front ++ back ∧
      accept (column + front.length) (front.getLast?.or before) back = some value := by
  induction text generalizing column before with
  | nil => contradiction
  | cons c rest ih =>
    rw [firstPlaceFrom] at found
    split at found
    next other accepted =>
      obtain rfl := Option.some.inj found
      exact ⟨[], c :: rest, rfl, accepted⟩
    next =>
      obtain ⟨front, back, rfl, accepted⟩ := ih found
      refine ⟨c :: front, back, rfl, ?_⟩
      have place : column + (c :: front).length = column + 1 + front.length := by
        rw [List.length_cons]
        omega
      rw [getLast?_cons_or, place, accepted]

theorem firstPlaceFrom_eq (accept : Nat → Option Char → List Char → Option α) (column : Nat) (before : Option Char)
    (text : List Char) : firstPlaceFrom accept column before text = (List.range text.length).findSome? fun place =>
      accept (column + place) ((text.take place).getLast?.or before) (text.drop place) := by
  induction text generalizing column before with
  | nil => rfl
  | cons c rest ih =>
    have later (place : Nat) : accept (column + 1 + place) ((rest.take place).getLast?.or (some c)) (rest.drop place) =
        accept (column + (place + 1)) (((c :: rest).take (place + 1)).getLast?.or before)
          ((c :: rest).drop (place + 1)) := by
      rw [List.take_succ_cons, List.drop_succ_cons, getLast?_cons_or, Nat.add_assoc, Nat.add_comm 1]
    rw [firstPlaceFrom, ih, List.length_cons, List.range_succ_eq_map, List.findSome?_cons, List.findSome?_map]
    simp only [later]
    rfl

section Places

variable {accept : Nat → Option Char → List Char → Option α} {text : List Char}

theorem firstPlace_eq_none : firstPlace accept text = none ↔
    ∀ place < text.length, accept place (text.take place).getLast? (text.drop place) = none := by
  simp [firstPlace, firstPlaceFrom_eq]

theorem firstPlace_eq_some {value : α} : firstPlace accept text = some value ↔
    ∃ place < text.length, accept place (text.take place).getLast? (text.drop place) = some value ∧
      ∀ earlier < place, accept earlier (text.take earlier).getLast? (text.drop earlier) = none := by
  simp only [firstPlace, firstPlaceFrom_eq, Nat.zero_add, Option.or_none, List.findSome?_eq_some_iff,
    List.range_eq_range', List.range'_eq_append_iff]
  constructor
  · rintro ⟨_, place, back, ⟨size, -, rfl, split⟩, found, fails⟩
    obtain ⟨rfl, some_, -⟩ := List.range'_eq_cons_iff.1 split.symm
    exact ⟨_, by omega, found, fun earlier before => fails earlier (by simpa using before)⟩
  · rintro ⟨place, inside, found, fails⟩
    refine ⟨_, place, _, ⟨place, Nat.le_of_lt inside, rfl, (List.range'_eq_cons_iff.2 ⟨?_, ?_, rfl⟩).symm⟩, found, ?_⟩
    · exact Nat.zero_add place
    · omega
    · simpa using fails

end Places

end Finding

end ArturoInsight.Text
