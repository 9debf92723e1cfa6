import ArturoInsight.Proofs.Cursor.Led
import ArturoInsight.Proofs.Symbol.Keys
import ArturoInsight.Proofs.Text.Starts

/-! Blanks at the end of a line. How many there are changes nothing of the parameters, the loop variables and the
keys that are read off the line, as long as there are some or there are none. -/

namespace ArturoInsight

open Text

open Pattern hiding exists_run

variable {α : Type}

def leaving (gap : List Char) (found : α × List Char) : α × List Char := (found.1, found.2 ++ gap)

def LeavesGap (read : List Char → Option (α × List Char)) : Prop :=
  ∀ gap, Blanks gap → ∀ text, read (text ++ gap) = (read text).map (leaving gap)

section Readers

variable {gap : List Char} (blanks : Blanks gap)

include blanks

theorem after?_gap {mark : List Char} (solid : ∀ c ∈ mark, isBlank c = false) (text : List Char) :
    after? mark (text ++ gap) = (after? mark text).map (· ++ gap) :=
  after?_append (not_mem_of_blanks solid blanks) text

theorem stops_of_blanks {holds : Char → Bool} (solid : ∀ c, isBlank c = true → holds c = false) :
    ∀ c ∈ gap.head?, holds c = false :=
  fun c head => solid c (blanks c (List.mem_of_mem_head? head))

theorem keyword?_gap {word : String} (solid : ∀ c ∈ word.toList, isBlank c = false) (before : Option Char)
    (text : List Char) : keyword? word before (text ++ gap) = (keyword? word before text).map (· ++ gap) := by
  unfold keyword?
  split_ifs
  · rfl
  · exact after?_gap blanks solid text

theorem afterBlanks_gap {read : List Char → Option (α × List Char)} (leaves : LeavesGap read) (nothing : read [] = none)
    (text : List Char) : (afterBlanks (text ++ gap)).bind read = ((afterBlanks text).bind read).map (leaving gap) := by
  obtain ⟨first, opens, rfl | ⟨c, rest, solid, rfl⟩⟩ := exists_gap text
  · have none {all : List Char} (blank : Blanks all) : (afterBlanks all).bind read = none := by
      rw [afterBlanks, run?_eq, ← List.append_nil all, dropWhile_run blank (by simp)]
      split_ifs <;> simp [nothing]
    rw [none opens, none (List.forall_mem_append.2 ⟨opens, blanks⟩)]
    rfl
  · have skips (tail : List Char) :
        afterBlanks (first ++ c :: tail) = if first.isEmpty then none else some (c :: tail) := by
      have stops : ∀ d ∈ (c :: tail).head?, isBlank d = false := by simpa using solid
      rw [afterBlanks, run?_eq, takeWhile_run opens stops, dropWhile_run opens stops]
      split_ifs <;> rfl
    rw [List.append_assoc, List.cons_append, skips, skips]
    split_ifs
    · rfl
    · exact leaves gap blanks (c :: rest)

theorem trimStart_gap {β : Type} {read : List Char → Option β} {more : β → β}
    (leaves : ∀ text, read (text ++ gap) = (read text).map more) (nothing : read [] = none) (text : List Char) :
    read (trimStart (text ++ gap)) = (read (trimStart text)).map more := by
  obtain ⟨first, opens, rfl | ⟨c, rest, solid, rfl⟩⟩ := exists_gap text
  · rw [trimStart_blanks opens, trimStart_blanks (List.forall_mem_append.2 ⟨opens, blanks⟩), nothing]
    rfl
  · have stops (tail : List Char) : ∀ d ∈ (c :: tail).head?, isBlank d = false := by simpa using solid
    rw [List.append_assoc, List.cons_append, trimStart_run opens (stops _), trimStart_run opens (stops _)]
    exact leaves (c :: rest)

end Readers

theorem leavesGap_run? {holds : Char → Bool} (solid : ∀ c, isBlank c = true → holds c = false) :
    LeavesGap (run? holds) := fun _ blanks => run?_append (stops_of_blanks blanks solid)

theorem leavesGap_upTo? {mark : Char} (solid : isBlank mark = false) : LeavesGap (upTo? mark) := by
  intro gap blanks text
  have other : ∀ c ∈ gap, (c != mark) = true := by
    intro c member
    have blank := blanks c member
    simp only [bne_iff_ne]
    rintro rfl
    rw [solid] at blank
    contradiction
  unfold upTo?
  obtain ⟨first, rest, rfl, all, stops⟩ := exists_run (· != mark) text
  cases rest with
  | nil =>
    have nothing : ∀ c ∈ first ++ gap, (c != mark) = true := List.forall_mem_append.2 ⟨all, other⟩
    rw [List.append_nil, List.dropWhile_eq_nil_iff.2 nothing, List.dropWhile_eq_nil_iff.2 all]
    rfl
  | cons c rest =>
    have ends (tail : List Char) : ∀ d ∈ (c :: tail).head?, (d != mark) = false := by simpa using stops c rfl
    rw [List.append_assoc, List.cons_append, dropWhile_run all (ends _), dropWhile_run all (ends _),
      takeWhile_run all (ends _), takeWhile_run all (ends _)]
    rfl

theorem leavesGap_bracketed? : LeavesGap bracketed? := by
  intro gap blanks text
  rw [bracketed?, bracketed?, after?_gap blanks (by decide)]
  cases after? ['['] text with
  | none => rfl
  | some tail => exact leavesGap_upTo? (by decide) gap blanks tail

theorem leavesGap_quotedAfter : LeavesGap quotedAfter := by
  intro gap blanks text
  rw [quotedAfter, quotedAfter, after?_gap blanks (by decide)]
  cases after? ['\x27'] text with
  | none => rfl
  | some tail => exact leavesGap_run? (fun _ => not_isWord_of_isBlank) gap blanks tail

theorem leavesGap_namesAfter : LeavesGap namesAfter := by
  intro gap blanks text
  rw [namesAfter, namesAfter, leavesGap_bracketed? gap blanks]
  cases bracketed? text with
  | none => rfl
  | some found =>
    have opens (tail : List Char) : after? ['['] (tail ++ gap) = (after? ['['] tail).map (· ++ gap) :=
      after?_gap blanks (by decide) tail
    have body := trimStart_gap blanks opens rfl found.2
    rw [Option.map_some, Option.bind_some, Option.bind_some, leaving, body, Option.map_map, Option.map_map]
    rfl

theorem findSome?_membersTails (read : List Char → Option (α × List Char)) (members : List Char) :
    (membersTails members).findSome? read =
      ((bracketed? members).bind fun found => (afterBlanks found.2).bind read).or
        ((run? (fun c => !isBlank c) members).bind fun found => (afterBlanks found.2).bind read) := by
  have first (tail : List Char) : ([tail].filterMap afterBlanks).findSome? read = (afterBlanks tail).bind read := by
    cases found : afterBlanks tail <;> simp [found]
  rw [membersTails, List.filterMap_append, List.findSome?_append]
  congr 1
  · cases bracketed? members with
    | none => rfl
    | some found => exact first found.2
  · cases run? (fun c => !isBlank c) members with
    | none => rfl
    | some found => exact first found.2

theorem leavesGap_loopAfter {read : List Char → Option (α × List Char)} (leaves : LeavesGap read)
    (nothing : read [] = none) : LeavesGap (loopAfter read) := by
  intro gap blanks text
  refine afterBlanks_gap blanks (fun gap blanks members => ?_) rfl text
  rw [findSome?_membersTails, findSome?_membersTails, leavesGap_bracketed? gap blanks,
    leavesGap_run? (by simp) gap blanks, Option.map_or]
  have after := afterBlanks_gap blanks leaves nothing
  congr 1
  · cases bracketed? members with
    | none => rfl
    | some found => exact after found.2
  · cases run? (fun c => !isBlank c) members with
    | none => rfl
    | some found => exact after found.2

theorem leavesGap_led {word : String} (solid : ∀ c ∈ word.toList, isBlank c = false) {before : Option Char}
    {read next : List Char → Option (α × List Char)}
    (equation : ∀ text, read text = (keyword? word before text).bind next) (leaves : LeavesGap next) :
    LeavesGap read := by
  intro gap blanks text
  rw [equation, equation, keyword?_gap blanks solid]
  cases keyword? word before text with
  | none => rfl
  | some tail => exact leaves gap blanks tail

theorem leavesGap_loopName (before : Option Char) : LeavesGap (loopName before) :=
  leavesGap_led (by decide) (loopName_eq before) (leavesGap_loopAfter leavesGap_quotedAfter rfl)

theorem leavesGap_loopBlock (before : Option Char) : LeavesGap (loopBlock before) :=
  leavesGap_led (by decide) (loopBlock_eq before) (leavesGap_loopAfter leavesGap_namesAfter rfl)

theorem leavesGap_parameterName (before : Option Char) : LeavesGap (parameterName before) :=
  leavesGap_led (by decide) (parameterName_eq before) fun _ blanks => afterBlanks_gap blanks leavesGap_quotedAfter rfl

theorem leavesGap_parameterBlock (before : Option Char) : LeavesGap (parameterBlock before) := by
  intro gap blanks text
  have leads : functionLead before (text ++ gap) = (functionLead before text).map (· ++ gap) := by
    rw [functionLead, functionLead, keyword?_gap blanks (by decide), keyword?_gap blanks (by decide),
      after?_gap blanks (by decide), Option.map_or, Option.map_or]
  rw [parameterBlock_eq, parameterBlock_eq, leads]
  cases functionLead before text with
  | none => rfl
  | some tail => exact trimStart_gap blanks (leavesGap_bracketed? gap blanks) rfl tail

theorem leavesGap_label? : LeavesGap Name.label? := by
  intro gap blanks text
  have stops : ∀ c ∈ gap.head?, (isWord c || c == '-') = false := stops_of_blanks blanks fun c blank => by
    rw [not_isWord_of_isBlank blank, Bool.false_or, beq_eq_false_iff_ne]
    rintro rfl
    contradiction
  have mark : ∀ c ∈ gap.head?, c ≠ '?' := by
    rintro _ head rfl
    exact absurd (blanks '?' (List.mem_of_mem_head? head)) (by decide)
  cases text with
  | nil =>
    cases gap with
    | nil => rfl
    | cons c gap => simp [Name.label?, not_isWord_of_isBlank (blanks c List.mem_cons_self)]
  | cons c text =>
    obtain ⟨takes, drops⟩ := takeWhile_append_stop text stops
    simp only [List.cons_append, Name.label?, takes, drops, Name.question_append mark]
    split_ifs <;> rfl

theorem leavesGap_typeAfter : LeavesGap typeAfter := by
  intro gap blanks text
  refine afterBlanks_gap blanks (fun gap blanks text => ?_) rfl text
  rw [after?_gap blanks (by decide)]
  cases after? [':'] text with
  | none => rfl
  | some tail => exact leavesGap_run? (fun _ => not_isWord_of_isBlank) gap blanks tail

theorem leavesGap_definition (before : Option Char) : LeavesGap (definition before) :=
  leavesGap_led (by decide) (definition_eq before) leavesGap_typeAfter

section Finding

variable {gap other : List Char}

/-- A reader that does not tell two gaps after a text apart: it leaves them over, or takes them whole. -/
def Overlooks (read : Reader α) (gap other : List Char) : Prop := ∀ before text,
  (read before (text ++ gap) = none ∧ read before (text ++ other) = none) ∨
  ∃ value tail rest, read before (text ++ gap) = some (value, tail) ∧ read before (text ++ other) = some (value, rest) ∧
    (tail = [] ∧ rest = [] ∨ ∃ more, tail = more ++ gap ∧ rest = more ++ other)

theorem findsFrom_gap {read : Reader α} (nothing : ∀ before text, Blanks text → read before text = none)
    (blanks : Blanks gap) (column skip : Nat) (before : Option Char) : findsFrom read column skip before gap = [] := by
  induction gap generalizing column skip before with
  | nil => cases skip <;> simp [findsFrom, nothing before [] blanks]
  | cons c gap ih =>
    have later := (List.forall_mem_cons.1 blanks).2
    cases skip with
    | zero => rw [findsFrom_none (nothing before _ blanks), ih later]
    | succ skip => exact ih later _ _ _

theorem findsFrom_leavesGap {read : Reader α} (nothing : ∀ before, read before [] = none)
    (leaves : ∀ before, LeavesGap (read before)) (blanks : Blanks gap) (text : List Char) (column : Nat)
    (before : Option Char) {skip : Nat} (inside : skip ≤ text.length) :
    findsFrom read column skip before (text ++ gap) = findsFrom read column skip before text := by
  induction text generalizing column before skip with
  | nil =>
    have nowhere (before : Option Char) (spaces : List Char) (all : Blanks spaces) : read before spaces = none := by
      have left := leaves before spaces all []
      rwa [nothing, List.nil_append] at left
    rw [List.nil_append, findsFrom_gap nowhere blanks, findsFrom_gap nowhere blanks_nil]
  | cons c text ih =>
    cases skip with
    | succ skip => exact ih (column + 1) (some c) (Nat.le_of_succ_le_succ inside)
    | zero =>
      have reads := leaves before gap blanks (c :: text)
      rw [List.cons_append] at reads ⊢
      cases found : read before (c :: text) with
      | none =>
        rw [found] at reads
        rw [findsFrom_none reads, findsFrom_none found]
        exact ih (column + 1) (some c) (Nat.zero_le _)
      | some pair =>
        obtain ⟨value, tail⟩ := pair
        rw [found] at reads
        have width : (text ++ gap).length + 1 - (tail ++ gap).length = text.length + 1 - tail.length := by
          rw [List.length_append, List.length_append]
          omega
        simp only [findsFrom, reads, found, Option.map_some, leaving, width]
        refine congrArg _ (ih (column + 1) (some c) ?_)
        omega

theorem values_findsFrom_gap {read : Reader α} (nothing : ∀ before text, Blanks text → read before text = none)
    (blanks : Blanks gap) (blank : Blanks other) (overlooks : Overlooks read gap other) (text : List Char)
    (column : Nat) (before : Option Char) {skip count : Nat}
    (same : skip = count ∨ text.length ≤ skip ∧ text.length ≤ count) :
    (findsFrom read column skip before (text ++ gap)).map (·.value) =
      (findsFrom read column count before (text ++ other)).map (·.value) := by
  induction text generalizing column before skip count with
  | nil => rw [List.nil_append, List.nil_append, findsFrom_gap nothing blanks, findsFrom_gap nothing blank]
  | cons c text ih =>
    rw [List.length_cons] at same
    cases skip with
    | succ skip =>
      obtain ⟨count, rfl⟩ := Nat.exists_eq_add_one_of_ne_zero (by omega : count ≠ 0)
      exact ih (column + 1) (some c) (by omega)
    | zero =>
      obtain rfl : count = 0 := by omega
      obtain ⟨first, second⟩ | ⟨value, tail, rest, first, second, left⟩ := overlooks before (c :: text)
      · rw [List.cons_append, List.cons_append] at *
        rw [findsFrom_none first, findsFrom_none second]
        exact ih (column + 1) (some c) (.inl rfl)
      · rw [List.cons_append] at first second
        simp only [List.cons_append, findsFrom, first, second, List.map_cons]
        refine congrArg _ (ih (column + 1) (some c) ?_)
        obtain ⟨rfl, rfl⟩ | ⟨more, rfl, rfl⟩ := left
        · right
          simp only [List.length_append, List.length_nil]
          omega
        · left
          simp only [List.length_append]
          omega

end Finding

theorem overlooks_dictionaryKey {gap other : List Char} (blanks : Blanks gap) (blank : Blanks other)
    (some_ : gap = [] ↔ other = []) : Overlooks dictionaryKey gap other := by
  intro before text
  unfold dictionaryKey
  simp only [Option.bind_eq_bind]
  rw [leavesGap_label? gap blanks, leavesGap_label? other blank]
  cases Name.label? text with
  | none => exact .inl ⟨rfl, rfl⟩
  | some found =>
    have colon : ∀ c ∈ [':'], isBlank c = false := by decide
    simp only [Option.map_some, Option.bind_some, leaving, after?_gap blanks colon, after?_gap blank colon]
    cases after? [':'] found.2 with
    | none => exact .inl ⟨rfl, rfl⟩
    | some tail =>
      obtain ⟨first, opens, rfl | ⟨c, rest, solid, rfl⟩⟩ := exists_gap tail
      · have through {all : List Char} (spaces : Blanks all) :
            run? isBlank all = if all.isEmpty then none else some (all, []) := by
          rw [run?_eq, List.takeWhile_eq_self_iff.2 spaces, List.dropWhile_eq_nil_iff.2 spaces]
        simp only [Option.map_some, Option.bind_some, through (List.forall_mem_append.2 ⟨opens, blanks⟩),
          through (List.forall_mem_append.2 ⟨opens, blank⟩)]
        by_cases ends : tail = [] ∧ gap = []
        · left
          simp [ends.1, ends.2, some_.1 ends.2]
        · right
          have stands : ¬ (tail = [] ∧ other = []) := by rwa [← some_]
          exact ⟨found.1, [], [], by simp [ends], by simp [stands], .inl ⟨rfl, rfl⟩⟩
      · have skips (more : List Char) : run? isBlank (first ++ c :: rest ++ more) =
            if first.isEmpty then none else some (first, (c :: rest) ++ more) := by
          have stops : ∀ d ∈ (c :: rest ++ more).head?, isBlank d = false := by simpa using solid
          rw [List.append_assoc, run?_eq, takeWhile_run opens stops, dropWhile_run opens stops]
        simp only [Option.map_some, Option.bind_some, skips]
        split_ifs
        · exact .inl ⟨rfl, rfl⟩
        · exact .inr ⟨found.1, _, _, rfl, rfl, .inr ⟨c :: rest, rfl, rfl⟩⟩

theorem values_finds_gap {read : Reader α} (nothing : ∀ before text, Blanks text → read before text = none)
    {gap other : List Char} (blanks : Blanks gap) (blank : Blanks other) (overlooks : Overlooks read gap other)
    (text : List Char) : (finds read (text ++ gap)).map (·.value) = (finds read (text ++ other)).map (·.value) :=
  values_findsFrom_gap nothing blanks blank overlooks text 0 none (.inl rfl)

section Names

variable {gap other : List Char} (blanks : Blanks gap) (blank : Blanks other)

include blanks blank

theorem values_finds_leavesGap {read : Reader α} (nothing : ∀ before, read before [] = none)
    (leaves : ∀ before, LeavesGap (read before)) (text : List Char) :
    (finds read (text ++ gap)).map (·.value) = (finds read (text ++ other)).map (·.value) := by
  have found {spaces : List Char} (all : Blanks spaces) : finds read (text ++ spaces) = finds read text :=
    findsFrom_leavesGap nothing leaves all text 0 none (Nat.zero_le _)
  rw [found blanks, found blank]

theorem parameters_gap (text : List Char) : parameters (text ++ gap) = parameters (text ++ other) := by
  have block := values_finds_leavesGap blanks blank led_parameterBlock.nil leavesGap_parameterBlock text
  have name := values_finds_leavesGap blanks blank led_parameterName.nil leavesGap_parameterName text
  have shown (code : List Char) : parameters code = ((finds parameterBlock code).map (·.value)).head?.elim
      ((finds parameterName code).map (·.value)).head?.toList fun names =>
        ((words names).map (dropAnnotations false)).filter fun word => !word.isEmpty && word.head? != some ':' := by
    unfold parameters
    cases finds parameterBlock code <;> simp
  rw [shown, shown, block, name]

theorem loopVariables_gap (text : List Char) : loopVariables (text ++ gap) = loopVariables (text ++ other) := by
  have name := values_finds_leavesGap blanks blank (led_loop loopName_eq).nil leavesGap_loopName text
  have block := values_finds_leavesGap blanks blank (led_loop loopBlock_eq).nil leavesGap_loopBlock text
  have shown (code : List Char) : loopVariables code = (finds loopName code).map (·.value) ++
      ((finds loopBlock code).map (·.value)).flatMap fun names => (words names).map (·.dropWhile (· == '\x27')) := by
    rw [loopVariables, List.flatMap_map]
  rw [shown, shown, name, block]

theorem dictionaryKeys_gap (some_ : gap = [] ↔ other = []) (text : List Char) :
    dictionaryKeys (text ++ gap) = dictionaryKeys (text ++ other) := by
  have nothing (before : Option Char) (text : List Char) (blanks : Blanks text) : dictionaryKey before text = none := by
    refine Option.eq_none_iff_forall_ne_some.2 fun (name, tail) reads => ?_
    obtain ⟨run, mark, gap, -, starts, -, -, -, -, -, rfl⟩ := dictionaryKey_eq_some.1 reads
    obtain ⟨c, head, word⟩ := (Option.any_eq_true _ _).1 starts
    have space := blanks c (List.mem_append_left _ (List.mem_of_mem_head? head))
    rw [not_isWord_of_isBlank space] at word
    contradiction
  have overlooks := overlooks_dictionaryKey blanks blank some_
  rw [dictionaryKeys, dictionaryKeys, values_finds_gap nothing blanks blank overlooks]

end Names

end ArturoInsight
