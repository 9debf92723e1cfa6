import ArturoInsight.Proofs.Symbol.Name
import ArturoInsight.Proofs.Text.Classes
import ArturoInsight.Symbol.Quasi

/-! Dictionary keys: every label with a blank after its colon that no word stands before, hyphens apart. -/

namespace ArturoInsight

open Text

/-- What a label goes on with: characters of words from every script, and hyphens. -/
def isLabelPart (c : Char) : Bool := isWord c || c == '-'

def endsInWord (text : List Char) : Bool := (text.reverse.dropWhile (· == '-')).head?.any isWord

theorem endsInWord_concat (text : List Char) (c : Char) :
    endsInWord (text ++ [c]) = if c = '-' then endsInWord text else isWord c := by
  unfold endsInWord
  rw [List.reverse_concat]
  by_cases hyphen : c = '-' <;> simp [hyphen]

theorem endsInWord_append {run : List Char} (all : ∀ c ∈ run, isLabelPart c = true) (some_ : ∃ c ∈ run, isWord c = true)
    (text : List Char) : endsInWord (text ++ run) = true := by
  induction run using List.reverseRecOn with
  | nil => simp at some_
  | append_singleton run c ih =>
    obtain ⟨front, here⟩ := List.forall_mem_append.1 all
    rw [← List.append_assoc, endsInWord_concat]
    split_ifs with hyphen
    · refine ih front ?_
      obtain ⟨d, member, word⟩ := some_
      obtain inside | last := List.mem_append.1 member
      · exact ⟨d, inside, word⟩
      · obtain rfl := (List.mem_singleton.1 last).trans hyphen
        exact absurd word (by decide)
    · simpa [isLabelPart, hyphen] using here c List.mem_cons_self

def IsLabelled (text : List Char) : Prop := ∃ run mark blank tail, (∀ c ∈ run, isLabelPart c = true) ∧
  (mark = [] ∨ mark = ['?']) ∧ isBlank blank = true ∧ text = run ++ (mark ++ ':' :: blank :: tail)

theorem label?_of_colon {run mark : List Char} (starts : run.head?.any isWord = true)
    (all : ∀ c ∈ run, isLabelPart c = true) (marked : mark = [] ∨ mark = ['?']) (tail : List Char) :
    Name.label? (run ++ (mark ++ ':' :: tail)) = some (run ++ mark, ':' :: tail) := by
  cases run with
  | nil => contradiction
  | cons first run =>
    have word : isWord first = true := starts
    have parts := (List.forall_mem_cons.1 all).2
    have colon : isLabelPart ':' = false := by decide
    have question_ : isLabelPart '?' = false := by decide
    have stops : ∀ c ∈ (mark ++ ':' :: tail).head?, isLabelPart c = false := by
      obtain rfl | rfl := marked
      · simpa using colon
      · simpa using question_
    have takes : (run ++ (mark ++ ':' :: tail)).takeWhile isLabelPart = run := takeWhile_run parts stops
    have drops : (run ++ (mark ++ ':' :: tail)).dropWhile isLabelPart = mark ++ ':' :: tail := dropWhile_run parts stops
    have equation : Name.label? (first :: (run ++ (mark ++ ':' :: tail))) =
        if isWord first then
          some (first :: (run ++ (mark ++ ':' :: tail)).takeWhile isLabelPart ++
              (question ((run ++ (mark ++ ':' :: tail)).dropWhile isLabelPart)).1,
            (question ((run ++ (mark ++ ':' :: tail)).dropWhile isLabelPart)).2)
        else none := rfl
    rw [List.cons_append, equation, takes, drops, if_pos word]
    obtain rfl | rfl := marked <;> rfl

theorem exists_of_label? {text name tail : List Char} (found : Name.label? text = some (name, tail)) :
    ∃ run mark, name = run ++ mark ∧ run.head?.any isWord = true ∧ (∀ c ∈ run, isLabelPart c = true) ∧
      (mark = [] ∨ mark = ['?']) ∧ text = run ++ (mark ++ tail) := by
  cases text with
  | nil => contradiction
  | cons first rest =>
    have equation : Name.label? (first :: rest) =
        if isWord first then
          some (first :: rest.takeWhile isLabelPart ++ (question (rest.dropWhile isLabelPart)).1,
            (question (rest.dropWhile isLabelPart)).2)
        else none := rfl
    rw [equation] at found
    split_ifs at found with word
    obtain ⟨rfl, rfl⟩ := Prod.mk.inj (Option.some.inj found)
    have whole : (question (rest.dropWhile isLabelPart)).1 ++ (question (rest.dropWhile isLabelPart)).2 =
        rest.dropWhile isLabelPart := by
      unfold question
      split <;> simp_all
    refine ⟨first :: rest.takeWhile isLabelPart, _, rfl, word, ?_, ?_, ?_⟩
    · exact List.forall_mem_cons.2 ⟨by simp [isLabelPart, word], fun c => List.mem_takeWhile_imp⟩
    · unfold question
      split <;> simp
    · rw [whole, List.cons_append, List.takeWhile_append_dropWhile]

theorem dictionaryKey_eq_some {before : Option Char} {text name tail : List Char} :
    dictionaryKey before text = some (name, tail) ↔ ∃ run mark gap, name = run ++ mark ∧
      run.head?.any isWord = true ∧ (∀ c ∈ run, isLabelPart c = true) ∧ (mark = [] ∨ mark = ['?']) ∧ gap ≠ [] ∧
      Blanks gap ∧ (∀ c ∈ tail.head?, isBlank c = false) ∧ text = run ++ (mark ++ ':' :: (gap ++ tail)) := by
  have equation : dictionaryKey before text = (Name.label? text).bind fun found =>
      (after? [':'] found.2).bind fun rest => (run? isBlank rest).map fun gap => (found.1, gap.2) := by
    unfold dictionaryKey
    cases Name.label? text with
    | none => rfl
    | some found =>
      cases colon : after? [':'] found.2 with
      | none => simp [colon]
      | some rest => cases blanks : run? isBlank rest <;> simp [colon, blanks]
  rw [equation]
  constructor
  · intro found
    obtain ⟨⟨name, rest⟩, label, found⟩ := Option.bind_eq_some_iff.1 found
    obtain ⟨after, colon, found⟩ := Option.bind_eq_some_iff.1 found
    obtain ⟨⟨gap, tail⟩, blanks, same⟩ := Option.map_eq_some_iff.1 found
    obtain ⟨rfl, rfl⟩ := Prod.mk.inj same
    obtain ⟨run, mark, rfl, starts, all, marked, rfl⟩ := exists_of_label? label
    obtain rfl := after?_eq_some.1 colon
    obtain ⟨rfl, some_, blanks, stops⟩ := run?_eq_some.1 blanks
    exact ⟨run, mark, gap, rfl, starts, all, marked, some_, blanks, stops, rfl⟩
  · rintro ⟨run, mark, gap, rfl, starts, all, marked, some_, blanks, stops, rfl⟩
    have colon : after? [':'] (':' :: (gap ++ tail)) = some (gap ++ tail) := after?_eq_some.2 rfl
    rw [label?_of_colon starts all marked]
    simp only [Option.bind_some, colon, run?_eq_some.2 ⟨rfl, some_, blanks, stops⟩, Option.map_some]

theorem exists_dictionaryKey {run mark : List Char} (starts : run.head?.any isWord = true)
    (all : ∀ c ∈ run, isLabelPart c = true) (marked : mark = [] ∨ mark = ['?']) {blank : Char}
    (held : isBlank blank = true) (before : Option Char) (back : List Char) : ∃ gap tail, blank :: back = gap ++ tail ∧
      dictionaryKey before (run ++ (mark ++ ':' :: blank :: back)) = some (run ++ mark, tail) := by
  obtain ⟨gap, tail, same, blanks, stops⟩ := exists_run isBlank (blank :: back)
  have some_ : gap ≠ [] := by
    rintro rfl
    obtain rfl : tail = blank :: back := same.symm
    have solid := stops blank rfl
    rw [held] at solid
    contradiction
  exact ⟨gap, tail, same,
    dictionaryKey_eq_some.2 ⟨run, mark, gap, rfl, starts, all, marked, some_, blanks, stops, by rw [same]⟩⟩

theorem endsInWord_gap {gap : List Char} (some_ : gap ≠ []) (blanks : Blanks gap) (context : List Char) :
    endsInWord (context ++ gap) = false := by
  obtain ⟨front, last, rfl⟩ := List.eq_nil_or_concat' gap |>.resolve_left some_
  have blank : isBlank last = true := blanks last (by simp)
  have hyphen : last ≠ '-' := by
    rintro rfl
    exact absurd blank (by decide)
  rw [← List.append_assoc, endsInWord_concat, if_neg hyphen, not_isWord_of_isBlank blank]

theorem not_isLabelled_cons {context text : List Char} {c : Char} {before : Option Char}
    (labelled : endsInWord context = true → ¬ IsLabelled (c :: text)) (fails : dictionaryKey before (c :: text) = none) :
    endsInWord (context ++ [c]) = true → ¬ IsLabelled text := by
  rw [endsInWord_concat]
  rintro ends ⟨run, mark, blank, tail, all, marked, held, rfl⟩
  split_ifs at ends with hyphen
  · subst hyphen
    exact labelled ends ⟨'-' :: run, mark, blank, tail, List.forall_mem_cons.2 ⟨by decide, all⟩, marked, held, rfl⟩
  · have parts : ∀ d ∈ c :: run, isLabelPart d = true := List.forall_mem_cons.2 ⟨by simp [isLabelPart, ends], all⟩
    obtain ⟨_, _, -, reads⟩ := @exists_dictionaryKey (c :: run) mark ends parts marked blank held before tail
    rw [List.cons_append, fails] at reads
    contradiction

theorem exists_of_mem_keys {context text : List Char} {column : Nat} {before : Option Char}
    (labelled : endsInWord context = true → ¬ IsLabelled text) {found : Found (List Char)}
    (member : found ∈ findsFrom dictionaryKey column 0 before text) : ∃ front blank back,
      text = front ++ (found.value ++ ':' :: blank :: back) ∧ isBlank blank = true ∧
      endsInWord (context ++ front) = false := by
  induction size : text.length using Nat.strong_induction_on generalizing context text column before with
  | h size ih =>
  subst size
  cases text with
  | nil => contradiction
  | cons c text =>
    cases reads : dictionaryKey before (c :: text) with
    | none =>
      rw [findsFrom_none reads] at member
      obtain ⟨front, blank, back, rfl, held, ends⟩ :=
        ih text.length (by simp) (not_isLabelled_cons labelled reads) member rfl
      exact ⟨c :: front, blank, back, rfl, held, by simpa using ends⟩
    | some result =>
      obtain ⟨name, tail⟩ := result
      obtain ⟨run, mark, gap, rfl, starts, all, marked, some_, blanks, stops, whole⟩ := dictionaryKey_eq_some.1 reads
      obtain ⟨first, rest, rfl⟩ := List.exists_cons_of_ne_nil some_
      have held : isBlank first = true := blanks first List.mem_cons_self
      have covered : c :: text = (run ++ (mark ++ ':' :: first :: rest)) ++ tail := by simpa using whole
      have fresh : endsInWord (context ++ (run ++ (mark ++ ':' :: first :: rest))) = false := by
        simpa using endsInWord_gap some_ blanks (context ++ (run ++ (mark ++ [':'])))
      have some_ : run ++ (mark ++ ':' :: first :: rest) ≠ [] := by
        cases run <;> simp
      rw [covered] at member reads
      rw [findsFrom_some some_ reads] at member
      obtain rfl | later := List.mem_cons.1 member
      · refine ⟨[], first, rest ++ tail, by simpa using whole, held, ?_⟩
        by_contra ends
        refine labelled (by simpa using ends) ⟨run, mark, first, rest ++ tail, all, marked, held, by simpa using whole⟩
      · have shorter : tail.length < (c :: text).length := by
          have pos := List.length_pos_iff.2 some_
          rw [covered, List.length_append]
          omega
        obtain ⟨front, blank, back, rfl, further, ends⟩ := ih tail.length shorter
          (fun ends => absurd ends (by rw [fresh]; decide)) later rfl
        refine ⟨(run ++ (mark ++ ':' :: first :: rest)) ++ front, blank, back, ?_, further, ?_⟩
        · rw [covered]
          simp
        · rwa [← List.append_assoc]

theorem exists_after_label {context front word label sign gap tail : List Char} (some_ : front ≠ [])
    (ends : endsInWord (context ++ front) = false) (word_starts : word.head?.any isWord = true)
    (starts : label.head?.any isWord = true) (parts : ∀ c ∈ label, isLabelPart c = true)
    (signed : sign = [] ∨ sign = ['?']) (blanks : Blanks gap)
    (whole : front ++ word = (label ++ (sign ++ ':' :: gap)) ++ tail) :
    ∃ rest, front = (label ++ (sign ++ ':' :: gap)) ++ rest ∧ tail = rest ++ word := by
  obtain ⟨inner, covered, into⟩ | before := List.append_eq_append_iff.1 whole
  · cases inner with
    | nil => exact ⟨[], by simpa using covered.symm, by simpa using into.symm⟩
    | cons first inner =>
      have first_word : isWord first = true := by simpa [into] using word_starts
      obtain ⟨more, longer, -⟩ | ⟨more, -, after⟩ := List.append_eq_append_iff.1 covered.symm
      · obtain ⟨c, others, rfl⟩ := List.exists_cons_of_ne_nil some_
        have inside : ∀ d ∈ c :: others, isLabelPart d = true := fun d member =>
          parts d (by rw [longer]; exact List.mem_append_left _ member)
        have head : isWord c = true := by simpa [longer] using starts
        rw [endsInWord_append inside ⟨c, List.mem_cons_self, head⟩] at ends
        contradiction
      · have other : first ∈ sign ++ ':' :: gap := by rw [after]; simp
        obtain mark | colon | space : first ∈ sign ∨ first = ':' ∨ first ∈ gap := by simpa using other
        · obtain rfl | rfl := signed
          · contradiction
          · obtain rfl := List.mem_singleton.1 mark
            exact absurd first_word (by decide)
        · rw [colon] at first_word
          exact absurd first_word (by decide)
        · rw [not_isWord_of_isBlank (blanks first space)] at first_word
          contradiction
  · exact before

theorem exists_mem_keys {context front run mark : List Char} (starts : run.head?.any isWord = true)
    (all : ∀ c ∈ run, isLabelPart c = true) (marked : mark = [] ∨ mark = ['?']) {blank : Char}
    (held : isBlank blank = true) (ends : endsInWord (context ++ front) = false) (column : Nat) (before : Option Char)
    (back : List Char) : ∃ found ∈ findsFrom dictionaryKey column 0 before
      (front ++ (run ++ (mark ++ ':' :: blank :: back))), found.value = run ++ mark := by
  induction size : front.length using Nat.strong_induction_on generalizing context front column before with
  | h size ih =>
  subst size
  cases front with
  | nil =>
    obtain ⟨gap, tail, same, reads⟩ := exists_dictionaryKey starts all marked held before back
    have covered : run ++ (mark ++ ':' :: blank :: back) = (run ++ (mark ++ ':' :: gap)) ++ tail := by simp [same]
    rw [covered] at reads
    rw [List.nil_append, covered, findsFrom_some (by cases run <;> simp) reads]
    exact ⟨_, List.mem_cons_self, rfl⟩
  | cons c front =>
    cases reads : dictionaryKey before (c :: (front ++ (run ++ (mark ++ ':' :: blank :: back)))) with
    | none =>
      rw [List.cons_append, findsFrom_none reads]
      have ends : endsInWord ((context ++ [c]) ++ front) = false := by simpa using ends
      exact ih front.length (by simp) ends _ _ rfl
    | some result =>
      obtain ⟨name, tail⟩ := result
      obtain ⟨label, sign, gap, rfl, word, parts, signed, -, blanks, -, whole⟩ := dictionaryKey_eq_some.1 reads
      have whole : (c :: front) ++ (run ++ (mark ++ ':' :: blank :: back)) = (label ++ (sign ++ ':' :: gap)) ++ tail := by
        simpa using whole
      have some_ : label ++ (sign ++ ':' :: gap) ≠ [] := by cases label <;> simp
      have head : (run ++ (mark ++ ':' :: blank :: back)).head?.any isWord = true := by
        cases run with
        | nil => contradiction
        | cons d run => exact starts
      obtain ⟨rest, same, left⟩ :=
        exists_after_label (List.cons_ne_nil c front) ends head word parts signed blanks whole
      rw [same, ← List.append_assoc] at ends
      have shorter : rest.length < (c :: front).length := by
        have pos := List.length_pos_iff.2 some_
        rw [same, List.length_append]
        omega
      rw [← List.cons_append, whole] at reads
      obtain ⟨found, member, value⟩ := ih rest.length shorter ends
        (column + (label ++ (sign ++ ':' :: gap)).length) (label ++ (sign ++ ':' :: gap)).getLast? rfl
      rw [whole, findsFrom_some some_ reads, left]
      exact ⟨found, List.mem_cons_of_mem _ member, value⟩

theorem mem_dictionaryKeys {name code : List Char} : name ∈ dictionaryKeys code ↔
    ∃ run mark front blank back, name = run ++ mark ∧ run.head?.any isWord = true ∧
      (∀ c ∈ run, isLabelPart c = true) ∧ (mark = [] ∨ mark = ['?']) ∧ isBlank blank = true ∧
      code = front ++ (name ++ ':' :: blank :: back) ∧ endsInWord front = false := by
  rw [dictionaryKeys, List.mem_eraseDups, List.mem_map]
  constructor
  · rintro ⟨found, member, rfl⟩
    obtain ⟨_, _, -, -, _, reads⟩ := exists_of_mem_findsFrom member
    obtain ⟨run, mark, -, same, starts, all, marked, -⟩ := dictionaryKey_eq_some.1 reads
    obtain ⟨front, blank, back, whole, held, ends⟩ := @exists_of_mem_keys [] _ _ _ (by simp [endsInWord]) _ member
    exact ⟨run, mark, front, blank, back, same, starts, all, marked, held, whole, ends⟩
  · rintro ⟨run, mark, front, blank, back, rfl, starts, all, marked, held, rfl, ends⟩
    obtain ⟨found, member, value⟩ := @exists_mem_keys [] front run mark starts all marked blank held ends 0 none back
    rw [List.append_assoc]
    exact ⟨found, member, value⟩

end ArturoInsight
