import ArturoInsight.Proofs.Layout.Bound

/-! A label that the layout writes anew binds what it bound before. -/

namespace ArturoInsight.Layout

open Text Lexical Binding

/-- What comes after the colon of a label, with the blanks before that colon, and the same written anew. -/
structure Relabelled (gap : List Char) (x y : List Spaced) : Prop where
  bared : bare x = bare y
  ascii : ∀ c ∈ gap, isAsciiBlank c = true
  old : ∀ first ∈ x.head?, Blanks first.gap
  fresh : ∀ first ∈ y.head?, Blanks first.gap
  apart : gap ≠ [] → ∀ first ∈ x.head?, first.gap ≠ []

def SameBound (first second : List Char × List Spaced) : Prop :=
  first.1 = second.1 ∧ trim (written first.2) = trim (written second.2)

theorem trim_append {gap : List Char} (blanks : Blanks gap) (text : List Char) : trim (gap ++ text) = trim text := by
  rw [trim, trimStart, List.dropWhile_append_of_pos blanks]
  rfl

theorem trim_written_bare {line : List Spaced} (blanks : ∀ first ∈ line.head?, Blanks first.gap) :
    trim (written line) = trim (written (bare line)) := by
  cases line with
  | nil => rfl
  | cons item rest =>
    rw [written_cons, trim_append (blanks item rfl)]
    rfl

namespace Relabelled

variable {gap : List Char} {x y : List Spaced} (relabelled : Relabelled gap x y)

include relabelled

theorem trim_eq : trim (written x) = trim (written y) := by
  rw [trim_written_bare relabelled.old, trim_written_bare relabelled.fresh, relabelled.bared]

theorem letter : (!gap.isEmpty && (written x).head?.any isLetter) = false := by
  cases x with
  | nil => simp [written]
  | cons item rest =>
    have start := relabelled.apart
    have blanks := relabelled.old item rfl
    cases gap with
    | nil => rfl
    | cons c gap =>
      obtain ⟨d, more, whole⟩ := List.exists_cons_of_ne_nil (start (List.cons_ne_nil c gap) item rfl)
      have blank := blanks d (by simp [whole])
      simp [whole, not_isLetter_of_isBlank d blank]

end Relabelled

section Bare

variable (line : List Spaced)

theorem boundFrom_bare (fits : List Char → Bool) : boundFrom fits false (bare line) = boundFrom fits false line := by
  cases line <;> rfl

theorem definedFrom_bare : definedFrom false (bare line) = definedFrom false line := by
  cases line with
  | nil => rfl
  | cons first rest =>
    have here : definedHere? false (bare (first :: rest)) = definedHere? false (first :: rest) := rfl
    cases found : definedHere? false (first :: rest) with
    | none => exact (definedFrom_none (here.trans found)).trans (definedFrom_none found).symm
    | some pair => exact (definedFrom_some (here.trans found)).trans (definedFrom_some found).symm

end Bare

section Label

variable {names : List Spaced} (other : ∀ item ∈ names, item.char ≠ ':') {gap : List Char} {x y : List Spaced}

theorem colon?_other {next : Spaced} (differs : next.char ≠ ':') (fits : List Char → Bool) (rest : List Spaced) :
    colon? fits (next :: rest) = none := by simp [colon?, differs]

theorem colon?_fits {fits : List Char → Bool} (joined : fits gap = true) (rest : List Spaced) :
    colon? fits (⟨gap, ':', true⟩ :: rest) = some (gap.isEmpty, rest) := by simp [colon?, joined]

theorem label?_colon (joined : joins gap = true) (rest : List Spaced) :
    label? joins (⟨gap, ':', true⟩ :: rest) = some ([], gap.isEmpty, rest) := by
  rw [label?_other joins (by simp +decide), colon?_fits joined]
  rfl

include other

theorem exists_of_spelled? {word : List Char} (colonless : ':' ∉ word) {rest tail : List Spaced}
    (found : spelled? word (names ++ ⟨gap, ':', true⟩ :: rest) = some tail) :
    ∃ names', (∀ item ∈ names', item.char ≠ ':') ∧ tail = names' ++ ⟨gap, ':', true⟩ :: rest := by
  induction word generalizing names with
  | nil => exact ⟨names, other, (Option.some.inj found).symm⟩
  | cons c word ih =>
    rw [List.mem_cons, not_or] at colonless
    cases names with
    | nil => simp [spelled?, colonless.1] at found
    | cons item names =>
      rw [List.cons_append, spelled?] at found
      split_ifs at found
      exact ih (List.forall_mem_cons.1 other).2 colonless.2 found

theorem definedHere?_label {rest : List Spaced} (apart : gap ≠ [] → ∀ first ∈ rest.head?, first.gap ≠ [])
    (inWord : Bool) : definedHere? inWord (names ++ ⟨gap, ':', true⟩ :: rest) = none := by
  cases names with
  | nil => simp [definedHere?, defined?, bare, spelled?]
  | cons item names =>
    obtain ⟨first, later⟩ := List.forall_mem_cons.1 other
    have named : ∀ next ∈ ({ item with gap := [] } : Spaced) :: names, next.char ≠ ':' :=
      List.forall_mem_cons.2 ⟨first, later⟩
    have silent : defined? (item :: names ++ ⟨gap, ':', true⟩ :: rest) = none := by
      rw [defined?]
      cases found : spelled? "define".toList (bare (item :: names ++ ⟨gap, ':', true⟩ :: rest)) with
      | none => rfl
      | some tail =>
        obtain ⟨more, differ, rfl⟩ := exists_of_spelled? named (by decide) found
        rw [Option.bind_some]
        cases more with
        | cons next more =>
          rw [List.cons_append, colon?_other (List.forall_mem_cons.1 differ).1]
          rfl
        | nil =>
          cases gap with
          | nil => rfl
          | cons c gap =>
            have nameless : (wordRun rest).1 = [] := by
              cases rest with
              | nil => rfl
              | cons next rest => simp [wordRun, apart (List.cons_ne_nil c gap) next rfl]
            rw [List.nil_append, colon?_fits rfl, Option.bind_some]
            exact if_pos (by simp [nameless])
    rw [List.cons_append] at silent ⊢
    rw [definedHere?, silent]
    exact ite_self _

variable (relabelled : Relabelled gap x y)

include relabelled

theorem label?_relabelled :
    Option.Rel (fun first second => first.1 = second.1 ∧ first.2 = (gap.isEmpty, x) ∧ second.2 = (true, y))
      (label? joins (names ++ ⟨gap, ':', true⟩ :: x)) (label? joins (names ++ ⟨[], ':', true⟩ :: y)) := by
  have joined : joins gap = true := by
    rw [joins, List.all_eq_true.2 relabelled.ascii]
    rfl
  induction names with
  | nil =>
    rw [List.nil_append, List.nil_append, label?_colon joined, label?_colon rfl]
    exact .some ⟨rfl, rfl, rfl⟩
  | cons item names ih =>
    obtain ⟨first, later⟩ := List.forall_mem_cons.1 other
    rw [List.cons_append, List.cons_append, label?, label?, colon?_other first, colon?_other first]
    split_ifs
    · exact rel_map (ih later) fun x y same => ⟨congrArg (item.char :: ·) same.1, same.2⟩
    · cases names with
      | nil =>
        rw [List.nil_append, List.nil_append, colon?_fits joined, colon?_fits rfl]
        exact .some ⟨rfl, rfl, rfl⟩
      | cons next names =>
        have second := (List.forall_mem_cons.1 later).1
        rw [List.cons_append, List.cons_append, colon?_other second, colon?_other second]
        exact .none
    · exact .none

theorem boundFrom_relabelled (inName : Bool) :
    Option.Rel SameBound (boundFrom joins inName (names ++ ⟨gap, ':', true⟩ :: x))
      (boundFrom joins inName (names ++ ⟨[], ':', true⟩ :: y)) := by
  induction names generalizing inName with
  | nil =>
    have silent (inName : Bool) (gap : List Char) (rest : List Spaced) :
        boundFrom joins inName (⟨gap, ':', true⟩ :: rest) = boundFrom joins false rest := by
      have part : isNamePart ':' = false ∧ isNameStart ':' = false := by decide
      simp [boundFrom, bound?, part]
    have same : boundFrom joins false x = boundFrom joins false y := by
      rw [← boundFrom_bare x, ← boundFrom_bare y, relabelled.bared]
    rw [List.nil_append, List.nil_append, silent, silent, same]
    cases boundFrom joins false y with
    | none => exact .none
    | some found => exact .some ⟨rfl, rfl⟩
  | cons item names ih =>
    obtain ⟨first, later⟩ := List.forall_mem_cons.1 other
    rw [List.cons_append, List.cons_append, boundFrom, boundFrom]
    refine rel_or ?_ (ih later _)
    split_ifs
    · exact .none
    · unfold bound?
      split_ifs
      · refine rel_bind (label?_relabelled later relabelled) ?_
        rintro ⟨name, joined, x'⟩ ⟨name', joined', y'⟩ ⟨same, old, new⟩
        obtain rfl : name = name' := same
        obtain ⟨rfl, rfl⟩ := Prod.mk.inj old
        obtain ⟨rfl, rfl⟩ := Prod.mk.inj new
        simp only [relabelled.letter, relabelled.trim_eq, Bool.not_true, Bool.false_and, Bool.not_false, Bool.true_and]
        split_ifs
        · exact .some ⟨rfl, relabelled.trim_eq⟩
        · exact .none
      · exact .none

theorem definedFrom_relabelled (inWord : Bool) :
    definedFrom inWord (names ++ ⟨gap, ':', true⟩ :: x) = definedFrom inWord (names ++ ⟨[], ':', true⟩ :: y) := by
  have old (names : List Spaced) (other : ∀ item ∈ names, item.char ≠ ':') :=
    definedHere?_label other relabelled.apart
  have new (names : List Spaced) (other : ∀ item ∈ names, item.char ≠ ':') (inWord : Bool) :
      definedHere? inWord (names ++ ⟨[], ':', true⟩ :: y) = none := definedHere?_label other (by simp) inWord
  induction names generalizing inWord with
  | nil =>
    have first := old [] other inWord
    have second := new [] other inWord
    rw [List.nil_append] at first second
    have colon : isWord ':' = false := by decide
    rw [List.nil_append, List.nil_append, definedFrom_none first, definedFrom_none second, colon,
      ← definedFrom_bare x, ← definedFrom_bare y, relabelled.bared]
  | cons item names ih =>
    have first := old _ other inWord
    have second := new _ other inWord
    rw [List.cons_append] at first second
    rw [List.cons_append, List.cons_append, definedFrom_none first, definedFrom_none second]
    exact ih (List.forall_mem_cons.1 other).2 _

end Label

section Parts

variable {tag : Tag} (code : tag.isCode = true)

include code

theorem spaced_name {name : List Char} (solid : ∀ c ∈ name, isBlank c = false) (rest : List Cell) :
    spaced (mark tag name ++ rest) = name.map (⟨[], ·, true⟩) ++ spaced rest := by
  have shown : tag ≠ .comment := by
    rintro rfl
    contradiction
  induction name with
  | nil => rfl
  | cons c name ih =>
    obtain ⟨first, later⟩ := List.forall_mem_cons.1 solid
    rw [mark_cons, List.cons_append, spaced_solid shown (fun _ => first), code, ih later]
    rfl

theorem spaced_label {name gap run : List Char} (solid : ∀ c ∈ name, isBlank c = false) (gaps : Blanks gap)
    (runs : Blanks run) (rest : List Cell) :
    spaced (mark tag (name ++ (gap ++ ':' :: run)) ++ rest) =
      name.map (⟨[], ·, true⟩) ++ ⟨gap, ':', true⟩ :: spacedFrom run rest := by
  have shown : tag ≠ .comment := by
    rintro rfl
    contradiction
  rw [mark_append, List.append_assoc, spaced_name code solid, mark_append, List.append_assoc, spaced,
    spacedFrom_gap code gaps, mark_cons, List.cons_append, spacedFrom_solid shown (fun _ => by decide), code,
    spacedFrom_gap code runs]
  rfl

end Parts

theorem ne_nil_of_labels {gap run tail : List Char} (label : labels gap (run ++ tail) = true) (some_ : gap ≠ [])
    (stops : ∀ c ∈ tail.head?, isAsciiBlank c = false) : run ≠ [] := by
  rintro rfl
  rw [labels, Bool.and_eq_true, Bool.or_eq_true, List.isEmpty_iff] at label
  have blank := label.2.resolve_left some_
  cases tail with
  | nil => simp at blank
  | cons c tail => simp [stops c rfl] at blank

theorem spaced_labelFirst (parts : List (Tag × List Char)) :
    spaced (unstretch (labelFirst parts)) = spaced (unstretch parts) ∨
      ∃ names gap x y, (∀ item ∈ names, item.char ≠ ':') ∧ Relabelled gap x y ∧
        spaced (unstretch parts) = names ++ ⟨gap, ':', true⟩ :: x ∧
        spaced (unstretch (labelFirst parts)) = names ++ ⟨[], ':', true⟩ :: y := by
  cases parts with
  | nil => exact .inl rfl
  | cons part rest =>
    obtain ⟨tag, text⟩ := part
    cases code : tag.isCode with
    | false => exact .inl (by simp [labelFirst, code])
    | true =>
      obtain same | ⟨name, gap, after, labelled, label, written⟩ := spaceLabel_cases text
      · exact .inl (by simp [labelFirst, same])
      obtain ⟨run, tail, rfl, ascii, stops⟩ := exists_run isAsciiBlank after
      have gaps : Blanks gap := fun c member => isBlank_of_isAsciiBlank (labelled.blanks c member)
      have runs : Blanks run := fun c member => isBlank_of_isAsciiBlank (ascii c member)
      have solid : ∀ c ∈ name, isBlank c = false := by
        intro c member
        obtain part | rfl := labelled.taken.part member
        · exact Name.not_isBlank_of_isNamePart part
        · decide
      have old : text = name ++ (gap ++ ':' :: run) ++ tail := by rw [labelled.whole]; simp
      have new : spaceLabel text = name ++ ([] ++ ':' :: [' ']) ++ tail := by
        rw [written, dropWhile_run ascii stops]
        simp
      refine .inr ⟨name.map (⟨[], ·, true⟩), gap, spacedFrom run (mark tag tail ++ unstretch rest),
        spacedFrom [' '] (mark tag tail ++ unstretch rest), ?_, ?_, ?_, ?_⟩
      · intro item member
        obtain ⟨c, inside, rfl⟩ := List.mem_map.1 member
        obtain part | rfl := labelled.taken.part inside
        · rintro rfl
          exact absurd part (by decide)
        · decide
      · refine ⟨bare_spacedFrom _ _ _, labelled.blanks, ?_, ?_, ?_⟩
        · exact fun first head => gaps_spacedFrom runs _ first (List.mem_of_head? head)
        · exact fun first head => gaps_spacedFrom blanks_one _ first (List.mem_of_head? head)
        · intro some_ first head
          obtain ⟨more, whole⟩ := head?_spacedFrom _ _ first head
          simp [whole, ne_nil_of_labels label some_ stops]
      · rw [unstretch_cons, old, mark_append, List.append_assoc, spaced_label code solid gaps runs]
      · rw [labelFirst, unstretch_cons, if_pos code, new, mark_append, List.append_assoc,
          spaced_label code solid blanks_nil blanks_one]

variable (parts : List (Tag × List Char))

theorem boundFrom_labelFirst : Option.Rel SameBound (boundFrom joins false (spaced (unstretch parts)))
    (boundFrom joins false (spaced (unstretch (labelFirst parts)))) := by
  obtain same | ⟨names, gap, x, y, other, relabelled, old, new⟩ := spaced_labelFirst parts
  · rw [same]
    cases boundFrom joins false (spaced (unstretch parts)) with
    | none => exact .none
    | some found => exact .some ⟨rfl, rfl⟩
  · rw [old, new]
    exact boundFrom_relabelled other relabelled false

theorem definedFrom_labelFirst : definedFrom false (spaced (unstretch (labelFirst parts))) =
    definedFrom false (spaced (unstretch parts)) := by
  obtain same | ⟨names, gap, x, y, other, relabelled, old, new⟩ := spaced_labelFirst parts
  · rw [same]
  · rw [old, new]
    exact (definedFrom_relabelled other relabelled false).symm

end ArturoInsight.Layout
