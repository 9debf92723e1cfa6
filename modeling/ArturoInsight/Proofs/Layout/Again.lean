import ArturoInsight.Proofs.Layout.Relaid

/-! A stretch of code laid out twice. The second time changes nothing, unless the first one has left a
minus between blanks that are not a space on either side: such a minus has become an operator. -/

namespace ArturoInsight.Layout

open Text

def LooseMinus (text : List Char) : Prop :=
  ∃ left right, isBlank left = true ∧ isBlank right = true ∧ ¬ (left = ' ' ∧ right = ' ') ∧
    [left, '-', right] <:+: text

def ended (cut : Bool) (text : List Char) : List Char := if cut then trimEnd text else text

section Ended

variable (cut : Bool)

theorem ended_append_cons {c : Char} (solid : isBlank c = false) (before after : List Char) :
    ended cut (before ++ c :: after) = before ++ c :: ended cut after := by
  cases cut with
  | false => rfl
  | true => exact trimEnd_append_cons solid before after

theorem ended_word {word : List Char} (some_ : word ≠ []) (solid : ∀ c ∈ word, isBlank c = false)
    (before after : List Char) :
    ended cut (before ++ (word ++ after)) = before ++ (word ++ ended cut after) := by
  have last := List.dropLast_append_getLast some_
  have whole (after : List Char) : before ++ (word ++ after) =
      before ++ word.dropLast ++ word.getLast some_ :: after := by
    conv_lhs => rw [← last]
    simp only [List.append_assoc, List.singleton_append]
  rw [whole, whole, ended_append_cons cut (solid _ (List.getLast_mem some_))]

theorem ended_ended (text : List Char) : ended cut (ended cut text) = ended cut text := by
  cases cut with
  | false => rfl
  | true => exact List.rdropWhile_idempotent isBlank text

theorem ended_true_blanks {gap : List Char} (blanks : Blanks gap) : ended true gap = [] := by
  simpa [ended, trimEnd] using blanks

theorem ended_isPrefix (text : List Char) : ended cut text <+: text := by
  cases cut with
  | false => exact List.prefix_refl text
  | true => exact List.rdropWhile_prefix isBlank text

theorem ended_head? {text : List Char} (some_ : ended cut text ≠ []) :
    (ended cut text).head? = text.head? := by
  obtain ⟨more, whole⟩ := ended_isPrefix cut text
  obtain ⟨c, rest, start⟩ := List.exists_cons_of_ne_nil some_
  rw [start] at whole ⊢
  rw [← whole]
  rfl

end Ended

section LooseMinus

theorem not_looseMinus_of_short {text : List Char} (short : text.length < 3) : ¬ LooseMinus text := by
  rintro ⟨left, right, -, -, -, inside⟩
  have long := inside.length_le
  simp only [List.length_cons, List.length_nil] at long
  omega

theorem looseMinus_cons {c : Char} {rest : List Char} : LooseMinus (c :: rest) ↔ LooseMinus rest ∨
    ∃ right more, isBlank c = true ∧ isBlank right = true ∧ ¬ (c = ' ' ∧ right = ' ') ∧
      rest = '-' :: right :: more := by
  constructor
  · rintro ⟨left, right, blank, follows, differ, inside⟩
    obtain start | later := List.infix_cons_iff.1 inside
    · obtain ⟨more, whole⟩ := start
      obtain ⟨rfl, rfl⟩ : left = c ∧ '-' :: right :: more = rest := by simpa using whole
      exact .inr ⟨right, more, blank, follows, differ, rfl⟩
    · exact .inl ⟨left, right, blank, follows, differ, later⟩
  · rintro (⟨left, right, blank, follows, differ, inside⟩ | ⟨right, more, blank, follows, differ, rfl⟩)
    · exact ⟨left, right, blank, follows, differ, inside.trans (List.suffix_cons c rest).isInfix⟩
    · exact ⟨c, right, blank, follows, differ, ⟨[], more, rfl⟩⟩

theorem looseMinus_solids {solids : List Char} (solid : ∀ c ∈ solids, isBlank c = false)
    (rest : List Char) : LooseMinus (solids ++ rest) ↔ LooseMinus rest := by
  induction solids with
  | nil => rfl
  | cons c solids ih =>
    rw [List.cons_append, looseMinus_cons, ih fun d member => solid d (List.mem_cons_of_mem c member)]
    simp [solid c List.mem_cons_self]

theorem looseMinus_gap {b c : Char} {rest : List Char} (blank : isBlank b = true)
    (solid : isBlank c = false) : LooseMinus (b :: c :: rest) ↔ LooseMinus rest ∨
      c = '-' ∧ ∃ right more, rest = right :: more ∧ isBlank right = true ∧ ¬ (b = ' ' ∧ right = ' ') := by
  rw [looseMinus_cons, ← List.singleton_append, looseMinus_solids (by simpa using solid)]
  constructor
  · rintro (later | ⟨right, more, -, follows, differ, same⟩)
    · exact .inl later
    · obtain ⟨rfl, rfl⟩ : c = '-' ∧ rest = right :: more := by simpa using same
      exact .inr ⟨rfl, right, more, rfl, follows, differ⟩
  · rintro (later | ⟨rfl, right, more, rfl, follows, differ⟩)
    · exact .inl later
    · exact .inr ⟨right, more, blank, follows, differ, rfl⟩

end LooseMinus

theorem space_none_eq_nil {gap : List Char} : space false gap false = [] ↔ gap = [] := by
  cases gap with
  | nil => simp [space, collapse]
  | cons c gap => cases gap <;> simp [space, collapse]

section Gaps

variable {gap : List Char} (blanks : Blanks gap) (left right : Bool)

include blanks

theorem space_cases : space left gap right = [] ∨ ∃ b, isBlank b = true ∧ space left gap right = [b] := by
  have one : isBlank ' ' = true := by decide
  cases either : left || right with
  | true => exact .inr ⟨' ', one, by simp [space, either]⟩
  | false =>
    rcases gap with _ | ⟨c, _ | ⟨d, gap⟩⟩
    · exact .inl (by simp [space, either, collapse])
    · exact .inr ⟨c, blanks c List.mem_cons_self, by simp [space, either, collapse]⟩
    · exact .inr ⟨' ', one, by simp [space, either, collapse]⟩

theorem space_space : space left (space left gap right) right = space left gap right := by
  cases either : left || right with
  | true => simp [space, either]
  | false =>
    obtain none | ⟨b, -, one⟩ := space_cases blanks left right
    · simp [space, either, collapse] at none ⊢
      simp [none]
    · simp [space, either, collapse] at one ⊢
      simp [one]

end Gaps

theorem isSign_of_isBlank {c : Char} (blank : isBlank c = true) : isSign c = false := by
  by_contra sign
  have firm := isSign_iff.1 (Bool.not_eq_false _ ▸ sign)
  have solid : ∀ sign ∈ firmOperators, ∀ c ∈ sign, isBlank c = false := by decide
  rw [solid [c] firm c List.mem_cons_self] at blank
  contradiction

theorem solids_laid (after : Bool) (text : List Char) : solids (laid after text) = solids text := by
  induction text using words_induction generalizing after with
  | blanks gap blanks =>
    rw [laid_blanks blanks, solids_eq_nil.2 blanks, solids_eq_nil.2 (blanks_space blanks)]
  | plain gap c rest blanks solid plain ih =>
    rw [laid_plain blanks _ solid plain, solids_append, solids_append, solids_eq_nil.2 blanks,
      solids_eq_nil.2 (blanks_space blanks), solids_cons, solids_cons, ih]
  | operator gap sign tail blanks found ih =>
    rw [laid_operator blanks _ found, List.cons_append, solids_cons, if_pos (by decide), solids_append,
      solids_append, solids_append, solids_eq_nil.2 blanks, ih, List.nil_append]

theorem laid_ne_nil (after : Bool) {text : List Char} (some_ : text ≠ []) : laid after text ≠ [] := by
  induction text using words_induction with
  | blanks gap blanks =>
    rw [laid_blanks blanks]
    cases after with
    | true => simp [space]
    | false => exact mt space_none_eq_nil.1 some_
  | plain gap c rest blanks solid plain => simp [laid_plain blanks _ solid plain]
  | operator gap sign tail blanks found => simp [laid_operator blanks _ found]

theorem laid_true_eq (text : List Char) : ∃ rest, laid true text = ' ' :: rest := by
  induction text using words_induction with
  | blanks gap blanks => exact ⟨[], laid_blanks blanks true⟩
  | plain gap c rest blanks solid plain => exact ⟨_, laid_plain blanks true solid plain⟩
  | operator gap sign tail blanks found => exact ⟨_, laid_operator blanks true found⟩

theorem laid_head? (after : Bool) (text : List Char) :
    ∀ c ∈ (laid after text).head?, isSign c = false := by
  have spaced {gap rest : List Char} {c : Char} (blanks : Blanks gap)
      (first : ∀ d ∈ rest.head?, isSign d = false)
      (head : c ∈ (space after gap false ++ rest).head?) : isSign c = false := by
    obtain none | ⟨b, blank, one⟩ := space_cases blanks after false
    · rw [none] at head
      exact first c head
    · rw [one] at head
      obtain rfl : b = c := by simpa using head
      exact isSign_of_isBlank blank
  intro c
  induction text using words_induction with
  | blanks gap blanks =>
    rw [laid_blanks blanks, ← List.append_nil (space after gap false)]
    exact spaced blanks (by simp)
  | plain gap d rest blanks solid plain =>
    rw [laid_plain blanks _ solid plain]
    exact spaced blanks (by simpa using (operator?_eq_none_iff.1 plain).1)
  | operator gap sign tail blanks found =>
    rw [laid_operator blanks _ found]
    rintro ⟨⟩
    decide

theorem laid_space {rest : List Char} (solid : ∀ c ∈ rest.head?, isBlank c = false) :
    laid true (' ' :: rest) = laid false (' ' :: rest) := by
  have blanks := blanks_one
  cases rest with
  | nil => rw [laid_blanks blanks, laid_blanks blanks]; rfl
  | cons c rest =>
    cases found : operator? true (c :: rest) with
    | none =>
      have first := laid_plain blanks true (solid c rfl) found
      have second := laid_plain blanks false (solid c rfl) found
      exact first.trans second.symm
    | some pair =>
      obtain ⟨sign, tail⟩ := pair
      have whole := (operator?_some found).1
      rw [whole] at found ⊢
      exact (laid_operator blanks true found).trans (laid_operator blanks false found).symm

section Twice

variable (cut after : Bool) {gap rest : List Char} (blanks : Blanks gap)

include blanks

theorem twice_plain {c : Char} (solid : isBlank c = false)
    (plain : operator? (!(space after gap false).isEmpty) (c :: rest) = none) :
    ended cut (laid after (space after gap false ++ c :: rest)) = space after gap false ++ c :: rest ↔
      ended cut (laid false rest) = rest := by
  rw [laid_plain (blanks_space blanks) _ solid plain, space_space blanks, ended_append_cons cut solid]
  simp

theorem twice_operator {sign : List Char}
    (found : operator? (!gap.isEmpty) (sign ++ rest) = some (sign, rest)) :
    ended cut (laid after (gap ++ (sign ++ rest))) = ' ' :: sign ++ ended cut (laid true rest) := by
  rw [laid_operator blanks _ found]
  exact ended_word cut (sign_ne_nil found) (fun c => not_isBlank_of_mem_sign found) [' '] _

end Twice

theorem twice_minus (cut after : Bool) {left right : Char} (blank : isBlank left = true)
    (follows : isBlank right = true) {rest : List Char} (one : ∀ c ∈ rest.head?, isBlank c = false) :
    ended cut (laid after (left :: '-' :: right :: rest)) = left :: '-' :: right :: rest ↔
      (left = ' ' ∧ right = ' ') ∧ ended cut (laid false (right :: rest)) = right :: rest := by
  have blanks : Blanks [left] := by simpa [Blanks] using blank
  have found : operator? true (['-'] ++ right :: rest) = some (['-'], right :: rest) :=
    operator?_minus follows
  have twice := twice_operator cut after blanks found
  rw [List.singleton_append, List.singleton_append] at twice
  rw [twice]
  constructor
  · intro same
    obtain ⟨rfl, later⟩ : ' ' = left ∧ ended cut (laid true (right :: rest)) = right :: rest := by
      simpa using same
    obtain ⟨tail, spaced⟩ := laid_true_eq (right :: rest)
    have some_ : ended cut (laid true (right :: rest)) ≠ [] := by
      rw [later]
      simp
    have head := ended_head? cut some_
    rw [later, spaced] at head
    obtain rfl : right = ' ' := by simpa using head
    rw [laid_space one] at later
    exact ⟨⟨rfl, rfl⟩, later⟩
  · rintro ⟨⟨rfl, rfl⟩, later⟩
    rw [laid_space one, later]
    rfl

theorem laid_one (after : Bool) {text rest : List Char} {b : Char}
    (starts : laid after text = b :: rest) (blank : isBlank b = true) :
    ∀ c ∈ rest.head?, isBlank c = false := by
  have gap {gap more : List Char} (blanks : Blanks gap) (solid : ∀ c ∈ more.head?, isBlank c = false)
      (starts : space after gap false ++ more = b :: rest) : ∀ c ∈ rest.head?, isBlank c = false := by
    obtain none | ⟨d, -, one⟩ := space_cases blanks after false
    · rw [none, List.nil_append] at starts
      rw [solid b (by rw [starts]; rfl)] at blank
      contradiction
    · rw [one] at starts
      obtain ⟨-, rfl⟩ : d = b ∧ more = rest := by simpa using starts
      exact solid
  induction text using words_induction with
  | blanks gap_ blanks =>
    rw [laid_blanks blanks, ← List.append_nil (space after gap_ false)] at starts
    exact gap blanks (by simp) starts
  | plain gap_ d more blanks solid plain =>
    rw [laid_plain blanks _ solid plain] at starts
    exact gap blanks (by simpa using solid) starts
  | operator gap_ sign tail blanks found =>
    rw [laid_operator blanks _ found, List.cons_append] at starts
    obtain ⟨-, rfl⟩ := List.cons.inj starts
    exact head?_sign_append found _

theorem ended_laid_head? (cut after : Bool) (text : List Char) :
    ∀ c ∈ (ended cut (laid after text)).head?, isSign c = false := by
  intro c head
  rw [ended_head? cut (by rintro none; simp [none] at head)] at head
  exact laid_head? after text c head

theorem ended_laid_one (cut after : Bool) {text rest : List Char} {b : Char}
    (starts : ended cut (laid after text) = b :: rest) (blank : isBlank b = true) :
    ∀ c ∈ rest.head?, isBlank c = false := by
  obtain ⟨more, whole⟩ := ended_isPrefix cut (laid after text)
  rw [starts, List.cons_append] at whole
  intro c head
  obtain ⟨later, rfl⟩ := List.head?_eq_some_iff.1 head
  exact laid_one after whole.symm blank c rfl

section Word

variable (cut after : Bool) {gap rest : List Char} (blanks : Blanks gap)

include blanks

theorem laid_laid_blanks : ended cut (laid after (ended cut (laid after gap))) = ended cut (laid after gap) ∧
    ¬ LooseMinus (ended cut (laid after gap)) := by
  rw [laid_blanks blanks]
  have short : (ended cut (space after gap false)).length < 3 := by
    refine Nat.lt_of_le_of_lt (ended_isPrefix cut _).length_le ?_
    obtain none | ⟨b, -, one⟩ := space_cases blanks after false
    · simp [none]
    · simp [one]
  refine ⟨?_, not_looseMinus_of_short short⟩
  cases cut with
  | false =>
    change laid after (space after gap false) = space after gap false
    rw [laid_blanks (blanks_space blanks), space_space blanks]
  | true =>
    have nothing : Blanks [] := List.forall_mem_nil _
    rw [ended_true_blanks (blanks_space blanks), laid_blanks nothing,
      ended_true_blanks (blanks_space nothing)]

theorem laid_laid_plain {c : Char} (solid : isBlank c = false) (sign : isSign c = false)
    (next : ∀ d ∈ rest.head?, isSign d = false)
    (one : ∀ b more, rest = b :: more → isBlank b = true → ∀ d ∈ more.head?, isBlank d = false)
    (later : ended cut (laid false rest) = rest ↔ ¬ LooseMinus rest) :
    ended cut (laid after (space after gap false ++ c :: rest)) = space after gap false ++ c :: rest ↔
      ¬ LooseMinus (space after gap false ++ c :: rest) := by
  by_cases minus : c = '-' ∧ space after gap false ≠ [] ∧ rest.head?.any isBlank = true
  · obtain ⟨rfl, some_, follows⟩ := minus
    obtain ⟨left, blank, same⟩ := (space_cases blanks after false).resolve_left some_
    obtain ⟨right, more, rfl⟩ : ∃ right more, rest = right :: more := by
      cases rest with
      | nil => simp at follows
      | cons right more => exact ⟨right, more, rfl⟩
    have right_blank : isBlank right = true := follows
    rw [same, List.singleton_append, twice_minus cut after blank follows (one _ _ rfl follows), later,
      looseMinus_gap blank solid]
    simp only [true_and, List.cons.injEq]
    constructor
    · rintro ⟨single, firm⟩ (loose | ⟨_, _, ⟨rfl, -⟩, -, double⟩)
      · exact firm loose
      · exact double single
    · intro none
      rw [not_or] at none
      refine ⟨?_, none.1⟩
      by_contra double
      exact none.2 ⟨right, more, ⟨rfl, rfl⟩, right_blank, double⟩
  · have plain : operator? (!(space after gap false).isEmpty) (c :: rest) = none := by
      rw [operator?_eq_none_iff]
      refine ⟨sign, ?_⟩
      rintro ⟨rfl, arrow | ⟨spaced, follows⟩⟩
      · exact absurd (next '>' arrow) (by decide)
      · exact minus ⟨rfl, by simpa using spaced, follows⟩
    rw [twice_plain cut after blanks solid plain, later]
    apply not_congr
    obtain none | ⟨left, blank, same⟩ := space_cases blanks after false
    · rw [none, List.nil_append, ← List.singleton_append, looseMinus_solids (by simpa using solid)]
    · rw [same, List.singleton_append, looseMinus_gap blank solid]
      refine (or_iff_left ?_).symm
      rintro ⟨rfl, right, more, rfl, follows, -⟩
      exact minus ⟨rfl, by simp [same], follows⟩

end Word

theorem laid_laid_operator (cut after : Bool) {sign rest : List Char}
    (signed : sign ∈ firmOperators ∨ sign = ['-']) (next : ∀ d ∈ rest.head?, isSign d = false)
    (spaced : rest ≠ [] → rest.head? = some ' ')
    (later : ended cut (laid true rest) = rest ↔ ¬ LooseMinus rest) :
    ended cut (laid after (' ' :: sign ++ rest)) = ' ' :: sign ++ rest ↔
      ¬ LooseMinus (' ' :: sign ++ rest) := by
  have blanks := blanks_one
  by_cases bare : sign = ['-'] ∧ rest = []
  · obtain ⟨rfl, rfl⟩ := bare
    refine iff_of_true ?_ (not_looseMinus_of_short (by simp))
    have plain := @laid_plain [' '] blanks after '-' [] (by decide) rfl
    have same : laid after [' ', '-'] = [' ', '-'] := by
      rw [List.singleton_append] at plain
      rw [plain]
      cases after <;> rfl
    change ended cut (laid after [' ', '-']) = [' ', '-']
    rw [same]
    cases cut <;> rfl
  · have found : operator? true (sign ++ rest) = some (sign, rest) := by
      obtain firm | rfl := signed
      · exact operator?_firm firm true next
      · have follows : rest.head?.any isBlank = true := by
          rw [spaced fun none => bare ⟨rfl, none⟩]
          decide
        exact operator?_minus follows
    have twice := twice_operator cut after blanks found
    rw [List.singleton_append] at twice
    have whole : ended cut (laid after (' ' :: (sign ++ rest))) = ' ' :: (sign ++ rest) ↔
        ended cut (laid true rest) = rest := by
      rw [twice]
      simp
    rw [List.cons_append, whole, later]
    obtain ⟨c, more, rfl⟩ := List.exists_cons_of_ne_nil (sign_ne_nil found)
    have solid : ∀ d ∈ more, isBlank d = false := fun d member =>
      not_isBlank_of_mem_sign found (List.mem_cons_of_mem c member)
    rw [List.cons_append, looseMinus_gap (by decide) (not_isBlank_of_mem_sign found List.mem_cons_self),
      looseMinus_solids solid]
    apply not_congr
    refine (or_iff_left ?_).symm
    rintro ⟨rfl, right, tail, same, blank, differs⟩
    cases more with
    | nil =>
      rw [List.nil_append] at same
      have head := spaced (by simp [same])
      rw [same] at head
      exact differs ⟨rfl, by simpa using head⟩
    | cons d more =>
      obtain ⟨rfl, -⟩ := List.cons.inj same
      rw [solid d List.mem_cons_self] at blank
      contradiction

theorem laid_laid (cut after : Bool) (text : List Char) :
    ended cut (laid after (ended cut (laid after text))) = ended cut (laid after text) ↔
      ¬ LooseMinus (ended cut (laid after text)) := by
  induction text using words_induction generalizing after with
  | blanks gap blanks =>
    obtain ⟨same, firm⟩ := laid_laid_blanks cut after blanks
    exact iff_of_true same firm
  | plain gap c rest blanks solid plain ih =>
    rw [laid_plain blanks _ solid plain, ended_append_cons cut solid]
    exact laid_laid_plain cut after blanks solid (operator?_eq_none_iff.1 plain).1
      (ended_laid_head? cut false rest) (fun b more => ended_laid_one cut false) (ih false)
  | operator gap sign tail blanks found ih =>
    rw [twice_operator cut after blanks found]
    apply laid_laid_operator cut after _ (ended_laid_head? cut true tail) _ (ih true)
    · exact (operator?_some found).2.imp_right And.left
    · intro some_
      obtain ⟨more, spaced⟩ := laid_true_eq tail
      rw [ended_head? cut some_, spaced]
      rfl

end ArturoInsight.Layout
