import ArturoInsight.Proofs.Layout.Parts

/-! When the layout of a line is final. The layout of a laid out line changes it once more exactly where
a label still stands apart from its colon, or a minus is left between other blanks than two spaces. -/

namespace ArturoInsight.Layout

open Text Lexical

def Detached (text : List Char) : Prop :=
  ∃ name gap rest, Labelled text name gap rest ∧ gap ≠ [] ∧ rest.head?.any isAsciiBlank = true

theorem Labelled.joined {text name gap rest : List Char} (labelled : Labelled text name gap rest)
    (other : List Char) : Labelled (name ++ ':' :: other) name [] other :=
  ⟨rfl, labelled.taken.before (by simp +decide), labelled.word, List.forall_mem_nil _⟩

theorem spaceLabel_spaceLabel (text : List Char) : spaceLabel (spaceLabel text) = spaceLabel text := by
  obtain same | ⟨name, gap, rest, labelled, -, written⟩ := spaceLabel_cases text
  · rw [same, same]
  · have label : labels [] (' ' :: rest.dropWhile isAsciiBlank) = true := by simp +decide [labels]
    rw [written, spaceLabel_of_labelled (labelled.joined _), if_pos label,
      List.dropWhile_cons_of_pos (by decide), List.dropWhile_idempotent]

theorem laid_firm {run rest : List Char} (firm : ∀ c ∈ run, isBlank c = false ∧ isSign c = false)
    (next : ∀ c ∈ rest.head?, isSign c = false) : laid false (run ++ rest) = run ++ laid false rest := by
  induction run with
  | nil => rfl
  | cons c run ih =>
    obtain ⟨⟨solid, sign⟩, later⟩ := List.forall_mem_cons.1 firm
    have plain : operator? false (c :: (run ++ rest)) = none := by
      rw [operator?_eq_none_iff]
      refine ⟨sign, ?_⟩
      rintro ⟨-, arrow | ⟨spaced, -⟩⟩
      · cases run with
        | nil => exact absurd (next '>' arrow) (by decide)
        | cons d run =>
          obtain rfl : d = '>' := by simpa using arrow
          exact absurd (later '>' List.mem_cons_self).2 (by decide)
      · contradiction
    have word := laid_plain blanks_nil false solid plain
    rw [List.nil_append] at word
    rw [List.cons_append, word, ih later]
    rfl

theorem exists_of_laid_firm {cut : Bool} {text run rest : List Char}
    (firm : ∀ c ∈ run, isBlank c = false ∧ isSign c = false)
    (starts : ended cut (laid false text) = run ++ rest) :
    ∃ tail, text = run ++ tail ∧ ended cut (laid false tail) = rest := by
  induction run generalizing text with
  | nil => exact ⟨text, rfl, starts⟩
  | cons c run ih =>
    obtain ⟨⟨solid, sign⟩, later⟩ := List.forall_mem_cons.1 firm
    have head : (laid false text).head? = some c := by
      rw [← ended_head? cut (by simp [starts]), starts]
      rfl
    induction text using words_induction with
    | blanks gap blanks =>
      rw [laid_blanks blanks] at head
      have blank := blanks_space blanks c (List.mem_of_head? head)
      rw [solid] at blank
      contradiction
    | plain gap d more blanks solidD plain =>
      rw [laid_plain blanks _ solidD plain] at head starts
      obtain none | ⟨b, blank, one⟩ := space_cases blanks false false
      · rw [none] at head starts
        obtain rfl := space_none_eq_nil.1 none
        obtain rfl : d = c := by simpa using head
        rw [List.nil_append] at starts ⊢
        have word := ended_append_cons cut solid [] (laid false more)
        rw [List.nil_append, starts, List.nil_append, List.cons_append, List.cons.injEq] at word
        obtain ⟨tail, rfl, last⟩ := ih later word.2.symm
        exact ⟨tail, rfl, last⟩
      · rw [one] at head
        obtain rfl : b = c := by simpa using head
        rw [solid] at blank
        contradiction
    | operator gap sign tail blanks found =>
      rw [laid_operator blanks _ found] at head
      obtain rfl : ' ' = c := by simpa using head
      exact absurd solid (by decide)

theorem trimStart_space_sign {blank : Bool} {text sign tail : List Char}
    (found : operator? blank text = some (sign, tail)) (rest : List Char) :
    trimStart (' ' :: sign ++ rest) = sign ++ rest :=
  trimStart_run blanks_one (head?_sign_append found rest)

section First

variable (cut : Bool)

theorem trimStart_laid_laid {text : List Char} (start : ∀ c ∈ text.head?, isBlank c = false) :
    ended cut (trimStart (laid false (ended cut (trimStart (laid false text))))) =
        ended cut (trimStart (laid false text)) ↔
      ¬ LooseMinus (ended cut (trimStart (laid false text))) := by
  cases text with
  | nil => exact iff_of_true (by cases cut <;> rfl) (not_looseMinus_of_short (by cases cut <;> simp +decide))
  | cons c rest =>
    have solid := start c rfl
    cases found : operator? false (c :: rest) with
    | none =>
      have sign := (operator?_eq_none_iff.1 found).1
      have first : trimStart (laid false (c :: rest)) = c :: laid false rest := by
        rw [← List.nil_append (c :: rest), laid_plain blanks_nil false solid found]
        exact trimStart_cons solid _
      have kept := ended_append_cons cut solid [] (laid false rest)
      have firm : ∀ d ∈ [c], isBlank d = false ∧ isSign d = false := by simp [solid, sign]
      have second := laid_firm firm (ended_laid_head? cut false rest)
      have keptAgain := ended_append_cons cut solid [] (laid false (ended cut (laid false rest)))
      rw [List.nil_append, List.nil_append] at kept keptAgain
      rw [List.singleton_append, List.singleton_append] at second
      have lone : LooseMinus (c :: ended cut (laid false rest)) ↔
          LooseMinus (ended cut (laid false rest)) :=
        looseMinus_solids (List.forall_mem_singleton.2 solid) _
      rw [first, kept, second, trimStart_cons solid, keptAgain, lone, ← laid_laid]
      simp
    | some pair =>
      obtain ⟨sign, tail⟩ := pair
      obtain ⟨whole, signed⟩ := operator?_some found
      have firm : sign ∈ firmOperators := signed.resolve_right (by simp)
      have solidSign : ∀ c ∈ sign, isBlank c = false := fun c => not_isBlank_of_mem_sign found
      have trimmed := trimStart_space_sign found
      have cuts (rest : List Char) : ended cut (sign ++ rest) = sign ++ ended cut rest :=
        ended_word cut (sign_ne_nil found) solidSign [] rest
      rw [whole] at found ⊢
      have first := laid_operator blanks_nil false found
      have second := laid_operator blanks_nil false
        (operator?_firm firm false (ended_laid_head? cut true tail))
      rw [List.nil_append] at first second
      rw [first, trimmed, cuts, second, trimmed, cuts, looseMinus_solids solidSign, ← laid_laid]
      simp

end First

theorem head?_spaceLabel (text : List Char) : (spaceLabel text).head? = text.head? := by
  obtain same | ⟨name, gap, rest, labelled, -, written⟩ := spaceLabel_cases text
  · rw [same]
  · rw [written, labelled.whole]
    obtain ⟨c, more, rfl⟩ := List.exists_cons_of_ne_nil labelled.taken.ne_nil
    rfl

theorem firm_label {name tail : List Char} (taken : Name.Taken tail name) :
    ∀ c ∈ name ++ [':'], isBlank c = false ∧ isSign c = false := by
  have sign {c : Char} (other : isSign c = true) : ¬ (isNamePart c = true ∨ c = '?') := by
    simp only [isSign, List.contains_eq_mem, List.mem_cons, List.not_mem_nil, or_false,
      decide_eq_true_eq] at other
    rcases other with rfl | rfl | rfl | rfl | rfl | rfl <;> decide
  intro c member
  obtain inside | last := List.mem_append.1 member
  · exact ⟨taken.solid inside, by simpa using mt sign (not_not_intro (taken.part inside))⟩
  · obtain rfl := List.mem_singleton.1 last
    decide

theorem trimStart_laid_firm (cut : Bool) {run rest : List Char} (some_ : run ≠ [])
    (firm : ∀ c ∈ run, isBlank c = false ∧ isSign c = false) (next : ∀ c ∈ rest.head?, isSign c = false) :
    ended cut (trimStart (laid false (run ++ rest))) = run ++ ended cut (laid false rest) := by
  have solid : ∀ c ∈ run, isBlank c = false := fun c member => (firm c member).1
  have trimmed : trimStart (run ++ laid false rest) = run ++ laid false rest := by
    obtain ⟨c, more, rfl⟩ := List.exists_cons_of_ne_nil some_
    exact trimStart_cons (solid c List.mem_cons_self) _
  rw [laid_firm firm next, trimmed]
  exact ended_word cut some_ solid [] _

theorem detached_changes (cut : Bool) {text : List Char} (detached : Detached text) :
    ended cut (trimStart (laid false (spaceLabel text))) ≠ text := by
  obtain ⟨name, gap, rest, labelled, apart, blank⟩ := detached
  have label : labels gap rest = true := by
    have colon : rest.head? ≠ some ':' := by
      intro colon
      rw [colon] at blank
      exact absurd blank (by decide)
    simp [labels, colon, blank]
  have written : spaceLabel text = (name ++ [':']) ++ ' ' :: rest.dropWhile isAsciiBlank := by
    rw [spaceLabel_of_labelled labelled, if_pos label, List.append_assoc, List.singleton_append]
  rw [written, trimStart_laid_firm cut (by simp) (firm_label labelled.taken) (by simp +decide),
    labelled.whole, List.append_assoc]
  intro same
  obtain ⟨c, more, rfl⟩ := List.exists_cons_of_ne_nil apart
  obtain ⟨rfl, -⟩ := List.cons.inj (List.append_cancel_left same)
  exact absurd (labelled.blanks ':' List.mem_cons_self) (by decide)

theorem trimStart_laid_of_word {text : List Char} (start : ∀ c ∈ text.head?, isBlank c = false)
    (word : (trimStart (laid false text)).head?.any isAsciiWord = true) :
    trimStart (laid false text) = laid false text := by
  cases text with
  | nil => rfl
  | cons c rest =>
    cases found : operator? false (c :: rest) with
    | none =>
      have plain := laid_plain blanks_nil false (start c rfl) found
      rw [List.nil_append] at plain
      rw [plain]
      exact trimStart_cons (start c rfl) _
    | some pair =>
      obtain ⟨sign, tail⟩ := pair
      obtain ⟨whole, signed⟩ := operator?_some found
      have firm : sign ∈ firmOperators := signed.resolve_right (by simp)
      have other : ∀ sign ∈ firmOperators, sign.head?.any isAsciiWord = false := by decide
      have noWord := other sign firm
      obtain ⟨d, more, rfl⟩ := List.exists_cons_of_ne_nil (sign_ne_nil found)
      rw [whole] at found word
      have laid := laid_operator blanks_nil false found
      rw [List.nil_append] at laid
      rw [laid, trimStart_space_sign found] at word
      have word : isAsciiWord d = true := word
      have noWord : isAsciiWord d = false := noWord
      rw [word] at noWord
      contradiction

theorem laid_space_eq (rest : List Char) : ∃ more, laid false (' ' :: rest) = ' ' :: more := by
  obtain ⟨gap, more, rfl, blanks, stops⟩ := exists_run isBlank rest
  have spaces : Blanks (' ' :: gap) := List.forall_mem_cons.2 ⟨by decide, blanks⟩
  have one : space false (' ' :: gap) false = [' '] := by
    cases gap <;> simp [space, collapse]
  cases more with
  | nil =>
    have whole := laid_blanks spaces false
    rw [one] at whole
    exact ⟨[], by rw [List.append_nil]; exact whole⟩
  | cons c more =>
    cases found : operator? true (c :: more) with
    | none =>
      have whole := laid_plain spaces false (stops c rfl) found
      rw [one] at whole
      exact ⟨_, whole⟩
    | some pair =>
      obtain ⟨sign, tail⟩ := pair
      have whole := (operator?_some found).1
      rw [whole] at found
      have laid := laid_operator spaces false found
      rw [← whole] at laid
      exact ⟨_, laid⟩

theorem exists_space_of_spaced {cut : Bool} {name rest tail : List Char}
    (taken : Name.Taken (':' :: rest) name) (word : name.head?.any isAsciiWord = true)
    (label : spaceLabel (name ++ [':'] ++ tail) = name ++ [':'] ++ tail)
    (single : (ended cut (laid false tail)).head? ≠ some ':') : ∃ more, tail = ' ' :: more := by
  have labelled : Labelled (name ++ [':'] ++ tail) name [] tail :=
    ⟨by simp, taken.before (by simp +decide), word, List.forall_mem_nil _⟩
  have other : tail.head? ≠ some ':' := by
    intro colon
    obtain ⟨more, rfl⟩ := List.head?_eq_some_iff.1 colon
    have plain := @laid_plain [] blanks_nil false ':' more (by decide) rfl
    have kept := @ended_append_cons cut ':' (by decide) [] (laid false more)
    rw [List.nil_append] at plain kept
    have colon : ended cut (laid false (':' :: more)) = ':' :: ended cut (laid false more) := by
      rw [plain]
      exact kept
    rw [colon] at single
    exact single rfl
  rw [spaceLabel_of_labelled labelled, if_pos (by simp [labels, other])] at label
  exact ⟨_, by simpa using label.symm⟩

theorem trimStart_laid_spaceLabel (cut : Bool) {text : List Char} (start : ∀ c ∈ text.head?, isBlank c = false)
    (label : spaceLabel text = text) (joined : ¬ Detached (ended cut (trimStart (laid false text)))) :
    ended cut (trimStart (laid false (spaceLabel (ended cut (trimStart (laid false text)))))) =
      ended cut (trimStart (laid false (ended cut (trimStart (laid false text))))) := by
  obtain same | ⟨name, gap, rest, labelled, labels, written⟩ :=
    spaceLabel_cases (ended cut (trimStart (laid false text)))
  · rw [same]
  obtain rfl : gap = [] := by
    by_contra apart
    refine joined ⟨name, gap, rest, labelled, apart, ?_⟩
    simp only [Layout.labels, Bool.and_eq_true, List.isEmpty_iff, Bool.or_eq_true, apart, false_or] at labels
    exact labels.2
  have whole := labelled.whole
  have word : (trimStart (laid false text)).head?.any isAsciiWord = true := by
    rw [← ended_head? cut (by rw [whole]; simp), whole, List.head?_append_of_ne_nil _ labelled.taken.ne_nil]
    exact labelled.word
  rw [trimStart_laid_of_word start word] at whole written ⊢
  have firm := firm_label labelled.taken
  obtain ⟨tail, rfl, last⟩ := exists_of_laid_firm firm (whole.trans (List.append_cons _ _ _))
  have single : (ended cut (laid false tail)).head? ≠ some ':' := by
    rw [last]
    intro colon
    simp [Layout.labels, colon] at labels
  obtain ⟨more, rfl⟩ := exists_space_of_spaced labelled.taken labelled.word label single
  obtain ⟨later, spaced⟩ := laid_space_eq more
  cases rest with
  | nil =>
    obtain rfl : cut = true := by
      by_contra kept
      rw [Bool.not_eq_true] at kept
      subst kept
      rw [spaced] at last
      exact List.cons_ne_nil _ _ last
    have alone {gap : List Char} (blanks : Blanks gap) :
        ended true (trimStart (laid false (name ++ [':'] ++ gap))) = name ++ [':'] := by
      have next : ∀ c ∈ gap.head?, isSign c = false := fun c head =>
        isSign_of_isBlank (blanks c (List.mem_of_head? head))
      rw [trimStart_laid_firm true (by simp) firm next, laid_blanks blanks,
        ended_true_blanks (blanks_space blanks), List.append_nil]
    have first := alone blanks_one
    have second := alone blanks_nil
    rw [written, whole]
    simpa using first.trans second.symm
  | cons c rest =>
    have some_ : ended cut (laid false (' ' :: more)) ≠ [] := by
      rw [last]
      simp
    have head := ended_head? cut some_
    rw [last, spaced] at head
    obtain rfl : c = ' ' := by simpa using head
    have one := ended_laid_one cut false last (by decide)
    have same : (' ' :: rest).dropWhile isAsciiBlank = rest := by
      have space : ∀ c ∈ [' '], isAsciiBlank c = true := by decide
      refine dropWhile_run space fun c head => ?_
      by_contra ascii
      rw [Bool.not_eq_false] at ascii
      exact absurd (isBlank_of_isAsciiBlank ascii) (by simp [one c head])
    rw [written, whole, same]
    rfl

theorem firstText_again (cut : Bool) (tag : Tag) {text : List Char}
    (start : ∀ c ∈ text.head?, isBlank c = false) :
    ended cut (firstText tag (ended cut (firstText tag text))) = ended cut (firstText tag text) ↔
      (tag.isCode = true → ¬ LooseMinus (ended cut (firstText tag text)) ∧
        ¬ Detached (ended cut (firstText tag text))) := by
  cases code : tag.isCode with
  | false =>
    have trimmed {text : List Char} (start : ∀ c ∈ text.head?, isBlank c = false) :
        firstText tag text = text := by
      simpa [firstText, code] using trimStart_run blanks_nil start
    have again : ∀ c ∈ (ended cut text).head?, isBlank c = false := by
      intro c head
      rw [ended_head? cut (by rintro none; simp [none] at head)] at head
      exact start c head
    rw [trimmed start, trimmed again, ended_ended]
    simp
  | true =>
    simp only [firstText, code, if_true, forall_const]
    have start : ∀ c ∈ (spaceLabel text).head?, isBlank c = false := by rwa [head?_spaceLabel]
    by_cases detached : Detached (ended cut (trimStart (laid false (spaceLabel text))))
    · exact iff_of_false (detached_changes cut detached) (fun settled => settled.2 detached)
    · rw [trimStart_laid_spaceLabel cut start (spaceLabel_spaceLabel text) detached,
        trimStart_laid_laid cut start]
      exact ⟨fun firm => ⟨firm, detached⟩, And.left⟩

def laidText (tag : Tag) (text : List Char) : List Char := if tag.isCode then laid false text else text

theorem laidText_again (cut : Bool) (tag : Tag) (text : List Char) :
    ended cut (laidText tag (ended cut (laidText tag text))) = ended cut (laidText tag text) ↔
      (tag.isCode = true → ¬ LooseMinus (ended cut (laidText tag text))) := by
  cases code : tag.isCode with
  | false => simp [laidText, code, ended_ended]
  | true => simpa [laidText, code] using laid_laid cut false text

/-- What the stretches of a laid out line must not hold for its layout to be final. -/
structure Settled (parts : List (Tag × List Char)) : Prop where
  minus : ∀ part ∈ parts, part.1.isCode = true → ¬ LooseMinus part.2
  label : ∀ part ∈ parts.head?, part.1.isCode = true → ¬ Detached part.2

theorem settled_nil : Settled [] := ⟨by simp, by simp⟩

theorem settled_cons {tag : Tag} {text : List Char} {rest : List (Tag × List Char)} :
    Settled ((tag, text) :: rest) ↔ (tag.isCode = true → ¬ LooseMinus text ∧ ¬ Detached text) ∧
      ∀ part ∈ rest, part.1.isCode = true → ¬ LooseMinus part.2 := by
  constructor
  · rintro ⟨minus, label⟩
    obtain ⟨here, later⟩ := List.forall_mem_cons.1 minus
    exact ⟨fun code => ⟨here code, label _ rfl code⟩, later⟩
  · rintro ⟨here, later⟩
    refine ⟨List.forall_mem_cons.2 ⟨fun code => (here code).1, later⟩, ?_⟩
    rintro _ ⟨⟩ code
    exact (here code).2

section BeforeEnd

variable {cut : Bool} {tag : Tag} {text other : List Char} {rest more : List (Tag × List Char)}

theorem beforeEnd_eq_singleton (some_ : text ≠ []) :
    beforeEnd cut (tag, other) [] = [(tag, text)] ↔ ended cut other = text := by
  rw [beforeEnd]
  split_ifs with nothing
  · have nothing : ended cut other = [] := nothing
    rw [nothing]
    simpa using some_.symm
  · simp

theorem beforeEnd_eq_cons (some_ : rest ≠ []) :
    beforeEnd cut (tag, other) more = (tag, text) :: rest ↔ other = text ∧ more = rest := by
  cases more with
  | nil =>
    refine iff_of_false (fun same => ?_) fun same => some_ same.2.symm
    rw [beforeEnd] at same
    split_ifs at same
    exact some_ (List.cons.inj same).2.symm
  | cons next more => simp [beforeEnd_of_ne_nil]

end BeforeEnd

theorem endParts_again (cut : Bool) (parts : List (Tag × List Char)) :
    endParts cut (laidParts (endParts cut (laidParts parts))) = endParts cut (laidParts parts) ↔
      ∀ part ∈ endParts cut (laidParts parts), part.1.isCode = true → ¬ LooseMinus part.2 := by
  induction parts with
  | nil => simp [laidParts, endParts]
  | cons part rest ih =>
    obtain ⟨tag, text⟩ := part
    rw [laidParts_cons, endParts_cons, ← laidText]
    cases later : endParts cut (laidParts rest) with
    | nil =>
      by_cases nothing : ended cut (laidText tag text) = []
      · simp [beforeEnd, nothing, laidParts, endParts]
      · have last : beforeEnd cut (tag, laidText tag text) [] = [(tag, ended cut (laidText tag text))] :=
          if_neg nothing
        rw [last, laidParts_cons, endParts_cons, ← laidText]
        exact (beforeEnd_eq_singleton nothing).trans (by rw [laidText_again]; simp)
    | cons next more =>
      rw [later] at ih
      have here := laidText_again false tag text
      rw [beforeEnd_of_ne_nil (by simp), laidParts_cons, endParts_cons, ← laidText,
        beforeEnd_eq_cons (by simp), ih, List.forall_mem_cons (a := (tag, laidText tag text))]
      exact and_congr_left fun _ => here

theorem settled_iff (cut : Bool) {parts content : List (Tag × List Char)} (begun : Begun parts)
    (laid : endParts cut (startParts (laidParts (labelFirst parts))) = content) :
    endParts cut (startParts (laidParts (labelFirst content))) = content ↔ Settled content := by
  subst laid
  cases parts with
  | nil => exact iff_of_true rfl settled_nil
  | cons part rest =>
    obtain ⟨tag, text⟩ := part
    obtain ⟨c, more, rfl, solid⟩ := begun _ rfl
    have start : ∀ d ∈ (c :: more).head?, isBlank d = false := by simpa using solid
    rw [startParts_laidParts, endParts_cons]
    have again := endParts_again cut rest
    cases later : endParts cut (laidParts rest) with
    | nil =>
      by_cases nothing : ended cut (firstText tag (c :: more)) = []
      · have gone : beforeEnd cut (tag, firstText tag (c :: more)) [] = [] := if_pos nothing
        rw [gone]
        exact iff_of_true rfl settled_nil
      · have last : beforeEnd cut (tag, firstText tag (c :: more)) [] =
            [(tag, ended cut (firstText tag (c :: more)))] := if_neg nothing
        rw [last, startParts_laidParts, endParts_cons, settled_cons]
        exact (beforeEnd_eq_singleton nothing).trans
          ((firstText_again cut tag start).trans (and_iff_left (List.forall_mem_nil _)).symm)
    | cons next others =>
      rw [later] at again
      have here := firstText_again false tag start
      rw [beforeEnd_of_ne_nil (by simp), startParts_laidParts, endParts_cons, beforeEnd_eq_cons (by simp),
        again, settled_cons]
      exact and_congr_left fun _ => here

end ArturoInsight.Layout
