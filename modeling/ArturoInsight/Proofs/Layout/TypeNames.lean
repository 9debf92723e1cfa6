import ArturoInsight.Proofs.Layout.Bound

/-! The types that a line defines are the same before and after its layout. -/

namespace ArturoInsight.Layout

open Text Lexical Binding

variable {left : Left} {a b : List Spaced}

theorem spelled?_mark {c d : Char} (mark : isMark c = true) (plain : isMark d = false) (word gap : List Char)
    (code : Bool) (rest : List Spaced) : spelled? (d :: word) (⟨gap, c, code⟩ :: rest) = none := by
  simp [spelled?, ne_of_isMark mark plain]

theorem spelled?_respaced {word : List Char} (plain : ∀ c ∈ word, isMark c = false)
    (start : left.isOperator = false) (respaced : Respaced (some left) a b) :
    Option.Rel (fun x y => ∃ last : Left, last.isOperator = false ∧ Respaced (some last) x y)
      (spelled? word a) (spelled? word b) := by
  induction word generalizing left a b with
  | nil => exact .some ⟨left, start, respaced⟩
  | cons d word ih =>
    obtain ⟨first, later⟩ := List.forall_mem_cons.1 plain
    cases respaced with
    | nil => exact .none
    | plain sign solid regap rest =>
      rw [spelled?, spelled?, regap.eq_collapse start, isEmpty_collapse]
      split_ifs
      · exact ih later rfl rest
      · exact .none
    | single sign =>
      rw [spelled?_mark (isMark_of_single sign) first, spelled?_mark (isMark_of_single sign) first]
      exact .none
    | double firm =>
      rw [spelled?_mark (isMark_of_double firm).1 first, spelled?_mark (isMark_of_double firm).1 first]
      exact .none
    | other string regap rest =>
      rw [spelled?, spelled?, regap.eq_collapse start, isEmpty_collapse]
      split_ifs
      · exact ih later rfl rest
      · exact .none

theorem wordRun_mark {c : Char} (mark : isMark c = true) (gap : List Char) (code : Bool) (rest : List Spaced) :
    wordRun (⟨gap, c, code⟩ :: rest) = ([], ⟨gap, c, code⟩ :: rest) := by
  simp [wordRun, not_isWord_of_isMark mark]

def SameWord (left : Left) (a b : List Spaced) : Prop :=
  (wordRun a).1 = (wordRun b).1 ∧ ∃ last : Left, last.isOperator = false ∧
    (isWord left.char = true ∨ (wordRun a).1 ≠ [] → isWord last.char = true) ∧
    Respaced (some last) (wordRun a).2 (wordRun b).2

theorem sameWord_cons {c : Char} {code : Bool} {gap fresh : List Char} (start : left.isOperator = false)
    (regap : Regap (some left) gap fresh false)
    (whole : Respaced (some left) (⟨gap, c, code⟩ :: a) (⟨fresh, c, code⟩ :: b))
    (later : SameWord ⟨c, code, false⟩ a b) :
    SameWord left (⟨gap, c, code⟩ :: a) (⟨fresh, c, code⟩ :: b) := by
  have joined : fresh.isEmpty = gap.isEmpty := by rw [regap.eq_collapse start, isEmpty_collapse]
  unfold SameWord
  cases word : gap.isEmpty && isWord c with
  | false =>
    have stops (gap : List Char) (rest : List Spaced) (apart : (gap.isEmpty && isWord c) = false) :
        wordRun (⟨gap, c, code⟩ :: rest) = ([], ⟨gap, c, code⟩ :: rest) := by
      rw [wordRun, if_neg (by simp [apart])]
    rw [stops gap a word, stops fresh b (joined ▸ word)]
    exact ⟨rfl, left, start, by simp, whole⟩
  | true =>
    have goes (gap : List Char) (rest : List Spaced) (held : (gap.isEmpty && isWord c) = true) :
        wordRun (⟨gap, c, code⟩ :: rest) = (c :: (wordRun rest).1, (wordRun rest).2) := by
      rw [wordRun, if_pos held]
    rw [goes gap a word, goes fresh b (joined ▸ word)]
    obtain ⟨same, last, plain, ends, rest⟩ := later
    rw [Bool.and_eq_true] at word
    exact ⟨congrArg (c :: ·) same, last, plain, fun _ => ends (.inl word.2), rest⟩

theorem wordRun_respaced (start : left.isOperator = false) (respaced : Respaced (some left) a b) :
    SameWord left a b := by
  generalize before : some left = place at respaced
  induction respaced generalizing left with
  | nil => exact ⟨rfl, left, start, by simp [wordRun], .nil⟩
  | plain sign solid regap rest ih =>
    subst before
    exact sameWord_cons start regap (.plain sign solid regap rest) (ih rfl rfl)
  | @single _ gap fresh c a b sign regap rest =>
    subst before
    have mark := isMark_of_single sign
    rw [SameWord, wordRun_mark mark, wordRun_mark mark]
    exact ⟨rfl, left, start, by simp, .single sign regap rest⟩
  | @double _ gap fresh c d a b firm regap rest =>
    subst before
    have mark := (isMark_of_double firm).1
    rw [SameWord, wordRun_mark mark, wordRun_mark mark]
    exact ⟨rfl, left, start, by simp, .double firm regap rest⟩
  | other marks regap rest ih =>
    subst before
    exact sameWord_cons start regap (.other marks regap rest) (ih rfl rfl)

def AfterName (first second : List Char × List Spaced) : Prop :=
  first.1 = second.1 ∧ ∃ last : Left, last.isOperator = false ∧ isWord last.char = true ∧
    Respaced (some last) first.2 second.2

theorem defined?_respaced {c : Char} {code : Bool} (respaced : Respaced (some ⟨c, code, false⟩) a b)
    (gap fresh : List Char) :
    Option.Rel AfterName (defined? (⟨gap, c, code⟩ :: a)) (defined? (⟨fresh, c, code⟩ :: b)) := by
  have word : Option.Rel (fun x y => ∃ last : Left, last.isOperator = false ∧ Respaced (some last) x y)
      (spelled? "define".toList (⟨[], c, code⟩ :: a)) (spelled? "define".toList (⟨[], c, code⟩ :: b)) := by
    change Option.Rel _ (if _ then spelled? "efine".toList a else none) (if _ then spelled? "efine".toList b else none)
    split_ifs
    · exact spelled?_respaced (by decide) rfl respaced
    · exact .none
  refine rel_bind word ?_
  rintro x y ⟨last, plain, rest⟩
  refine rel_bind (colon?_respaced plain (fun gap => congrArg (!·) (isEmpty_collapse gap)) rest) ?_
  rintro ⟨joined, x⟩ ⟨other, y⟩ ⟨_, rest⟩
  have rest : Respaced (some ⟨':', true, false⟩) x y := rest
  obtain ⟨run, last, plain, ends, rest⟩ := wordRun_respaced rfl rest
  simp only [← run]
  split_ifs with nameless
  · exact .none
  · exact .some ⟨run, last, plain, ends (.inr (by simpa using nameless)), rest⟩

theorem definedHere?_mark {c : Char} (mark : isMark c = true) (inWord : Bool) (gap : List Char) (code : Bool)
    (rest : List Spaced) : definedHere? inWord (⟨gap, c, code⟩ :: rest) = none := by
  have other : c ≠ 'd' := ne_of_isMark mark (by decide)
  simp [definedHere?, defined?, bare, spelled?, other]

theorem definedHere?_string (inWord : Bool) (gap : List Char) (c : Char) (rest : List Spaced) :
    definedHere? inWord (⟨gap, c, false⟩ :: rest) = none := by simp [definedHere?]

theorem definedFrom_respaced {before : Option Left} (respaced : Respaced before a b) :
    definedFrom (before.any (isWord ·.char)) a = definedFrom (before.any (isWord ·.char)) b := by
  induction size : a.length using Nat.strongRecOn generalizing before a b with
  | ind n shorter =>
    have next {c : Char} {code operator : Bool} {x y : List Spaced}
        (rest : Respaced (some ⟨c, code, operator⟩) x y) (fewer : x.length < n) :
        definedFrom (isWord c) x = definedFrom (isWord c) y := shorter _ fewer rest rfl
    subst size
    cases respaced with
    | nil => rfl
    | @plain _ gap fresh c a b sign solid regap rest =>
      have apart : (before.any (isWord ·.char) && fresh.isEmpty) = (before.any (isWord ·.char) && gap.isEmpty) :=
        regap.apart fun left member operator word =>
          absurd word (by simp [(regap.operator left member operator).1])
      have here : Option.Rel AfterName (definedHere? (before.any (isWord ·.char)) (⟨gap, c, true⟩ :: a))
          (definedHere? (before.any (isWord ·.char)) (⟨fresh, c, true⟩ :: b)) := by
        rw [definedHere?, definedHere?, apart]
        split_ifs
        · exact defined?_respaced rest gap fresh
        · exact .none
      obtain ⟨first, second⟩ | ⟨⟨name, x⟩, ⟨other, y⟩, first, second, same, last, -, word, rest⟩ :=
        rel_cases here
      · rw [definedFrom_none first, definedFrom_none second]
        exact next rest (Nat.lt_succ_self _)
      · obtain rfl : name = other := same
        have more := next rest (length_definedHere? first)
        rw [word] at more
        rw [definedFrom_some first, definedFrom_some second, more]
    | single sign regap rest =>
      have mark := isMark_of_single sign
      rw [definedFrom_none (definedHere?_mark mark _ _ _ _), definedFrom_none (definedHere?_mark mark _ _ _ _)]
      exact next rest (Nat.lt_succ_self _)
    | @double _ gap fresh c d a b firm regap rest =>
      obtain ⟨mark, sign⟩ := isMark_of_double firm
      have other : isMark d = true := by simp [isMark, sign]
      rw [definedFrom_none (definedHere?_mark mark _ _ _ _), definedFrom_none (definedHere?_mark mark _ _ _ _),
        definedFrom_none (definedHere?_mark other _ _ _ _), definedFrom_none (definedHere?_mark other _ _ _ _)]
      exact next rest (Nat.lt_succ_of_lt (Nat.lt_succ_self _))
    | @other _ gap fresh c a b marks regap rest =>
      rw [definedFrom_none (definedHere?_string _ _ _ _), definedFrom_none (definedHere?_string _ _ _ _)]
      exact next rest (Nat.lt_succ_self _)

end ArturoInsight.Layout
