import ArturoInsight.Proofs.Layout.Respaced
import ArturoInsight.Proofs.Layout.Values
import ArturoInsight.Proofs.Symbol.Definition

/-! What a line binds and what types it defines, before and after its layout. Blanks before a colon that are
not all ASCII keep a binding away, but the layout makes one space of two or more. -/

namespace ArturoInsight.Layout

open Text Lexical Binding

/-- The blanks that may stand before the colon of a binding once they are laid out. -/
def joins (gap : List Char) : Bool := gap.all isAsciiBlank || decide (2 ≤ gap.length)

theorem isJoined_collapse (gap : List Char) : isJoined (collapse gap) = joins gap := by
  unfold collapse joins isJoined
  split_ifs with several
  · simp +decide [several]
  · simp [several]

theorem isEmpty_collapse (gap : List Char) : (collapse gap).isEmpty = gap.isEmpty := by
  unfold collapse
  split_ifs with several
  · cases gap <;> simp_all
  · rfl

theorem Regap.eq_collapse {left : Left} {gap new : List Char} (regap : Regap (some left) gap new false)
    (plain : left.isOperator = false) : new = collapse gap := by
  rw [regap.written left rfl, plain]
  rfl

theorem Regap.eq_space {left : Left} {gap new : List Char} (regap : Regap (some left) gap new true) :
    new = [' '] := by
  rw [regap.written left rfl]
  simp [space]

/-- Whether blanks stand after a part of a word stays as it is. -/
theorem Regap.apart {before : Option Left} {gap new : List Char} (regap : Regap before gap new false)
    {holds : Char → Bool}
    (operator : ∀ left ∈ before, left.isOperator = true → holds left.char = true → gap ≠ []) :
    (before.any (holds ·.char) && new.isEmpty) = (before.any (holds ·.char) && gap.isEmpty) := by
  cases before with
  | none => rfl
  | some left =>
    cases plain : left.isOperator with
    | false => rw [regap.eq_collapse plain, isEmpty_collapse]
    | true =>
      have written := regap.written left rfl
      cases held : holds left.char with
      | false => simp [held]
      | true =>
        have some_ := operator left rfl plain held
        simp [held, written, space, plain, some_]

section Relations

variable {α β : Type} {same : α → α → Prop} {other : β → β → Prop} {first second : Option α}

theorem rel_cases (related : Option.Rel same first second) : first = none ∧ second = none ∨
    ∃ x y, first = some x ∧ second = some y ∧ same x y := by
  cases related with
  | some related => exact .inr ⟨_, _, rfl, rfl, related⟩
  | none => exact .inl ⟨rfl, rfl⟩

theorem rel_map (related : Option.Rel same first second) {f g : α → β}
    (step : ∀ x y, same x y → other (f x) (g y)) : Option.Rel other (first.map f) (second.map g) := by
  cases related with
  | some related => exact .some (step _ _ related)
  | none => exact .none

theorem rel_bind (related : Option.Rel same first second) {f g : α → Option β}
    (step : ∀ x y, same x y → Option.Rel other (f x) (g y)) :
    Option.Rel other (first.bind f) (second.bind g) := by
  cases related with
  | some related => exact step _ _ related
  | none => exact .none

theorem rel_or (related : Option.Rel same first second) {third fourth : Option α}
    (later : Option.Rel same third fourth) : Option.Rel same (first.or third) (second.or fourth) := by
  cases related with
  | some related => exact .some related
  | none => exact later

end Relations

def AfterColon {α : Type} (first second : α × List Spaced) : Prop :=
  first.1 = second.1 ∧ Respaced (some ⟨':', true, false⟩) first.2 second.2

section Readers

variable {left : Left} {a b : List Spaced}

theorem colon?_none {c : Char} (other : c ≠ ':') (fits : List Char → Bool) (gap : List Char) (code : Bool)
    (rest : List Spaced) : colon? fits (⟨gap, c, code⟩ :: rest) = none := by
  simp [colon?, other]

theorem colon?_respaced (plain : left.isOperator = false) {old new : List Char → Bool}
    (agree : ∀ gap, new (collapse gap) = old gap) (respaced : Respaced (some left) a b) :
    Option.Rel AfterColon (colon? old a) (colon? new b) := by
  cases respaced with
  | nil => exact .none
  | @plain _ gap fresh c a b sign solid regap rest =>
    obtain rfl := regap.eq_collapse plain
    by_cases colon : c = ':'
    · subst colon
      simp only [colon?, agree, isEmpty_collapse]
      split_ifs
      · exact .some ⟨rfl, rest⟩
      · exact .none
    · rw [colon?_none colon, colon?_none colon]
      exact .none
  | single sign =>
    have other := ne_of_isMark (isMark_of_single sign) (d := ':') rfl
    rw [colon?_none other, colon?_none other]
    exact .none
  | double firm =>
    have other := ne_of_isMark (isMark_of_double firm).1 (d := ':') rfl
    rw [colon?_none other, colon?_none other]
    exact .none
  | other marks regap rest => exact .none

theorem label?_none {c : Char} {gap : List Char} (apart : gap = [] → isNamePart c = false) (mark : c ≠ '?')
    {fits : List Char → Bool} {code : Bool} {rest : List Spaced}
    (fails : colon? fits (⟨gap, c, code⟩ :: rest) = none) : label? fits (⟨gap, c, code⟩ :: rest) = none := by
  rw [label?_other, fails]
  · rfl
  · intro item head joined
    obtain rfl : _ = item := by simpa using head
    exact ⟨apart joined, mark⟩

theorem label?_respaced (plain : left.isOperator = false) (code : left.isCode = true)
    (respaced : Respaced (some left) a b) :
    Option.Rel (fun x y => x.1 = y.1 ∧ AfterColon x.2 y.2) (label? joins a) (label? isJoined b) := by
  generalize start : some left = before at respaced
  induction respaced generalizing left with
  | nil => exact .none
  | @plain _ gap fresh c a b sign solid regap rest ih =>
    subst start
    have later := colon?_respaced plain isJoined_collapse (.plain sign solid regap rest)
    obtain rfl := regap.eq_collapse plain
    simp only [label?, isEmpty_collapse]
    split_ifs
    · exact rel_map (ih rfl rfl rfl) fun x y same => ⟨congrArg (c :: ·) same.1, same.2⟩
    · exact rel_map (colon?_respaced rfl isJoined_collapse rest) fun x y same => ⟨rfl, same⟩
    · exact rel_map later fun x y same => ⟨rfl, same⟩
  | @single _ gap fresh c a b sign regap rest =>
    subst start
    have mark := isMark_of_single sign
    have question : c ≠ '?' := ne_of_isMark mark rfl
    have colon : c ≠ ':' := ne_of_isMark mark rfl
    have apart : gap = [] → isNamePart c = false := by
      intro empty
      obtain sign | ⟨-, some_⟩ := sign
      · exact not_isNamePart_of_isSign sign
      · exact absurd empty (some_ rfl)
    have parted : fresh = [] → isNamePart c = false := by simp [regap.eq_space]
    rw [label?_none apart question (colon?_none colon _ _ _ _),
      label?_none parted question (colon?_none colon _ _ _ _)]
    exact .none
  | @double _ gap fresh c d a b firm regap rest =>
    subst start
    obtain ⟨mark, sign⟩ := isMark_of_double firm
    have first : c ≠ ':' ∧ c ≠ '?' := ⟨ne_of_isMark mark rfl, ne_of_isMark mark rfl⟩
    have other : isMark d = true := by simp [isMark, sign]
    have second : d ≠ ':' ∧ d ≠ '?' := ⟨ne_of_isMark other rfl, ne_of_isMark other rfl⟩
    have silent (fits : List Char → Bool) (gap : List Char) (rest : List Spaced) :
        label? fits (⟨gap, c, true⟩ :: ⟨[], d, true⟩ :: rest) = none := by
      have next : label? fits (⟨[], d, true⟩ :: rest) = none :=
        label?_none (fun _ => not_isNamePart_of_isSign sign) second.2 (colon?_none second.1 _ _ _ _)
      rw [label?, next, colon?_none first.1]
      simp [first.2]
    rw [silent, silent]
    exact .none
  | @other _ gap fresh c a b marks regap rest =>
    subst start
    have marks : endsCode c = true := marks.resolve_right (by simp [code])
    have other : isNamePart c = false := by
      by_contra part
      rw [endsCode_of_isNamePart (by simpa using part)] at marks
      contradiction
    have question : c ≠ '?' := by
      rintro rfl
      exact absurd marks (by decide)
    have silent (fits : List Char → Bool) (gap : List Char) (rest : List Spaced) :
        label? fits (⟨gap, c, false⟩ :: rest) = none := label?_none (fun _ => other) question rfl
    rw [silent, silent]
    exact .none

end Readers

section Views

variable {before : Option Left} {a b : List Spaced}

theorem head?_written {holds : Char → Bool} (seen : ∀ c, isBlank c = true → holds c = false) {gap : List Char}
    (blanks : Blanks gap) (c : Char) (code : Bool) (rest : List Spaced) :
    (written (⟨gap, c, code⟩ :: rest)).head?.any holds = (gap.isEmpty && holds c) := by
  cases gap with
  | nil => simp
  | cons blank gap => simp [seen blank (blanks blank List.mem_cons_self)]

theorem Respaced.head?_eq {left : Left} (plain : left.isOperator = false) {holds : Char → Bool}
    (seen : ∀ c, isBlank c = true → holds c = false) (marks : ∀ c, isMark c = true → holds c = false)
    (respaced : Respaced (some left) a b) :
    (written a).head?.any holds = (written b).head?.any holds := by
  cases respaced with
  | nil => rfl
  | plain sign solid regap rest =>
    rw [head?_written seen regap.old, head?_written seen regap.fresh, regap.eq_collapse plain, isEmpty_collapse]
  | single sign regap rest =>
    rw [head?_written seen regap.old, head?_written seen regap.fresh, marks _ (isMark_of_single sign),
      Bool.and_false, Bool.and_false]
  | double firm regap rest =>
    rw [head?_written seen regap.old, head?_written seen regap.fresh, marks _ (isMark_of_double firm).1,
      Bool.and_false, Bool.and_false]
  | other string regap rest =>
    rw [head?_written seen regap.old, head?_written seen regap.fresh, regap.eq_collapse plain, isEmpty_collapse]

theorem Respaced.solids_eq (respaced : Respaced before a b) : solids (written a) = solids (written b) := by
  induction respaced with
  | nil => rfl
  | plain sign solid regap rest ih =>
    rw [written_cons, written_cons, solids_append, solids_append, solids_eq_nil.2 regap.old,
      solids_eq_nil.2 regap.fresh, solids_cons, solids_cons, ih]
  | single sign regap rest ih =>
    rw [written_cons, written_cons, solids_append, solids_append, solids_eq_nil.2 regap.old,
      solids_eq_nil.2 regap.fresh, solids_cons, solids_cons, ih]
  | double firm regap rest ih =>
    simp only [written_cons, solids_append, solids_eq_nil.2 regap.old, solids_eq_nil.2 regap.fresh,
      solids_cons, List.nil_append, ih]
  | other string regap rest ih =>
    rw [written_cons, written_cons, solids_append, solids_append, solids_eq_nil.2 regap.old,
      solids_eq_nil.2 regap.fresh, solids_cons, solids_cons, ih]

end Views

section Bound

variable {a b : List Spaced}

theorem bound?_respaced {c : Char} {gap new : List Char} (respaced : Respaced (some ⟨c, true, false⟩) a b) :
    Option.Rel AfterColon (bound? joins ⟨gap, c, true⟩ a) (bound? isJoined ⟨new, c, true⟩ b) := by
  unfold bound?
  split_ifs
  · refine rel_bind (label?_respaced rfl rfl respaced) ?_
    rintro ⟨name, joined, x⟩ ⟨other, joined', y⟩ ⟨sameName, sameJoin, rest⟩
    obtain rfl : name = other := sameName
    obtain rfl : joined = joined' := sameJoin
    have head := rest.head?_eq rfl not_isLetter_of_isBlank fun c => not_isLetter_of_isMark
    have empty : (trim (written x)).isEmpty = (trim (written y)).isEmpty := by
      rw [isEmpty_trim, isEmpty_trim, rest.solids_eq]
    simp only [head, empty]
    split_ifs
    · exact .some ⟨rfl, rest⟩
    · exact .none
  · exact .none

theorem boundFrom_mark {c : Char} (mark : isMark c = true) (fits : List Char → Bool) (inName : Bool)
    (gap : List Char) (code : Bool) (rest : List Spaced) :
    boundFrom fits inName (⟨gap, c, code⟩ :: rest) = boundFrom fits (isNamePart c) rest := by
  simp [boundFrom, bound?, not_isNameStart_of_isMark mark]

theorem boundFrom_string (fits : List Char → Bool) (inName : Bool) (gap : List Char) (c : Char)
    (rest : List Spaced) :
    boundFrom fits inName (⟨gap, c, false⟩ :: rest) = boundFrom fits (isNamePart c) rest := by
  simp [boundFrom, bound?]

theorem boundFrom_respaced {before : Option Left} (respaced : Respaced before a b) :
    Option.Rel AfterColon (boundFrom joins (before.any (isNamePart ·.char)) a)
      (boundFrom isJoined (before.any (isNamePart ·.char)) b) := by
  induction respaced with
  | nil => exact .none
  | @plain before gap fresh c a b sign solid regap rest ih =>
    have apart := regap.apart fun left member operator => (regap.operator left member operator).2
    rw [boundFrom, boundFrom, apart]
    refine rel_or ?_ ih
    split_ifs
    · exact .none
    · exact bound?_respaced rest
  | @single before gap fresh c a b sign regap rest ih =>
    have mark := isMark_of_single sign
    rw [boundFrom_mark mark, boundFrom_mark mark]
    exact ih
  | @double before gap fresh c d a b firm regap rest ih =>
    obtain ⟨mark, sign⟩ := isMark_of_double firm
    have other : isMark d = true := by simp [isMark, sign]
    rw [boundFrom_mark mark, boundFrom_mark mark, boundFrom_mark other, boundFrom_mark other]
    exact ih
  | @other before gap fresh c a b marks regap rest ih =>
    rw [boundFrom_string, boundFrom_string]
    exact ih

end Bound

end ArturoInsight.Layout
