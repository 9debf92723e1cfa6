import ArturoInsight.Proofs.Layout.Content
import ArturoInsight.Proofs.Lexical.Spaced

/-! The characters of a line before and after its layout: the same characters, with the gaps between them as
the layout writes them. -/

namespace ArturoInsight.Layout

open Text Lexical

structure Left where
  char : Char
  isCode : Bool
  isOperator : Bool
deriving DecidableEq, Repr

/-- A gap as it was and as it is written. Nothing is said of the blanks at the start of a line. -/
structure Regap (before : Option Left) (gap new : List Char) (right : Bool) : Prop where
  old : Blanks gap
  fresh : Blanks new
  written : ∀ left ∈ before, new = space left.isOperator gap right
  operator : ∀ left ∈ before, left.isOperator = true →
    isWord left.char = false ∧ (isNamePart left.char = true → gap ≠ [])

/-- A line before and after its layout, from a place on that a character may stand before. -/
inductive Respaced : Option Left → List Spaced → List Spaced → Prop where
  | nil {before : Option Left} : Respaced before [] []
  | plain {before : Option Left} {gap new : List Char} {c : Char} {a b : List Spaced} :
      isSign c = false → isBlank c = false → Regap before gap new false →
      Respaced (some ⟨c, true, false⟩) a b →
      Respaced before (⟨gap, c, true⟩ :: a) (⟨new, c, true⟩ :: b)
  | single {before : Option Left} {gap new : List Char} {c : Char} {a b : List Spaced} :
      isSign c = true ∨ c = '-' ∧ (before.isSome → gap ≠ []) → Regap before gap new true →
      Respaced (some ⟨c, true, true⟩) a b →
      Respaced before (⟨gap, c, true⟩ :: a) (⟨new, c, true⟩ :: b)
  | double {before : Option Left} {gap new : List Char} {c d : Char} {a b : List Spaced} :
      [c, d] ∈ firmOperators → Regap before gap new true →
      Respaced (some ⟨d, true, true⟩) a b →
      Respaced before (⟨gap, c, true⟩ :: ⟨[], d, true⟩ :: a) (⟨new, c, true⟩ :: ⟨[], d, true⟩ :: b)
  | other {before : Option Left} {gap new : List Char} {c : Char} {a b : List Spaced} :
      endsCode c = true ∨ (∃ left ∈ before, left.isCode = false) → Regap before gap new false →
      Respaced (some ⟨c, false, false⟩) a b →
      Respaced before (⟨gap, c, false⟩ :: a) (⟨new, c, false⟩ :: b)

theorem not_isWord_of_isSign {c : Char} (sign : isSign c = true) : isWord c = false := by
  have all : ∀ c ∈ ['+', '*', '/', '=', '<', '>'], isWord c = false := by decide
  exact all c (List.contains_iff_mem.1 sign)

theorem not_isNamePart_of_isSign {c : Char} (sign : isSign c = true) : isNamePart c = false := by
  have all : ∀ c ∈ ['+', '*', '/', '=', '<', '>'], isNamePart c = false := by decide
  exact all c (List.contains_iff_mem.1 sign)

theorem Stands.solid {gap sign : List Char} {rest : List Cell} (stands : Stands gap sign rest) :
    ∀ c ∈ sign, isBlank c = false := by
  obtain firm | ⟨rfl, -⟩ := stands
  · have solid : ∀ sign ∈ firmOperators, ∀ c ∈ sign, isBlank c = false := by decide
    exact solid sign firm
  · decide

/-- Where a scan stands after some characters and the gap that follows them, with what the layout has written
of the gap: nothing is read of it yet, or no more of it is to come. -/
structure Between (state : State) (before : Option Left) (after : Option Tag) (gap new : List Char)
    (rest : List Cell) : Prop where
  old : Blanks gap
  fresh : Blanks new
  place : state.mode = .code ∨ ∃ left ∈ before, left.isCode = false ∧ left.isOperator = false
  there : ∀ tag ∈ after, state.mode = .code ∧ state.codeTag = tag
  read : (gap = [] ∧ new = [] ∧ ∀ left ∈ before, left.isOperator = after.isSome) ∨
    after = none ∧ (∀ left ∈ before, new = space left.isOperator gap false) ∧
      ∀ cell ∈ rest.head?, cell.2.isCode = true → ¬ Inert [cell.1]
  operator : ∀ left ∈ before, left.isOperator = true → isWord left.char = false ∧
    (isNamePart left.char = true → gap ≠ [] ∨ rest.head?.any isBlankCell = true)

namespace Between

variable {state : State} {before : Option Left} {after : Option Tag} {gap new more : List Char} {tag : Tag}

theorem fresh_of_ne_nil {text : List Char} (some_ : text ≠ []) (inert : Inert text) {rest : List Cell}
    (between : Between state before after gap new (mark tag text ++ rest)) (code : tag.isCode = true) :
    gap = [] ∧ new = [] ∧ ∀ left ∈ before, left.isOperator = after.isSome := by
  refine between.read.resolve_right ?_
  rintro ⟨_, _, apart⟩
  obtain ⟨c, more, rfl⟩ := List.exists_cons_of_ne_nil some_
  exact apart (c, tag) rfl code (List.forall_mem_singleton.2 (inert c List.mem_cons_self))

section Blanks

variable {rest : List Cell} (between : Between state before after gap new (mark tag more ++ rest))
  (code : tag.isCode = true) (blanks : Blanks more)

include between code blanks

theorem written : ∀ left ∈ before,
    new ++ space after.isSome more false = space left.isOperator (gap ++ more) false := by
  intro left member
  obtain ⟨rfl, rfl, operator⟩ | ⟨rfl, written, -⟩ := between.read
  · rw [operator left member]
    rfl
  · cases more with
    | nil => simpa [space, collapse] using written left member
    | cons c more =>
      obtain ⟨rfl, rfl, operator⟩ := fresh_of_ne_nil (List.cons_ne_nil c more) (inert_blanks blanks) between code
      rw [operator left member]
      rfl

/-- The gap before a character that is neither a blank nor an operator. -/
theorem regap (solid : ∀ cell ∈ rest.head?, isBlankCell cell = false) :
    Regap before (gap ++ more) (new ++ space after.isSome more false) false where
  old := List.forall_mem_append.2 ⟨between.old, blanks⟩
  fresh := List.forall_mem_append.2 ⟨between.fresh, blanks_space blanks⟩
  written := between.written code blanks
  operator := by
    intro left member operator
    refine ⟨(between.operator left member operator).1, fun part => ?_⟩
    obtain some_ | blank := (between.operator left member operator).2 part
    · simp [some_]
    · cases more with
      | nil =>
        cases rest with
        | nil => simp at blank
        | cons cell rest => simp [solid cell rfl] at blank
      | cons c more => simp

theorem afterBlanks {last : State} (same : ∀ t ∈ after, t = tag)
    (fits : Fits state ((mark tag more ++ rest).map (·.1))) (scans : Scans state (mark tag more ++ rest) last)
    (differ : ∀ cell ∈ rest.head?, cell.2 ≠ tag) :
    Between state before none (gap ++ more) (new ++ space after.isSome more false) rest where
  old := List.forall_mem_append.2 ⟨between.old, blanks⟩
  fresh := List.forall_mem_append.2 ⟨between.fresh, blanks_space blanks⟩
  place := between.place
  there := by simp
  read := by
    by_cases nothing : more = [] ∧ after = none
    · obtain ⟨rfl, rfl⟩ := nothing
      simpa [space, collapse] using between.read
    refine .inr ⟨rfl, between.written code blanks, fun cell head inCode inert => ?_⟩
    have there : more = [] → state.mode = .code ∧ state.codeTag = tag := by
      intro empty
      obtain ⟨form, pending⟩ := Option.ne_none_iff_exists'.1 fun none => nothing ⟨empty, none⟩
      rw [← same form pending]
      exact between.there form pending
    obtain ⟨inside, tagged, later, -⟩ := scans_inert_code code (inert_blanks blanks) fits there scans
    obtain ⟨more', rfl⟩ := List.head?_eq_some_iff.1 head
    obtain ⟨mode, depth⟩ := state
    obtain rfl : mode = .code := inside
    have here : mark cell.2 [cell.1] ++ more' = cell :: more' := rfl
    rw [← here] at later
    have stays := ((scans_inert inert).1 later).1 (by simp)
    exact differ cell rfl (stays.trans tagged)
  operator := by
    intro left member operator
    cases more with
    | nil => simpa using between.operator left member operator
    | cons c more => simp [(between.operator left member operator).1]

end Blanks

variable {rest : List Cell}

theorem regapSign {sign : List Char} (some_ : sign ≠ []) (solid : ∀ c ∈ sign, isBlank c = false) (inert : Inert sign)
    (code : tag.isCode = true) (blanks : Blanks more)
    (between : Between state before after gap new (mark tag (more ++ sign) ++ rest)) :
    gap = [] ∧ new = [] ∧ Regap before more [' '] true := by
  obtain ⟨rfl, rfl, -⟩ := fresh_of_ne_nil (by simp [some_]) (inert_append (inert_blanks blanks) inert) between code
  refine ⟨rfl, rfl, blanks, blanks_one, fun left _ => by simp [space], fun left member operator => ?_⟩
  refine ⟨(between.operator left member operator).1, fun part empty => ?_⟩
  have blank := ((between.operator left member operator).2 part).resolve_left (by simp)
  obtain ⟨c, others, rfl⟩ := List.exists_cons_of_ne_nil some_
  have solid := solid c List.mem_cons_self
  simp [empty, isBlankCell, solid] at blank

/-- A character that is no code opens something, or stands after such a character. -/
theorem opened {c : Char} {next : Option Char} (between : Between state before after gap new ((c, tag) :: rest))
    (other : tag.isCode = false) (tagged : (state.step c next).1 = tag) :
    endsCode c = true ∨ ∃ left ∈ before, left.isCode = false ∧ left.isOperator = false := by
  refine between.place.imp_left fun inCode => ?_
  obtain ⟨mode, depth⟩ := state
  obtain rfl : mode = .code := inCode
  exact step_opens (by rw [tagged]; exact other)

theorem regapOther {c : Char} {next : Option Char} (between : Between state before none gap new ((c, tag) :: rest))
    (other : tag.isCode = false) (tagged : (state.step c next).1 = tag) : Regap before gap new false where
  old := between.old
  fresh := between.fresh
  written := by
    intro left member
    obtain ⟨rfl, rfl, operator⟩ | ⟨-, written, -⟩ := between.read
    · rw [operator left member]
      rfl
    · exact written left member
  operator := by
    intro left member operator
    refine ⟨(between.operator left member operator).1, fun part => ?_⟩
    refine ((between.operator left member operator).2 part).resolve_right fun blank => ?_
    obtain opens | ⟨found, there, -, plain⟩ := between.opened other tagged
    · rw [endsCode_of_isBlank (by simpa [isBlankCell] using blank)] at opens
      contradiction
    · rw [Option.mem_unique member there, plain] at operator
      contradiction

end Between

/-- An operator is respaced as its last character and the rest of the line are. -/
theorem Stands.respaced {before : Option Left} {gap new sign : List Char} {tag : Tag} {rest a b : List Cell}
    (stands : Stands gap sign rest) (code : tag.isCode = true) (regap : Regap before gap new true)
    (next : ∀ c, isWord c = false → (isNamePart c = true → rest.head?.any isBlankCell = true) →
      Respaced (some ⟨c, true, true⟩) (spacedFrom [] a) (spacedFrom [] b)) :
    Respaced before (spacedFrom gap (mark tag sign ++ a)) (spacedFrom new (mark tag sign ++ b)) := by
  have shown : tag ≠ .comment := by
    rintro rfl
    contradiction
  have solid := stands.solid
  have item {c : Char} (solid : isBlank c = false) (gap : List Char) (rest : List Cell) :
      spacedFrom gap ((c, tag) :: rest) = ⟨gap, c, true⟩ :: spacedFrom [] rest := by
    rw [spacedFrom_solid shown fun _ => solid, code]
  have sign_next {c : Char} (sign : isSign c = true) :=
    next c (not_isWord_of_isSign sign) fun part => absurd part (by simp [not_isNamePart_of_isSign sign])
  obtain firm | ⟨rfl, some_, follows⟩ := stands
  · obtain ⟨c, sign, rfl⟩ | ⟨c, d, sign, rfl, -⟩ := firmOperators_cases firm
    · have solid := solid c List.mem_cons_self
      rw [mark_cons, mark_nil, List.singleton_append, List.singleton_append, item solid, item solid]
      exact .single (.inl sign) regap (sign_next sign)
    · have first := solid c List.mem_cons_self
      have second := solid d (by simp)
      simp only [mark_cons, mark_nil, List.cons_append, List.nil_append, item first, item second]
      exact .double firm regap (sign_next sign)
  · have solid := solid '-' List.mem_cons_self
    rw [mark_cons, mark_nil, List.singleton_append, List.singleton_append, item solid, item solid]
    exact .single (.inr ⟨rfl, fun _ => some_⟩) regap (next '-' (by decide) fun _ => follows)

theorem Relaid.respaced {after : Option Tag} {a b : List Cell} (relaid : Relaid after a b)
    {state last : State} {before : Option Left} {gap new : List Char} (fits : Fits state (a.map (·.1)))
    (scans : Scans state a last) (between : Between state before after gap new a) :
    Respaced before (spacedFrom gap a) (spacedFrom new b) := by
  induction relaid generalizing state before gap new with
  | nil => exact .nil
  | @blanks after tag more a b code same blanks differ _ ih =>
    rw [spacedFrom_gap code blanks, spacedFrom_gap code (blanks_space blanks)]
    obtain ⟨fitsA, scansA, -⟩ := scans_respaced code same blanks fits between.there scans
    exact ih fitsA scansA (between.afterBlanks code blanks same fits scans differ)
  | @plain after tag more c a b code same blanks solid sign _ ih =>
    obtain ⟨fitsA, scansA, -⟩ := scans_respaced code same blanks fits between.there scans
    obtain ⟨depth, later, -⟩ := scans_code_cons code fitsA scansA
    have shown : tag ≠ .comment := by
      rintro rfl
      contradiction
    rw [spacedFrom_gap code blanks, spacedFrom_gap code (blanks_space blanks),
      spacedFrom_solid shown fun _ => solid, spacedFrom_solid shown fun _ => solid, code]
    refine .plain sign solid (between.regap code blanks (by simp [isBlankCell, solid])) ?_
    exact ih (fits_code _ _) later ⟨blanks_nil, blanks_nil, .inl rfl, by simp, .inl ⟨rfl, rfl, by simp⟩, by simp⟩
  | @operator after tag more sign a b code blanks stands _ ih =>
    obtain ⟨some_, inert⟩ := inert_sign stands
    rw [← mark_append] at fits scans between
    obtain ⟨inside, tagged, later, -⟩ := scans_inert_code code (inert_append (inert_blanks blanks) inert)
      fits (by simp [some_]) scans
    obtain ⟨rfl, rfl, regap⟩ := between.regapSign some_ stands.solid inert code blanks
    obtain ⟨mode, depth⟩ := state
    obtain rfl : mode = .code := inside
    rw [List.append_assoc, spacedFrom_gap code blanks, List.nil_append, List.cons_append,
      spacedFrom_blank (by decide) code, List.nil_append]
    refine stands.respaced code regap fun c mark minus => ?_
    refine ih (fits_code _ _) later ⟨blanks_nil, blanks_nil, .inl rfl, ?_, .inl ⟨rfl, rfl, ?_⟩, ?_⟩
    · intro form same
      exact ⟨rfl, tagged.trans (Option.some.inj same)⟩
    · intro left same
      rw [← Option.some.inj same]
      rfl
    · intro left same _
      rw [← Option.some.inj same]
      exact ⟨mark, fun part => .inr (minus part)⟩
  | @other cell a b other _ ih =>
    obtain ⟨c, tag⟩ := cell
    have other : tag.isCode = false := other
    obtain ⟨tagged, later⟩ := scans_cons.1 scans
    by_cases comment : tag = .comment
    · subst comment
      rw [spacedFrom_comment, spacedFrom_comment]
      exact .nil
    have solid : tag.isCode = true → isBlank c = false := fun code => absurd code (by simp [other])
    rw [spacedFrom_solid comment solid, spacedFrom_solid comment solid, other]
    refine .other ?_ (between.regapOther other tagged) (ih fits.step later ?_)
    · refine (between.opened other tagged).imp_right ?_
      rintro ⟨left, member, string, -⟩
      exact ⟨left, member, string⟩
    · exact ⟨blanks_nil, blanks_nil, .inr ⟨_, rfl, rfl, rfl⟩, by simp, .inl ⟨rfl, rfl, by simp⟩, by simp⟩

end ArturoInsight.Layout
