import ArturoInsight.Proofs.Layout.Spacing
import ArturoInsight.Proofs.Lexical.Views

/-! Cells laid out anew: the words of every stretch of code keep their cells, the gaps between them are
written as the layout writes them, and nothing else changes. The scan does not notice. -/

namespace ArturoInsight.Layout

open Text Lexical

/-- An operator as it stands in a stretch: a lone minus has blanks on both sides. -/
def Stands (gap sign : List Char) (rest : List Cell) : Prop :=
  sign ∈ firmOperators ∨ sign = ['-'] ∧ gap ≠ [] ∧ rest.head?.any isBlankCell = true

/-- How the cells of a line read before and after the layout of its code. The first argument holds the
tag of the operator that stands directly before, if one does. -/
inductive Relaid : Option Tag → List Cell → List Cell → Prop where
  | nil : Relaid none [] []
  | blanks {after : Option Tag} {tag : Tag} {gap : List Char} {a b : List Cell} :
      tag.isCode = true → (∀ t ∈ after, t = tag) → Blanks gap → (∀ cell ∈ a.head?, cell.2 ≠ tag) →
      Relaid none a b →
      Relaid after (mark tag gap ++ a) (mark tag (space after.isSome gap false) ++ b)
  | plain {after : Option Tag} {tag : Tag} {gap : List Char} {c : Char} {a b : List Cell} :
      tag.isCode = true → (∀ t ∈ after, t = tag) → Blanks gap → isBlank c = false →
      isSign c = false → Relaid none a b →
      Relaid after (mark tag gap ++ (c, tag) :: a)
        (mark tag (space after.isSome gap false) ++ (c, tag) :: b)
  | operator {after : Option Tag} {tag : Tag} {gap sign : List Char} {a b : List Cell} :
      tag.isCode = true → Blanks gap → Stands gap sign a → Relaid (some tag) a b →
      Relaid after (mark tag gap ++ mark tag sign ++ a) ((' ', tag) :: mark tag sign ++ b)
  | other {cell : Cell} {a b : List Cell} :
      cell.2.isCode = false → Relaid none a b → Relaid none (cell :: a) (cell :: b)

theorem relaid_laid {tag : Tag} (code : tag.isCode = true) {a b : List Cell} (rest : Relaid none a b)
    (differ : ∀ cell ∈ a.head?, cell.2 ≠ tag) (text : List Char) (after : Option Tag)
    (same : ∀ t ∈ after, t = tag) :
    Relaid after (mark tag text ++ a) (mark tag (laid after.isSome text) ++ b) := by
  induction text using words_induction generalizing after with
  | blanks gap blanks =>
    rw [laid_blanks blanks]
    exact .blanks code same blanks differ rest
  | plain gap c more blanks solid plain ih =>
    have laterLaid := ih none (by simp)
    rw [laid_plain blanks _ solid plain]
    simpa using Relaid.plain code same blanks solid (operator?_eq_none_iff.1 plain).1 laterLaid
  | operator gap sign tail blanks found ih =>
    have laterLaid := ih (some tag) (by simp)
    have stands : Stands gap sign (mark tag tail ++ a) := by
      obtain ⟨-, firm | ⟨minus, spaced, follows⟩⟩ := operator?_some found
      · exact .inl firm
      · refine .inr ⟨minus, by simpa using spaced, ?_⟩
        obtain ⟨c, more, rfl⟩ := List.exists_cons_of_ne_nil (show tail ≠ [] by intro none; simp [none] at follows)
        simpa [isBlankCell] using follows
    rw [laid_operator blanks _ found]
    have laidOut : Relaid after _ _ := .operator code blanks stands laterLaid
    simpa using laidOut

theorem inert_sign {sign gap : List Char} {rest : List Cell} (stands : Stands gap sign rest) :
    sign ≠ [] ∧ Inert sign := by
  obtain firm | ⟨rfl, -⟩ := stands
  · have all : ∀ sign ∈ firmOperators,
        sign ≠ [] ∧ ∀ c ∈ sign, endsCode c = false ∧ c ≠ '[' ∧ c ≠ ']' := by
      decide
    exact all sign firm
  · refine ⟨by simp, fun c member => ?_⟩
    obtain rfl := List.mem_singleton.1 member
    decide

theorem blanks_space {after right : Bool} {gap : List Char} (blanks : Blanks gap) :
    Blanks (space after gap right) := by
  unfold space collapse
  split_ifs
  · decide
  · decide
  · exact blanks

theorem scans_respaced {state last : State} {after : Option Tag} {tag : Tag} {gap : List Char}
    {a : List Cell} (code : tag.isCode = true) (same : ∀ t ∈ after, t = tag) (blanks : Blanks gap)
    (fits : Fits state ((mark tag gap ++ a).map (·.1)))
    (there : ∀ t ∈ after, state.mode = .code ∧ state.codeTag = t)
    (scans : Scans state (mark tag gap ++ a) last) :
    Fits state (a.map (·.1)) ∧ Scans state a last ∧ ∀ b, Scans state b last →
      Scans state (mark tag (space after.isSome gap false) ++ b) last := by
  by_cases nothing : gap = [] ∧ after = none
  · obtain ⟨rfl, rfl⟩ := nothing
    exact ⟨fits, scans, fun b scans => scans⟩
  · have operator : gap = [] → state.mode = .code ∧ state.codeTag = tag := by
      intro empty
      obtain ⟨form, before⟩ := Option.ne_none_iff_exists'.1 fun none => nothing ⟨empty, none⟩
      rw [← same form before]
      exact there form before
    obtain ⟨inside, -, later, back⟩ :=
      scans_inert_code code (inert_blanks blanks) fits operator scans
    obtain ⟨mode, depth⟩ := state
    obtain rfl : mode = .code := inside
    exact ⟨fits_code _ _, later, fun b => back _ b (inert_blanks (blanks_space blanks))⟩

namespace Relaid

theorem head?_eq {a b : List Cell} (relaid : Relaid none a b)
    (other : ∀ cell ∈ a.head?, cell.2.isCode = false) : b.head? = a.head? := by
  generalize start : (none : Option Tag) = after at relaid
  induction relaid with
  | nil => rfl
  | @blanks _ tag gap a b code _ _ _ _ ih =>
    subst start
    cases gap with
    | nil => exact ih other rfl
    | cons c gap => simp [code] at other
  | @plain _ tag gap c a b code =>
    cases gap <;> simp [code] at other
  | @operator _ tag gap sign a b code _ stands =>
    obtain ⟨c, more, rfl⟩ := List.exists_cons_of_ne_nil (inert_sign stands).1
    cases gap <;> simp [code] at other
  | other => rfl

/-- The scan goes through the new cells as through the old ones. -/
theorem scans {after : Option Tag} {a b : List Cell} (relaid : Relaid after a b)
    {state last : State} (fits : Fits state (a.map (·.1)))
    (there : ∀ tag ∈ after, state.mode = .code ∧ state.codeTag = tag) (scans : Scans state a last) :
    Scans state b last := by
  induction relaid generalizing state with
  | nil => exact scans
  | blanks code same blanks _ _ ih =>
    obtain ⟨fits, later, back⟩ := scans_respaced code same blanks fits there scans
    exact back _ (ih fits (by simp) later)
  | plain code same blanks _ _ _ ih =>
    obtain ⟨fits, later, back⟩ := scans_respaced code same blanks fits there scans
    obtain ⟨depth, later, keep⟩ := scans_code_cons code fits later
    exact back _ (keep _ (ih (fits_code _ _) (by simp) later))
  | @operator after tag gap sign a b code blanks stands _ ih =>
    obtain ⟨some_, inert⟩ := inert_sign stands
    rw [← mark_append] at fits scans
    obtain ⟨inside, tagged, later, back⟩ := scans_inert_code code (inert_append (inert_blanks blanks) inert)
      fits (by simp [some_]) scans
    have laid := back (' ' :: sign) b (inert_append (inert_blanks blanks_one) inert)
    obtain ⟨mode, depth⟩ := state
    obtain rfl : mode = .code := inside
    exact laid (ih (fits_code _ _) (by simp [tagged]) later)
  | @other cell a b other rest ih =>
    rw [scans_cons] at scans ⊢
    obtain ⟨tagged, later⟩ := scans
    have moves : state.step cell.1 (b.map (·.1)).head? = state.step cell.1 (a.map (·.1)).head? := by
      cases inside : (state.step cell.1 (a.map (·.1)).head?).2.mode.tag? with
      | none => exact State.step_of_code (Mode.tag?_eq_none.1 inside) _
      | some form =>
        have head := rest.head?_eq fun next member => by
          obtain ⟨more, rfl⟩ := List.head?_eq_some_iff.1 member
          rw [← (scans_cons.1 later).1, (State.step_of_tag? inside _ _).1]
          exact fits.step.other inside
        simp only [List.head?_map, head]
    rw [moves]
    exact ⟨tagged, ih fits.step (by simp) later⟩

theorem filter_eq {after : Option Tag} {a b : List Cell} (relaid : Relaid after a b)
    {shown : Cell → Bool} (overlooks : Overlooks shown) : a.filter shown = b.filter shown := by
  induction relaid with
  | nil => rfl
  | blanks code _ blanks _ _ ih =>
    rw [List.filter_append, List.filter_append, filter_mark_of_blanks overlooks code blanks,
      filter_mark_of_blanks overlooks code (blanks_space blanks), ih]
  | plain code _ blanks _ _ _ ih =>
    rw [List.filter_append, List.filter_append, filter_mark_of_blanks overlooks code blanks,
      filter_mark_of_blanks overlooks code (blanks_space blanks), List.filter_cons, ih, List.filter_cons]
  | operator code blanks _ _ ih =>
    have one := filter_mark_of_blanks overlooks code blanks_one
    rw [List.append_assoc, List.filter_append, filter_mark_of_blanks overlooks code blanks,
      List.nil_append, List.filter_append, ih, ← List.filter_append, ← List.nil_append (List.filter _ _),
      ← one, ← List.filter_append]
    rfl
  | other _ _ ih => rw [List.filter_cons, ih, List.filter_cons]

end Relaid

end ArturoInsight.Layout
