import ArturoInsight.Proofs.Lexical.WellFormed

/-! Lines with the same code: the same tags, and the same characters where the tags are those of code. What
stands in their strings and comments may differ. -/

namespace ArturoInsight.Lexical

open Text

def SameCell (left right : Cell) : Prop := left.2 = right.2 ∧ (left.2.isCode = true → left.1 = right.1)

instance (left right : Cell) : Decidable (SameCell left right) := inferInstanceAs (Decidable (_ ∧ _))

abbrev SameCells : List Cell → List Cell → Prop := List.Forall₂ SameCell

def SameCode (left right : Scan) : Prop := SameCells left.cells right.cells

instance (left right : Scan) : Decidable (SameCode left right) :=
  inferInstanceAs (Decidable (List.Forall₂ SameCell _ _))

def Marked (text : List Char) : Prop := ∀ c ∈ text.head?, endsCode c = true

theorem SameCell.eq {left right : Cell} (same : SameCell left right) (code : left.2.isCode = true) : left = right :=
  Prod.ext (same.2 code) same.1

theorem SameCell.isCode {left right : Cell} (same : SameCell left right) : left.2.isCode = right.2.isCode :=
  congrArg Tag.isCode same.1

namespace SameCells

variable {left right : List Cell} (same : SameCells left right)

include same

theorem drop (count : Nat) : SameCells (left.drop count) (right.drop count) := by
  induction same generalizing count with
  | nil => simp
  | cons here later ih =>
    cases count with
    | zero => exact .cons here later
    | succ count => exact ih count

theorem beforeComment : SameCells (beforeComment left) (beforeComment right) := by
  induction same with
  | nil => exact .nil
  | @cons first second left right here later ih =>
    unfold Lexical.beforeComment at ih ⊢
    rw [List.takeWhile_cons, List.takeWhile_cons, here.1]
    split_ifs
    · exact .cons here ih
    · exact .nil

theorem flatMap {shown : Cell → List Char} (alike : ∀ first second, SameCell first second → shown first = shown second) :
    left.flatMap shown = right.flatMap shown := by
  induction same with
  | nil => rfl
  | cons here later ih => rw [List.flatMap_cons, List.flatMap_cons, alike _ _ here, ih]

theorem filter_code {shown : Cell → Bool} (code : ∀ cell, shown cell = true → cell.2.isCode = true) :
    left.filter shown = right.filter shown := by
  induction same with
  | nil => rfl
  | @cons first second left right here later ih =>
    cases inCode : first.2.isCode with
    | true => rw [here.eq inCode, List.filter_cons, List.filter_cons, ih]
    | false =>
      have hidden {cell : Cell} (other : cell.2.isCode = false) : ¬ shown cell = true :=
        fun shows => absurd (code cell shows) (by simp [other])
      rw [List.filter_cons_of_neg (hidden inCode), List.filter_cons_of_neg (hidden (here.isCode.symm.trans inCode)), ih]

theorem exists_shared {first second : Cell} (code : first.2.isCode = true) (other : second.2.isCode = true)
    (bordered : Bordered first left) (edged : Bordered second right) :
    ∃ shared front back, left = shared ++ front ∧ right = shared ++ back ∧
      (∀ cell ∈ shared, cell.2.isCode = true) ∧ Marked (front.map (·.1)) ∧ Marked (back.map (·.1)) ∧
        SameCells front back := by
  induction same generalizing first second with
  | nil => exact ⟨[], [], [], rfl, rfl, List.forall_mem_nil _, by simp [Marked], by simp [Marked], .nil⟩
  | @cons cell partner left right here later ih =>
    obtain ⟨border, bordered⟩ := bordered_cons.1 bordered
    obtain ⟨edge, edged⟩ := bordered_cons.1 edged
    cases inCode : cell.2.isCode with
    | true =>
      obtain rfl := here.eq inCode
      obtain ⟨shared, front, back, rfl, rfl, shares, marks⟩ := ih inCode inCode bordered edged
      exact ⟨cell :: shared, front, back, rfl, rfl, List.forall_mem_cons.2 ⟨inCode, shares⟩, marks⟩
    | false =>
      have marks := border.opens code inCode
      have edges := edge.opens other (here.isCode.symm.trans inCode)
      exact ⟨[], cell :: left, partner :: right, rfl, rfl, List.forall_mem_nil _, by simpa [Marked] using marks,
        by simpa [Marked] using edges, .cons here later⟩

theorem before_code {cell partner : Cell} (here : SameCell cell partner) (bordered : Bordered cell left)
    (edged : Bordered partner right) {holds : Char → Bool} (plain : ∀ c, endsString c = true → holds c = false) :
    ∀ next ∈ left.head?, next.2.isCode = true → holds cell.1 = holds partner.1 := by
  cases same with
  | nil => simp
  | @cons next follower left right alike later =>
    rintro _ ⟨⟩ code
    cases inCode : cell.2.isCode with
    | true => rw [here.2 inCode]
    | false =>
      have closes := (bordered_cons.1 bordered).1.closes inCode code
      have ends := (bordered_cons.1 edged).1.closes (here.isCode.symm.trans inCode) (alike.isCode.symm.trans code)
      rw [plain _ closes, plain _ ends]

end SameCells

namespace SameCode

variable {left right : Scan} (same : SameCode left right)

include same

theorem codeText (fill : List Char) : left.codeText fill = right.codeText fill := by
  refine SameCells.flatMap same fun first second alike => ?_
  rw [alike.isCode]
  split_ifs with code
  · rw [alike.2 (alike.isCode.trans code)]
  · rfl

theorem brackets : left.brackets = right.brackets := by
  have code (cell : Cell) (shown : (cell.2.isCode && (cell.1 == '[' || cell.1 == ']')) = true) :
      cell.2.isCode = true := (Bool.and_eq_true_iff.1 shown).1
  exact congrArg (List.map (·.1)) (SameCells.filter_code same code)

end SameCode

end ArturoInsight.Lexical
