import ArturoInsight.Proofs.Lexical.Spaced
import ArturoInsight.Proofs.Symbol.Name
import ArturoInsight.Proofs.Text.Classes
import ArturoInsight.Symbol.Binding

/-! The binding of a line, read off its characters and the blanks between them. Which blanks may stand before
the colon is left open. -/

namespace ArturoInsight

open Text Lexical

namespace Binding

def atGap? (joins : List Char → Bool) (scan : Scan) (column : Nat) (before : Option Char)
    (rest : List Char) : Option Binding :=
  if before.any isNamePart then none
  else do
    let (name, tail) ← Name.read? rest
    let blanks := tail.takeWhile isBlank
    let after ← after? [':'] (tail.dropWhile isBlank)
    let colon := column + name.length + blanks.length
    let value := trim after
    if joins blanks && scan.codeAt column && scan.codeAt colon && !annotates blanks after &&
        !value.isEmpty then
      some ⟨name, column, value⟩
    else none

def ofGap? (joins : List Char → Bool) (scan : Scan) (line : List Char) : Option Binding :=
  firstPlace (atGap? joins scan) line

def isJoined (gap : List Char) : Bool := gap.all isAsciiBlank

theorem after?_colon (c : Char) (rest : List Char) :
    after? [':'] (c :: rest) = if c = ':' then some rest else none := by
  by_cases colon : c = ':'
  · simp [after?, colon]
  · simp [after?, colon, Ne.symm colon]

theorem at?_eq (scan : Scan) (column : Nat) (before : Option Char) (rest : List Char) :
    at? scan column before rest = atGap? isJoined scan column before rest := by
  unfold at? atGap?
  split_ifs
  · rfl
  cases found : Name.read? rest with
  | none => rfl
  | some pair =>
    obtain ⟨name, tail⟩ := pair
    obtain ⟨gap, after, rfl, ascii, stops⟩ := exists_run isAsciiBlank tail
    have blanks : Blanks gap := fun c member => isBlank_of_isAsciiBlank (ascii c member)
    cases after with
    | nil =>
      have ends : ∀ c ∈ ([] : List Char).head?, isBlank c = false := by simp
      have fails : after? [':'] [] = none := rfl
      simp only [Option.bind_eq_bind, Option.bind_some, dropWhile_run ascii stops,
        dropWhile_run blanks ends, fails, Option.bind_none]
    | cons c after =>
      cases blank : isBlank c with
      | false =>
        have solid : ∀ d ∈ (c :: after).head?, isBlank d = false := by simpa using blank
        have joins : isJoined gap = true := List.all_eq_true.2 ascii
        simp [dropWhile_run ascii stops, dropWhile_run blanks solid, takeWhile_run ascii stops,
          takeWhile_run blanks solid, joins]
      | true =>
        have other : c ≠ ':' := by
          rintro rfl
          exact absurd blank (by decide)
        have apart : isJoined ((gap ++ c :: after).takeWhile isBlank) = false := by
          rw [List.takeWhile_append_of_pos blanks]
          simp [isJoined, blank, stops c rfl]
        simp [dropWhile_run ascii stops, after?_colon, other, apart]

theorem ofLine?_eq (scan : Scan) (line : List Char) : ofLine? scan line = ofGap? isJoined scan line := by
  have same : at? scan = atGap? isJoined scan := by
    funext column before rest
    exact at?_eq scan column before rest
  rw [ofLine?, ofGap?, same]

section Spaced

variable (joins : List Char → Bool)

/-- What stands after a colon, and whether the colon stands directly at the place. -/
def colon? : List Spaced → Option (Bool × List Spaced)
  | [] => none
  | next :: rest =>
    if next.isCode && next.char == ':' && joins next.gap then some (next.gap.isEmpty, rest) else none

def label? : List Spaced → Option (List Char × Bool × List Spaced)
  | [] => none
  | next :: rest =>
    if next.gap.isEmpty && isNamePart next.char then
      (label? rest).map fun (name, more) => (next.char :: name, more)
    else if next.gap.isEmpty && next.char == '?' then
      (colon? joins rest).map fun more => (['?'], more)
    else (colon? joins (next :: rest)).map fun more => ([], more)

def bound? (first : Spaced) (rest : List Spaced) : Option (List Char × List Spaced) :=
  if first.isCode && isNameStart first.char then
    (label? joins rest).bind fun (name, joined, after) =>
      if !(!joined && (written after).head?.any isLetter) && !(trim (written after)).isEmpty then
        some (first.char :: name, after)
      else none
  else none

/-- The leftmost binding of a line that goes on after a character, which may be part of a name. -/
def boundFrom (inName : Bool) : List Spaced → Option (List Char × List Spaced)
  | [] => none
  | first :: rest =>
    (if inName && first.gap.isEmpty then none else bound? joins first rest).or
      (boundFrom (isNamePart first.char) rest)

def labelOf? (text : List Char) : Option (List Char × List Char × List Char) :=
  let (mark, tail) := question (text.dropWhile isNamePart)
  if joins (tail.takeWhile isBlank) then
    (after? [':'] (tail.dropWhile isBlank)).map fun after =>
      (text.takeWhile isNamePart ++ mark, tail.takeWhile isBlank, after)
  else none

theorem atGap?_cons (scan : Scan) (column : Nat) (before : Option Char) (c : Char) (text : List Char) :
    atGap? joins scan column before (c :: text) =
      if before.any isNamePart || !isNameStart c then none
      else (labelOf? joins text).bind fun (name, blanks, after) =>
        if scan.codeAt column && scan.codeAt (column + (name.length + 1) + blanks.length) &&
            !annotates blanks after && !(trim after).isEmpty then
          some ⟨c :: name, column, trim after⟩
        else none := by
  unfold atGap? labelOf?
  cases inName : before.any isNamePart with
  | true => rfl
  | false =>
    cases started : isNameStart c with
    | false => simp [Name.read?, started]
    | true =>
      cases kept : joins ((question (text.dropWhile isNamePart)).2.takeWhile isBlank) with
      | false => simp [Name.read?, started, kept]
      | true =>
        cases found : after? [':'] ((question (text.dropWhile isNamePart)).2.dropWhile isBlank) with
        | none => simp [Name.read?, started, found]
        | some after => simp [Name.read?, started, kept, found]

theorem colon_spaced {before : Cell} {cells : List Cell} (code : before.2.isCode = true)
    (bordered : Bordered before cells) (shown : ∀ cell ∈ cells, cell.2 ≠ .comment) (seen : List Char) :
    after? [':'] ((cells.map (·.1)).dropWhile isBlank) = none ∧ colon? joins (spacedFrom seen cells) = none ∨
    ∃ tag after, cells.drop ((cells.map (·.1)).takeWhile isBlank).length = (':', tag) :: after ∧
      tag.isCode = true ∧ after? [':'] ((cells.map (·.1)).dropWhile isBlank) = some (after.map (·.1)) ∧
      colon? joins (spacedFrom seen cells) =
        if joins (seen ++ (cells.map (·.1)).takeWhile isBlank) then
          some ((seen ++ (cells.map (·.1)).takeWhile isBlank).isEmpty, spaced after)
        else none := by
  induction cells generalizing before seen with
  | nil => exact .inl ⟨rfl, rfl⟩
  | cons cell rest ih =>
    obtain ⟨c, tag⟩ := cell
    obtain ⟨first, later⟩ := List.forall_mem_cons.1 shown
    cases blank : isBlank c with
    | true =>
      have inCode : tag.isCode = true := isCode_of_bordered code bordered (endsCode_of_isBlank blank)
      have more := ih inCode (bordered_cons.1 bordered).2 later (seen ++ [c])
      simpa [spacedFrom_blank blank inCode, blank] using more
    | false =>
      rw [spacedFrom_solid first (fun _ => blank)]
      by_cases colon : c = ':'
      · subst colon
        have inCode : tag.isCode = true := isCode_of_bordered code bordered (by decide)
        exact .inr ⟨tag, rest, by simp [blank], inCode, by simp [blank, after?_colon],
          by simp [colon?, inCode, blank, spaced]⟩
      · exact .inl ⟨by simp [blank, after?_colon, colon], by simp [colon?, colon]⟩

theorem endsCode_of_isNamePart {c : Char} (part : isNamePart c = true) : endsCode c = false := by
  simp only [endsCode, Bool.or_eq_false_iff, beq_eq_false_iff_ne]
  refine ⟨⟨⟨?_, ?_⟩, ?_⟩, ?_⟩ <;> rintro rfl <;> exact absurd part (by decide)

theorem labelOf?_part {c : Char} (part : isNamePart c = true) (text : List Char) :
    labelOf? joins (c :: text) = (labelOf? joins text).map fun (name, more) => (c :: name, more) := by
  unfold labelOf?
  simp only [List.dropWhile_cons_of_pos part, List.takeWhile_cons_of_pos part]
  split_ifs
  · cases after? [':'] ((question (text.dropWhile isNamePart)).2.dropWhile isBlank) <;> rfl
  · rfl

theorem labelOf?_mark (text : List Char) : labelOf? joins ('?' :: text) =
    if joins (text.takeWhile isBlank) then
      (after? [':'] (text.dropWhile isBlank)).map fun after => (['?'], text.takeWhile isBlank, after)
    else none := rfl

theorem labelOf?_other {text : List Char} (ends : ∀ c ∈ text.head?, isNamePart c = false ∧ c ≠ '?') :
    labelOf? joins text = if joins (text.takeWhile isBlank) then
      (after? [':'] (text.dropWhile isBlank)).map fun after => ([], text.takeWhile isBlank, after)
    else none := by
  cases text with
  | nil => rfl
  | cons c text =>
    obtain ⟨other, mark⟩ := ends c rfl
    simp [labelOf?, other, question, mark]

theorem label?_other {line : List Spaced}
    (ends : ∀ first ∈ line.head?, first.gap = [] → isNamePart first.char = false ∧ first.char ≠ '?') :
    label? joins line = (colon? joins line).map fun more => ([], more) := by
  cases line with
  | nil => rfl
  | cons first rest =>
    by_cases joined : first.gap = []
    · obtain ⟨other, mark⟩ := ends first rfl joined
      simp [label?, other, mark]
    · simp [label?, joined]

theorem labelEnd_spaced {before : Cell} {cells : List Cell} (code : before.2.isCode = true)
    (bordered : Bordered before cells) (shown : ∀ cell ∈ cells, cell.2 ≠ .comment) (name : List Char) :
    (if joins ((cells.map (·.1)).takeWhile isBlank) then
      (after? [':'] ((cells.map (·.1)).dropWhile isBlank)).map fun after =>
        (name, (cells.map (·.1)).takeWhile isBlank, after)
      else none) = none ∧
      ((colon? joins (spaced cells)).map fun more => (name, more)) = none ∨
    ∃ blanks tag after, cells.drop blanks.length = (':', tag) :: after ∧ tag.isCode = true ∧
      (if joins ((cells.map (·.1)).takeWhile isBlank) then
        (after? [':'] ((cells.map (·.1)).dropWhile isBlank)).map fun after =>
          (name, (cells.map (·.1)).takeWhile isBlank, after)
        else none) = some (name, blanks, after.map (·.1)) ∧
      ((colon? joins (spaced cells)).map fun more => (name, more)) =
        some (name, blanks.isEmpty, spaced after) := by
  obtain ⟨text, line⟩ | ⟨tag, after, place, colon, text, line⟩ := colon_spaced joins code bordered shown []
  · left
    rw [text, spaced, line]
    exact ⟨ite_self _, rfl⟩
  · rw [List.nil_append] at line
    rw [text, spaced, line]
    split_ifs
    · exact .inr ⟨_, tag, after, place, colon, rfl, rfl⟩
    · exact .inl ⟨rfl, rfl⟩

theorem label?_spaced_part {c : Char} {tag : Tag} (first : tag ≠ .comment) (part : isNamePart c = true)
    (rest : List Cell) : label? joins (spaced ((c, tag) :: rest)) =
      (label? joins (spaced rest)).map fun (name, more) => (c :: name, more) := by
  rw [spaced, spacedFrom_solid first fun _ => Name.not_isBlank_of_isNamePart part]
  simp [label?, part, spaced]

theorem label?_spaced_mark {tag : Tag} (first : tag ≠ .comment) (rest : List Cell) :
    label? joins (spaced (('?', tag) :: rest)) =
      (colon? joins (spaced rest)).map fun more => (['?'], more) := by
  have other : isNamePart '?' = false := by decide
  rw [spaced, spacedFrom_solid first fun _ => by decide]
  simp [label?, other, spaced]

theorem label?_spaced_other {c : Char} (tag : Tag) (other : isNamePart c = false) (mark : c ≠ '?')
    (rest : List Cell) : label? joins (spaced ((c, tag) :: rest)) =
      (colon? joins (spaced ((c, tag) :: rest))).map fun more => ([], more) := by
  apply label?_other
  intro item head joined
  rw [char_of_head? head joined]
  exact ⟨other, mark⟩

theorem label_spaced {before : Cell} {cells : List Cell} (code : before.2.isCode = true)
    (bordered : Bordered before cells) (shown : ∀ cell ∈ cells, cell.2 ≠ .comment) :
    labelOf? joins (cells.map (·.1)) = none ∧ label? joins (spaced cells) = none ∨
    ∃ name blanks tag after, cells.drop (name.length + blanks.length) = (':', tag) :: after ∧
      tag.isCode = true ∧
      labelOf? joins (cells.map (·.1)) = some (name, blanks, after.map (·.1)) ∧
      label? joins (spaced cells) = some (name, blanks.isEmpty, spaced after) := by
  induction cells generalizing before with
  | nil => exact .inl ⟨ite_self _, rfl⟩
  | cons cell rest ih =>
    obtain ⟨c, tag⟩ := cell
    obtain ⟨first, later⟩ := List.forall_mem_cons.1 shown
    have here := isCode_of_bordered code bordered
    have next := (bordered_cons.1 bordered).2
    cases part : isNamePart c with
    | true =>
      rw [List.map_cons, labelOf?_part joins part, label?_spaced_part joins first part]
      obtain ⟨text, line⟩ | ⟨name, blanks, mark, after, place, colon, text, line⟩ :=
        ih (here (endsCode_of_isNamePart part)) next later
      · exact .inl ⟨by rw [text]; rfl, by rw [line]; rfl⟩
      · refine .inr ⟨c :: name, blanks, mark, after, ?_, colon, by rw [text]; rfl, by rw [line]; rfl⟩
        rw [List.length_cons, Nat.add_right_comm, List.drop_succ_cons, place]
    | false =>
      by_cases mark : c = '?'
      · subst mark
        rw [List.map_cons, labelOf?_mark, label?_spaced_mark joins first]
        obtain none | ⟨blanks, form, after, place, found⟩ :=
          labelEnd_spaced joins (here (by decide)) next later ['?']
        · exact .inl none
        · refine .inr ⟨['?'], blanks, form, after, ?_, found⟩
          rw [List.length_singleton, Nat.add_comm, List.drop_succ_cons, place]
      · rw [label?_spaced_other joins tag part mark, labelOf?_other joins (by simp [part, mark])]
        obtain none | ⟨blanks, form, after, place, found⟩ := labelEnd_spaced joins code bordered shown []
        · exact .inl none
        · refine .inr ⟨[], blanks, form, after, ?_, found⟩
          rw [List.length_nil, Nat.zero_add, place]

theorem after_spaced {cells : List Cell} (shown : ∀ cell ∈ cells, cell.2 ≠ .comment) :
    trim (written (spaced cells)) = trim (cells.map (·.1)) ∧
      (written (spaced cells)).head?.any isLetter = (cells.map (·.1)).head?.any isLetter := by
  obtain ⟨last, blanks, whole⟩ := exists_written blanks_nil cells
  rw [beforeComment_of_forall shown, List.nil_append] at whole
  rw [whole]
  refine ⟨(trim_append_blanks blanks _).symm, ?_⟩
  change _ = (written (spaced cells) ++ last).head?.any isLetter
  cases first : written (spaced cells) with
  | cons c more => rfl
  | nil =>
    cases last with
    | nil => rfl
    | cons c last =>
      have word := not_isWord_of_isBlank (blanks c List.mem_cons_self)
      cases letter : isLetter c with
      | false => simp [letter]
      | true => simp [isWord_of_isLetter letter] at word

theorem bound_spaced {scan : Scan} {column : Nat} {previous : Cell} {c : Char} {tag : Tag}
    {rest : List Cell} (bordered : Bordered previous ((c, tag) :: rest))
    (shown : ∀ cell ∈ (c, tag) :: rest, cell.2 ≠ .comment) (tags : TagsFrom scan column ((c, tag) :: rest))
    (gap : List Char) {before : Option Char} (apart : before.any isNamePart = false) :
    (atGap? joins scan column before (c :: rest.map (·.1))).map (fun found => (found.name, found.value)) =
      (bound? joins ⟨gap, c, tag.isCode⟩ (spaced rest)).map
        fun found => (found.1, trim (written found.2)) := by
  have here : scan.codeAt column = tag.isCode := tags 0 _ rfl
  have later := (List.forall_mem_cons.1 shown).2
  rw [atGap?_cons, bound?, apart, here]
  cases code : tag.isCode with
  | false => cases isNameStart c <;> cases labelOf? joins (rest.map (·.1)) <;> simp
  | true =>
    cases started : isNameStart c with
    | false => simp
    | true =>
      obtain ⟨text, line⟩ | ⟨name, blanks, mark, after, place, colon, text, line⟩ :=
        label_spaced joins code (bordered_cons.1 bordered).2 later
      · simp [text, line]
      · have coded : scan.codeAt (column + (name.length + 1) + blanks.length) = true := by
          have dropped := tags.drop (name.length + blanks.length + 1)
          rw [List.drop_succ_cons, place] at dropped
          have found := dropped 0 _ rfl
          rw [show column + (name.length + 1) + blanks.length =
            column + (name.length + blanks.length + 1) + 0 by omega, found, colon]
        have whole : ∀ cell ∈ after, cell.2 ≠ .comment := by
          intro cell member
          have inside : cell ∈ rest.drop (name.length + blanks.length) := by
            rw [place]
            exact List.mem_cons_of_mem _ member
          exact later cell (List.mem_of_mem_drop inside)
        obtain ⟨value, head⟩ := after_spaced whole
        simp only [text, line, coded, annotates, value, head, Bool.false_or, Bool.not_true, Bool.true_and,
          if_true, Option.bind_some, Bool.false_eq_true, if_false]
        split_ifs
        · rw [Option.map_some, Option.map_some, value]
        · rfl

theorem firstPlaceFrom_cons {α : Type} (accept : Nat → Option Char → List Char → Option α) (column : Nat)
    (before : Option Char) (c : Char) (rest : List Char) :
    firstPlaceFrom accept column before (c :: rest) =
      (accept column before (c :: rest)).or (firstPlaceFrom accept (column + 1) (some c) rest) := by
  rw [firstPlaceFrom]
  cases accept column before (c :: rest) <;> rfl

theorem not_isNamePart_of_isBlank {c : Char} (blank : isBlank c = true) : isNamePart c = false := by
  by_contra part
  rw [Name.not_isBlank_of_isNamePart (by simpa using part)] at blank
  contradiction

theorem not_isNameStart_of_isBlank {c : Char} (blank : isBlank c = true) : isNameStart c = false := by
  by_contra start
  have part := Name.isNamePart_of_isNameStart c (by simpa using start)
  rw [not_isNamePart_of_isBlank blank] at part
  contradiction

theorem firstPlaceFrom_spaced {scan : Scan} {column : Nat} {previous : Cell} {cells : List Cell}
    (bordered : Bordered previous cells) (shown : ∀ cell ∈ cells, cell.2 ≠ .comment)
    (tags : TagsFrom scan column cells) {gap : List Char} {before : Option Char} {inName : Bool}
    (apart : before.any isNamePart = (inName && gap.isEmpty)) :
    (firstPlaceFrom (atGap? joins scan) column before (cells.map (·.1))).map
        (fun found => (found.name, found.value)) =
      (boundFrom joins inName (spacedFrom gap cells)).map
        fun found => (found.1, trim (written found.2)) := by
  induction cells generalizing column previous gap before inName with
  | nil => rfl
  | cons cell rest ih =>
    obtain ⟨c, tag⟩ := cell
    obtain ⟨first, later⟩ := List.forall_mem_cons.1 shown
    have next := (bordered_cons.1 bordered).2
    have further : TagsFrom scan (column + 1) rest := tags.drop 1
    rw [List.map_cons, firstPlaceFrom_cons]
    by_cases gapped : tag.isCode = true ∧ isBlank c = true
    · obtain ⟨code, blank⟩ := gapped
      rw [atGap?_cons, not_isNameStart_of_isBlank blank, Bool.not_false, Bool.or_true, if_pos rfl,
        Option.none_or, spacedFrom_blank blank code]
      exact ih next later further (by simp [not_isNamePart_of_isBlank blank])
    · have more := @ih (column + 1) (c, tag) next later further [] (some c) (isNamePart c) (by simp)
      rw [spacedFrom_solid first (by simpa using gapped), boundFrom, Option.map_or, Option.map_or, more,
        ← apart]
      cases inside : before.any isNamePart with
      | true =>
        rw [atGap?_cons, inside]
        rfl
      | false =>
        rw [bound_spaced joins bordered shown tags gap inside]
        rfl

theorem ofGap?_spaced {carry : Carry} {text : List Char} (started : State.ofCarry carry = ⟨.code, 0⟩) :
    (ofGap? joins (scanLine carry text) (scanLine carry text).uncommented).map
        (fun found => (found.name, found.value)) =
      (boundFrom joins false (spaced (scanLine carry text).cells)).map
        fun found => (found.1, trim (written found.2)) := by
  rw [uncommented_scanLine started, spaced, ← spacedFrom_beforeComment]
  exact firstPlaceFrom_spaced joins (bordered_scanLine started) (fun cell => ne_comment_of_mem)
    (tagsFrom_scanLine carry text) rfl

end Spaced

end Binding

end ArturoInsight
