import ArturoInsight.Proofs.Lexical.WellFormed

/-! Columns outside strings and comments: those in code, and those where a string starts. Behind a character that
closes no string they are the columns after code that do not start a comment. -/

namespace ArturoInsight.Lexical

open Text

/-- A column in code, or the first of a string; the column at the end of a line is in code if the line ends there. -/
def Scan.Outside (scan : Scan) (column : Nat) : Prop :=
  scan.codeAt column = true ∨ ∃ span ∈ scan.spans, span.tag.isString = true ∧ span.start = column

instance (scan : Scan) (column : Nat) : Decidable (scan.Outside column) := inferInstanceAs (Decidable (_ ∨ _))

/-- What a cell says of the one after it: strings and comments go on where no mark closes them, and code goes over
into a comment at a semicolon alone. -/
structure Follows (first second : Cell) : Prop where
  stays : first.2.isCode = false → endsString first.1 = false → second.2 = first.2
  comment : first.2.isCode = true → (second.2 = .comment ↔ second.1 = ';')

theorem Scans.follows {state last : State} {cells : List Cell} (scans : Scans state cells last)
    (fits : Fits state (cells.map (·.1))) : cells.IsChain Follows := by
  induction cells generalizing state with
  | nil => exact .nil
  | cons first rest ih =>
    obtain ⟨tagged, later⟩ := scans_cons.1 scans
    cases rest with
    | nil => exact .singleton first
    | cons second rest =>
      refine List.isChain_cons_cons.2 ⟨⟨fun other unclosed => ?_, fun code => ?_⟩, ih later fits.step⟩
      · have goes : (state.step first.1 ((second :: rest).map (·.1)).head?).2.mode ≠ .code := by
          intro ends
          obtain code | closes := step_ends fits ends
          · rw [tagged, other] at code
            contradiction
          · rw [unclosed] at closes
            contradiction
        obtain ⟨tag, inside⟩ := Option.ne_none_iff_exists'.1 fun none => goes (Mode.tag?_eq_none.1 none)
        have here : first.2 = tag := tagged.symm.trans (State.step_fst_of_tag? inside)
        have next : second.2 = tag := (scans_cons.1 later).1.symm.trans (State.step_of_tag? inside _ _).1
        rw [here, next]
      · obtain ⟨depth, later, -⟩ := scans_code_cons code fits scans
        have tagged := (scans_cons.1 later).1
        constructor
        · intro comment
          have starts : (⟨.code, depth⟩ : State).mode ≠ .comment := by simp
          exact State.char_of_comment starts ((fits_code depth []).step_comment (tagged.trans comment))
        · intro semicolon
          rw [← tagged, semicolon]
          rfl

theorem Scan.starts_iff {scan : Scan} {column : Nat} {tag other : Tag} (first : scan.tags[column]? = some tag)
    (second : scan.tags[column + 1]? = some other) :
    (∃ span ∈ scan.spans, span.tag.isString = true ∧ span.start = (column + 1 : Nat)) ↔
      other.isString = true ∧ other ≠ tag := by
  have tiled := scan.tiled
  have here := tagAt_of_getElem? first
  have next := tagAt_of_getElem? second
  constructor
  · intro starts
    obtain ⟨span, member, string, start⟩ := starts
    have nonempty := tiled.nonempty span member
    have tagged := tiled.tagged span member (column + 1 : Nat) (by simp [Span.contains]; omega)
    rw [next] at tagged
    refine ⟨tagged ▸ string, fun same => ?_⟩
    obtain ⟨front, back, split⟩ := List.append_of_mem member
    have joined := tiled.joined
    cases front using List.reverseRecOn with
    | nil =>
      have zero := tiled.first span (by rw [split]; rfl)
      omega
    | append_singleton front before =>
      have inside : before ∈ scan.spans := by simp [split]
      rw [split, List.append_assoc, List.singleton_append] at joined
      have joins : before.Joins span := (List.isChain_cons_cons.1 joined.right_of_append).1
      have low := tiled.nonempty before inside
      have prior := tiled.tagged before inside column (by simp [Span.contains]; have := joins.1; omega)
      exact joins.2 (by rw [← prior, here, ← tagged, same])
  · intro changes
    obtain ⟨string, differs⟩ := changes
    obtain ⟨span, member, inside⟩ := tiled.covered (column + 1) (List.getElem?_eq_some_iff.1 second).1
    have tagged := tiled.tagged span member _ inside
    rw [next] at tagged
    refine ⟨span, member, tagged ▸ string, ?_⟩
    by_contra earlier
    have before : span.contains column = true := by
      simp only [Span.contains, Bool.and_eq_true, decide_eq_true_eq] at inside ⊢
      omega
    have prior := tiled.tagged span member column before
    exact differs (by rw [tagged, ← prior, here])

section Line

variable {carry : Carry} {text : List Char} {column : Nat} {c d : Char}

theorem outside_succ_iff (sound : carry.Sound) (first : text[column]? = some d) (second : text[column + 1]? = some c)
    (unclosed : endsString d = false) : (scanLine carry text).Outside (column + 1) ↔
      (scanLine carry text).codeAt column = true ∧ c ≠ ';' := by
  have formed := wellFormed_scanLine sound text
  obtain ⟨tag, here, code⟩ := formed.exists_cell first
  obtain ⟨other, next, follows⟩ := formed.exists_cell second
  have fits : Fits (.ofCarry carry) ((scanLine carry text).cells.map (·.1)) := sound.fits _
  obtain ⟨within, same⟩ := List.getElem?_eq_some_iff.1 here
  obtain ⟨inside, alike⟩ := List.getElem?_eq_some_iff.1 next
  have related := ((scans_cells_scanLine carry text).follows fits).getElem column inside
  rw [same, alike] at related
  rw [Scan.Outside, Scan.starts_iff (List.getElem?_zip_eq_some.1 here).2 (List.getElem?_zip_eq_some.1 next).2, follows,
    code]
  cases coded : tag.isCode with
  | true =>
    have comment := related.comment coded
    have semicolon : c ≠ ';' ↔ other ≠ .comment := not_congr comment.symm
    have changes : other.isString = true → other ≠ tag := by
      rintro string rfl
      rw [Tag.isCode_eq_false_of_isString string] at coded
      contradiction
    rw [semicolon]
    cases other <;> simp_all [Tag.isCode, Tag.isString]
  | false =>
    obtain rfl : other = tag := related.stays coded unclosed
    simp [coded]

theorem codeAt_plain (sound : carry.Sound) {front word back : List Char} (whole : text = front ++ (word ++ back))
    (plain : ∀ c ∈ word, endsCode c = false) (starts : (scanLine carry text).codeAt front.length = true)
    (low : front.length ≤ column) (high : column < front.length + word.length) :
    (scanLine carry text).codeAt column = true := by
  have formed := wellFormed_scanLine sound text
  have char {place : Nat} (inside : place < word.length) : text[front.length + place]? = some word[place] := by
    rw [whole, getElem?_append_within inside]
  induction column, low using Nat.le_induction with
  | base => exact starts
  | succ column low ih =>
    obtain ⟨place, rfl⟩ := Nat.exists_eq_add_of_le low
    have following : place + 1 < word.length := by omega
    obtain ⟨tag, here, code⟩ := formed.exists_cell (char (by omega : place < word.length))
    obtain ⟨other, next, follows⟩ := formed.exists_cell (char following)
    have before := ih (by omega)
    rw [code] at before
    change (scanLine carry text).codeAt (front.length + (place + 1)) = true
    rw [follows]
    by_contra opens
    have marks := (sound.borders text here next).opens before (by simpa using opens)
    rw [plain _ (List.getElem_mem following)] at marks
    contradiction

end Line

end ArturoInsight.Lexical
