import ArturoInsight.Proofs.Cursor.Offered
import ArturoInsight.Proofs.Symbol.Keys

/-! The keys of a dictionary read off a pattern. -/

namespace ArturoInsight

open Text Lexical

/-- A text starts with one name at most, if what comes after the name cannot go on with it. -/
theorem Name.Taken.unique {name word tail other : List Char} (first : Name.Taken tail name)
    (second : Name.Taken other word) (same : name ++ tail = word ++ other) : name = word ∧ tail = other := by
  obtain ⟨c, rest, rfl⟩ := List.exists_cons_of_ne_nil first.ne_nil
  have part : isNamePart c = true := IsPlain.isNamePart_head (first.before (by simp)) c rfl
  obtain ⟨left, before⟩ := (Name.taken_iff part).2 ⟨rfl, first⟩
  obtain ⟨right, after⟩ := (Name.taken_iff part).2 ⟨same, second⟩
  exact ⟨left.symm.trans right, before.symm.trans after⟩

theorem IsSpelling.starts {word : List Char} (spelling : IsSpelling word) : word.head?.any isNameStart = true := by
  have valid := spelling.isName
  cases word with
  | nil => contradiction
  | cons first rest =>
    rw [Name.isName, Bool.and_eq_true] at valid
    exact valid.1

theorem isWord_of_isNameStart {c : Char} (start : isNameStart c = true) : isWord c = true := by
  obtain letter | rfl : isAsciiLetter c = true ∨ c = '_' := by simpa [isNameStart] using start
  · simp [isWord, isLetter, letter]
  · decide

theorem IsSpelling.head_word {word : List Char} (spelling : IsSpelling word) : word.head?.any isWord = true := by
  have starts := spelling.starts
  rw [Option.any_eq_true] at starts ⊢
  obtain ⟨c, head, start⟩ := starts
  exact ⟨c, head, isWord_of_isNameStart start⟩

def Exchanges (old new : List Char) (first second : List (List Char)) : Prop :=
  ∀ name, IsPlain name → name ∈ first → name ∈ second ∨ name = old ∧ new ∈ second

theorem isLabelPart_of_isNamePart {c : Char} (part : isNamePart c = true) : isLabelPart c = true := by
  rw [isLabelPart, Bool.or_eq_true, beq_iff_eq]
  cases word : isWord c with
  | true => exact .inl rfl
  | false => exact .inr (eq_hyphen part word)

theorem exists_label_of_isPlain {name : List Char} (plain : IsPlain name) (starts : name.head?.any isWord = true) :
    ∃ run mark, name = run ++ mark ∧ run.head?.any isWord = true ∧ (∀ c ∈ run, isLabelPart c = true) ∧
      (mark = [] ∨ mark = ['?']) := by
  cases plain with
  | @marked run some_ part =>
    refine ⟨run, ['?'], rfl, ?_, fun c member => isLabelPart_of_isNamePart (part c member), .inr rfl⟩
    rwa [List.head?_append_of_ne_nil run some_] at starts
  | plain some_ part =>
    exact ⟨name, [], (List.append_nil _).symm, starts, fun c member => isLabelPart_of_isNamePart (part c member), .inl rfl⟩

namespace Pattern

theorem endsInWord_fill {pattern : Pattern} (framed : Framed pattern) (closed : pattern.getLast? ≠ some none)
    (first second : List Char) : endsInWord (fill first pattern) = endsInWord (fill second pattern) := by
  induction pattern using List.reverseRecOn with
  | nil => rfl
  | append_singleton pattern item ih =>
    cases item with
    | none => simp at closed
    | some c =>
      have single (word : List Char) : fill word (pattern ++ [some c]) = fill word pattern ++ [c] := by simp
      rw [single, single, endsInWord_concat, endsInWord_concat]
      split_ifs with hyphen
      · refine ih framed.left_of_append fun last => ?_
        obtain ⟨front, rfl⟩ := List.getLast?_eq_some_iff.1 last
        have closing : Closing c := @Framed.closing front [] c (by simpa using framed)
        rw [hyphen] at closing
        exact absurd closing.1 (by decide)
      · rfl

theorem exchanges_dictionaryKeys {old new : List Char} (old_spelling : IsSpelling old) (new_spelling : IsSpelling new)
    {pattern : Pattern} (framed : Framed pattern) :
    Exchanges old new (dictionaryKeys (fill old pattern)) (dictionaryKeys (fill new pattern)) := by
  intro name plain offered
  obtain ⟨run, mark, before, blank, after, same, starts, all, marked, held, whole, ends⟩ := mem_dictionaryKeys.1 offered
  have old_plain := old_spelling.plain
  have solid : isNamePart blank = false := by
    by_contra part
    rw [Name.not_isBlank_of_isNamePart (by simpa using part)] at held
    contradiction
  have gap : ∀ c ∈ [':', blank], isNamePart c = false := by simpa using ⟨by decide, solid⟩
  obtain ⟨front, back, rfl, rfl, text⟩ | ⟨front, back, left, right, rfl, rfl, some_, more, rfl, text⟩ :=
    fill_eq_append whole
  · have closed : front.getLast? ≠ some none := by
      intro last
      obtain ⟨front, rfl⟩ := List.getLast?_eq_some_iff.1 last
      have closes := @Framed.closes front back (by simpa using framed) old
      obtain ⟨c, rest, rfl⟩ := List.exists_cons_of_ne_nil plain.ne_nil
      have part := plain.isNamePart_head c rfl
      rw [(closes c (by rw [text]; rfl)).1] at part
      contradiction
    have free : endsInWord (fill new front) = false := by rwa [← endsInWord_fill framed.left_of_append closed old]
    cases back with
    | nil => simp at text
    | cons item back =>
      cases item with
      | none =>
        obtain ⟨rfl, text⟩ := (plain.before (by simp +decide)).unique (old_plain.before (framed.closes old)) text.symm
        obtain ⟨back, rfl, -⟩ := @exists_of_fill name [':', blank] after back old_plain gap text.symm
        obtain ⟨run, mark, same, starts, all, marked⟩ := exists_label_of_isPlain new_spelling.plain new_spelling.head_word
        exact .inr ⟨rfl, mem_dictionaryKeys.2 ⟨run, mark, fill new front, blank, fill new back, same, starts, all, marked,
          held, by simp, free⟩⟩
      | some c =>
        obtain ⟨rest, shape, text⟩ := exists_of_fill_name framed.right_of_append old_plain plain text
        obtain ⟨back, rfl, -⟩ := @exists_of_fill old [':', blank] after rest old_plain gap text
        refine .inl (mem_dictionaryKeys.2 ⟨run, mark, fill new front, blank, fill new back, same, starts, all, marked,
          held, ?_, free⟩)
        rw [shape]
        simp
  · have parts := old_plain.isNamePart_of_append more
    have first := old_spelling.head_word
    rw [List.head?_append_of_ne_nil left some_, Option.any_eq_true] at first
    obtain ⟨c, head, word⟩ := first
    rw [endsInWord_append (fun d member => isLabelPart_of_isNamePart (parts d member))
      ⟨c, List.mem_of_head? head, word⟩] at ends
    contradiction

end Pattern

end ArturoInsight
