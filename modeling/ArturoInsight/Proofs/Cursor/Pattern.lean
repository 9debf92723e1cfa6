import ArturoInsight.Proofs.Cursor.Use

/-! Texts with places left open for a word. A reader that treats one word in them as it treats another reads
the same off the text whichever of the two is filled in. -/

namespace ArturoInsight

open Text Lexical

abbrev Pattern := List (Option Char)

/-- What may stand before an open place, and after it: other words and quotes may not. -/
def Opening (c : Char) : Prop := isNamePart c = false ∧ c ≠ '\x27' ∧ c ≠ '\x60'

def Closing (c : Char) : Prop := isNamePart c = false ∧ c ≠ '?'

def Joins : Option Char → Option Char → Prop
  | some _, some _ => True
  | some c, none => Opening c
  | none, some c => Closing c
  | none, none => False

namespace Pattern

def fill (word : List Char) (pattern : Pattern) : List Char :=
  pattern.flatMap fun item => item.elim word fun c => [c]

abbrev Framed (pattern : Pattern) : Prop := pattern.IsChain Joins

section Filling

variable {word : List Char}

@[simp] theorem fill_nil : fill word [] = [] := rfl

@[simp] theorem fill_some (c : Char) (pattern : Pattern) :
    fill word (some c :: pattern) = c :: fill word pattern := rfl

@[simp] theorem fill_none (pattern : Pattern) : fill word (none :: pattern) = word ++ fill word pattern := rfl

@[simp] theorem fill_append (first second : Pattern) :
    fill word (first ++ second) = fill word first ++ fill word second := List.flatMap_append

@[simp] theorem fill_map_some (text : List Char) : fill word (text.map some) = text := by
  induction text with
  | nil => rfl
  | cons c text ih => rw [List.map_cons, fill_some, ih]

theorem eq_map_some {pattern : Pattern} (whole : none ∉ pattern) : ∃ text : List Char, pattern = text.map some := by
  induction pattern with
  | nil => exact ⟨[], rfl⟩
  | cons item pattern ih =>
    obtain ⟨text, rfl⟩ := ih fun member => whole (List.mem_cons_of_mem _ member)
    cases item with
    | none => exact absurd List.mem_cons_self whole
    | some c => exact ⟨c :: text, rfl⟩

theorem fill_ne_nil (some_ : word ≠ []) {pattern : Pattern} (items : pattern ≠ []) : fill word pattern ≠ [] := by
  obtain ⟨item, rest, rfl⟩ := List.exists_cons_of_ne_nil items
  cases item <;> simp [some_]

theorem forall_fill {holds : Char → Prop} {pattern : Pattern} (chars : ∀ c, some c ∈ pattern → holds c)
    (inside : none ∈ pattern → ∀ c ∈ word, holds c) : ∀ c ∈ fill word pattern, holds c := by
  induction pattern with
  | nil => exact List.forall_mem_nil _
  | cons item rest ih =>
    have later := ih (fun c member => chars c (List.mem_cons_of_mem _ member)) fun member =>
      inside (List.mem_cons_of_mem _ member)
    cases item with
    | some c => exact List.forall_mem_cons.2 ⟨chars c List.mem_cons_self, later⟩
    | none => exact List.forall_mem_append.2 ⟨inside List.mem_cons_self, later⟩

theorem head?_fill {holds : Char → Prop} {pattern : Pattern} (some_ : word ≠ [])
    (chars : ∀ c, pattern.head? = some (some c) → holds c) (inside : ∀ c ∈ word.head?, holds c) :
    ∀ c ∈ (fill word pattern).head?, holds c := by
  cases pattern with
  | nil => simp
  | cons item rest =>
    cases item with
    | some c => simpa using chars c rfl
    | none => rwa [fill_none, List.head?_append_of_ne_nil word some_]

theorem fill_eq_append {word first second : List Char} {pattern : Pattern} (whole : fill word pattern = first ++ second) :
    (∃ front back, pattern = front ++ back ∧ fill word front = first ∧ fill word back = second) ∨
    ∃ front back left right, pattern = front ++ none :: back ∧ word = left ++ right ∧ left ≠ [] ∧ right ≠ [] ∧
      first = fill word front ++ left ∧ second = right ++ fill word back := by
  induction pattern generalizing first with
  | nil =>
    obtain ⟨rfl, rfl⟩ := List.append_eq_nil_iff.1 whole.symm
    exact .inl ⟨[], [], rfl, rfl, rfl⟩
  | cons item pattern ih =>
    rw [show item :: pattern = [item] ++ pattern from rfl, fill_append] at whole
    have deeper {rest : List Char} (same : first = fill word [item] ++ rest) (later : fill word pattern = rest ++ second) :
        (∃ front back, item :: pattern = front ++ back ∧ fill word front = first ∧ fill word back = second) ∨
        ∃ front back left right, item :: pattern = front ++ none :: back ∧ word = left ++ right ∧ left ≠ [] ∧
          right ≠ [] ∧ first = fill word front ++ left ∧ second = right ++ fill word back := by
      obtain ⟨front, back, rfl, rfl, rfl⟩ | ⟨front, back, left, right, rfl, rfl, some_, more, rfl, rfl⟩ := ih later
      · refine .inl ⟨item :: front, back, rfl, ?_, rfl⟩
        rw [same, ← fill_append]
        rfl
      · refine .inr ⟨item :: front, back, left, right, rfl, rfl, some_, more, ?_, rfl⟩
        rw [same, ← List.append_assoc, ← fill_append]
        rfl
    obtain ⟨rest, same, later⟩ | ⟨rest, same, later⟩ := List.append_eq_append_iff.1 whole
    · exact deeper same later
    · by_cases none : rest = []
      · subst none
        exact @deeper [] (by simpa using same.symm) (by simpa using later.symm)
      · cases item with
        | some c =>
          have single : [c] = first ++ rest := same
          obtain ⟨rfl, rfl⟩ : first = [] ∧ rest = [c] := by
            obtain ⟨rfl, rfl⟩ | ⟨rfl, rfl⟩ := List.append_eq_singleton_iff.1 single.symm
            · exact ⟨rfl, rfl⟩
            · exact absurd rfl none
          exact .inl ⟨[], some c :: pattern, rfl, rfl, later.symm⟩
        | none =>
          have split : word = first ++ rest := by simpa using same
          by_cases start : first = []
          · subst start
            exact .inl ⟨[], Option.none :: pattern, rfl, rfl, by rw [fill_none, later, split, List.nil_append]⟩
          · exact .inr ⟨[], pattern, first, rest, rfl, split, start, none, rfl, later⟩

theorem eq_of_length_fill (some_ : word ≠ []) {front back other rest : Pattern} {item next : Option Char}
    (same : front ++ item :: back = other ++ next :: rest) (place : (fill word front).length = (fill word other).length) :
    item = next := by
  have nothing {more : Pattern} {count : Nat} (same : count + (fill word more).length = count) : more = [] := by
    by_contra items
    have pos := List.length_pos_iff.2 (fill_ne_nil some_ items)
    omega
  obtain ⟨more, rfl, later⟩ | ⟨more, rfl, later⟩ := List.append_eq_append_iff.1 same
  · rw [fill_append, List.length_append] at place
    obtain rfl := nothing place.symm
    exact (List.cons.inj later).1
  · rw [fill_append, List.length_append] at place
    obtain rfl := nothing place
    exact (List.cons.inj later).1.symm

end Filling

section Frames

variable {front back : Pattern}

theorem Framed.opening {c : Char} (framed : Framed (front ++ some c :: none :: back)) : Opening c :=
  (List.isChain_cons_cons.1 framed.right_of_append).1

theorem Framed.closing {c : Char} (framed : Framed (front ++ none :: some c :: back)) : Closing c :=
  (List.isChain_cons_cons.1 framed.right_of_append).1

theorem Framed.within {part whole : Pattern} (framed : Framed whole) (inside : part <:+: whole) : Framed part := by
  obtain ⟨before, after, rfl⟩ := inside
  exact framed.left_of_append.right_of_append

theorem Framed.closes (framed : Framed (front ++ none :: back)) (word : List Char) :
    ∀ c ∈ (fill word back).head?, Closing c := by
  cases back with
  | nil => simp
  | cons item back =>
    cases item with
    | some c => simpa using framed.closing
    | none => exact absurd (List.isChain_cons_cons.1 framed.right_of_append).1 id

end Frames

section Runs

/-- A run of characters of a class that no word starts with. -/
theorem exists_run (holds : Char → Bool) (pattern : Pattern) :
    ∃ (run : List Char) (after : Pattern), pattern = run.map some ++ after ∧
    (∀ c ∈ run, holds c = true) ∧ (∀ c, after.head? = some (some c) → holds c = false) ∧
    ∀ word, word ≠ [] → (∀ c ∈ word.head?, holds c = false) →
      (fill word pattern).takeWhile holds = run ∧ (fill word pattern).dropWhile holds = fill word after := by
  have split : ∃ (run : List Char) (after : Pattern), pattern = run.map some ++ after ∧ (∀ c ∈ run, holds c = true) ∧
      ∀ c, after.head? = some (some c) → holds c = false := by
    induction pattern with
    | nil => exact ⟨[], [], rfl, by simp, by simp⟩
    | cons item rest ih =>
      cases item with
      | none => exact ⟨[], none :: rest, rfl, by simp, by simp⟩
      | some c =>
        cases held : holds c with
        | false => exact ⟨[], some c :: rest, rfl, by simp, by simpa using held⟩
        | true =>
          obtain ⟨run, after, rfl, all, stops⟩ := ih
          exact ⟨c :: run, after, rfl, List.forall_mem_cons.2 ⟨held, all⟩, stops⟩
  obtain ⟨run, after, rfl, all, stops⟩ := split
  refine ⟨run, after, rfl, all, stops, fun word some_ other => ?_⟩
  have ends := head?_fill some_ stops other
  rw [fill_append, fill_map_some]
  exact ⟨takeWhile_run all ends, dropWhile_run all ends⟩

theorem exists_items (holds : Char → Bool) (pattern : Pattern) : ∃ run after : Pattern, pattern = run ++ after ∧
    (∀ c, some c ∈ run → holds c = true) ∧ ∀ item ∈ after.head?, ∃ c, item = some c ∧ holds c = false := by
  induction pattern with
  | nil => exact ⟨[], [], rfl, by simp, by simp⟩
  | cons item rest ih =>
    obtain ⟨run, after, rfl, all, stops⟩ := ih
    cases item with
    | none => exact ⟨none :: run, after, rfl, by simpa using all, stops⟩
    | some c =>
      cases held : holds c with
      | false => exact ⟨[], some c :: (run ++ after), rfl, by simp, by simp [held]⟩
      | true => exact ⟨some c :: run, after, rfl, by simp +contextual [held, all, or_imp], stops⟩

theorem stops_fill {holds : Char → Bool} {after : Pattern}
    (stops : ∀ item ∈ after.head?, ∃ c, item = some c ∧ holds c = false) (word : List Char) :
    ∀ c ∈ (fill word after).head?, holds c = false := by
  cases after with
  | nil => simp
  | cons item after =>
    obtain ⟨c, rfl, other⟩ := stops item rfl
    simpa using other

theorem exists_span (holds : Char → Bool) (pattern : Pattern) : ∃ run after : Pattern, pattern = run ++ after ∧
    (∀ item ∈ after.head?, ∃ c, item = some c ∧ holds c = false) ∧
    ∀ word, (∀ c ∈ word, holds c = true) →
      (fill word pattern).takeWhile holds = fill word run ∧ (fill word pattern).dropWhile holds = fill word after := by
  obtain ⟨run, after, rfl, all, stops⟩ := exists_items holds pattern
  refine ⟨run, after, rfl, stops, fun word inside => ?_⟩
  have whole := forall_fill all fun _ => inside
  rw [fill_append]
  exact ⟨takeWhile_run whole (stops_fill stops word), dropWhile_run whole (stops_fill stops word)⟩

end Runs

section Marks

theorem prefix_of_fill {word text tail : List Char} {c : Char} {pattern : Pattern}
    (framed : Framed (some c :: pattern)) (part : isNamePart c = true) (parts : ∀ d ∈ text, isNamePart d = true)
    (whole : fill word pattern = text ++ tail) : text.map some <+: pattern := by
  induction text generalizing c pattern with
  | nil => exact List.nil_prefix
  | cons d text ih =>
    cases pattern with
    | nil => simp at whole
    | cons item pattern =>
      cases item with
      | none =>
        have opens := (List.isChain_cons_cons.1 framed).1.1
        rw [opens] at part
        contradiction
      | some e =>
        obtain ⟨rfl, further⟩ := List.cons.inj whole
        obtain ⟨here, later⟩ := List.forall_mem_cons.1 parts
        rw [List.map_cons, List.cons_prefix_cons]
        exact ⟨rfl, ih framed.tail here later further⟩

theorem after?_fill_word {mark : List Char} (some_ : mark ≠ []) (parts : ∀ d ∈ mark, isNamePart d = true)
    {c : Char} {pattern : Pattern} (framed : Framed (some c :: pattern)) : ∃ rest : Option Pattern,
    (∀ after ∈ rest, some c :: pattern = mark.map some ++ after) ∧
      ∀ word, after? mark (fill word (some c :: pattern)) = rest.map (fill word) := by
  by_cases starts : mark.map some <+: some c :: pattern
  · obtain ⟨after, whole⟩ := starts
    refine ⟨some after, by simp [whole], fun word => ?_⟩
    rw [← whole, fill_append, fill_map_some]
    exact after?_eq_some.2 rfl
  · refine ⟨none, by simp, fun word => Option.eq_none_iff_forall_ne_some.2 fun tail found => starts ?_⟩
    obtain ⟨d, mark, rfl⟩ := List.exists_cons_of_ne_nil some_
    obtain ⟨rfl, whole⟩ := List.cons.inj (after?_eq_some.1 found)
    obtain ⟨part, parts⟩ := List.forall_mem_cons.1 parts
    rw [List.map_cons, List.cons_prefix_cons]
    exact ⟨rfl, prefix_of_fill framed part parts whole⟩

theorem after?_fill {c : Char} (other : isNamePart c = false) (pattern : Pattern) : ∃ rest : Option Pattern,
    (∀ after ∈ rest, pattern = some c :: after) ∧
      ∀ word, IsPlain word → after? [c] (fill word pattern) = rest.map (fill word) := by
  by_cases starts : pattern.head? = some (some c)
  · obtain ⟨after, rfl⟩ := List.head?_eq_some_iff.1 starts
    exact ⟨some after, by simp, fun word _ => after?_eq_some.2 rfl⟩
  · refine ⟨none, by simp, fun word plain => Option.eq_none_iff_forall_ne_some.2 fun tail found => ?_⟩
    have first : ∀ d ∈ (fill word pattern).head?, d ≠ c := by
      refine head?_fill plain.ne_nil (fun d head same => starts (same ▸ head)) ?_
      rintro d head rfl
      rw [plain.isNamePart_head d head] at other
      contradiction
    exact first c (by rw [after?_eq_some.1 found]; rfl) rfl

theorem exists_of_fill {word text tail : List Char} {pattern : Pattern} (plain : IsPlain word)
    (other : ∀ c ∈ text, isNamePart c = false) (whole : fill word pattern = text ++ tail) :
    ∃ after, pattern = text.map some ++ after ∧ fill word after = tail := by
  induction text generalizing pattern with
  | nil => exact ⟨pattern, rfl, whole⟩
  | cons c text ih =>
    obtain ⟨here, later⟩ := List.forall_mem_cons.1 other
    obtain ⟨rest, inside, reads⟩ := after?_fill here pattern
    have found := reads word plain
    rw [whole, List.cons_append, @after?_eq_some [c] (c :: (text ++ tail)) (text ++ tail) |>.2 rfl] at found
    obtain ⟨after, rfl, same⟩ := Option.map_eq_some_iff.1 found.symm
    obtain ⟨after, rfl, ends⟩ := ih later same
    exact ⟨after, inside _ rfl, ends⟩

theorem exists_of_fill_name {word name tail : List Char} {c : Char} {pattern : Pattern}
    (framed : Framed (some c :: pattern)) (plain : IsPlain word) (name_plain : IsPlain name)
    (whole : fill word (some c :: pattern) = name ++ tail) :
    ∃ after, some c :: pattern = name.map some ++ after ∧ fill word after = tail := by
  have starts {run mark : List Char} (some_ : run ≠ []) (part : ∀ d ∈ run, isNamePart d = true)
      (whole : fill word (some c :: pattern) = run ++ mark) :
      ∃ after, some c :: pattern = run.map some ++ after ∧ fill word after = mark := by
    obtain ⟨d, run, rfl⟩ := List.exists_cons_of_ne_nil some_
    obtain ⟨rfl, further⟩ := List.cons.inj whole
    obtain ⟨here, later⟩ := List.forall_mem_cons.1 part
    obtain ⟨after, rfl⟩ := prefix_of_fill framed here later further
    rw [← List.cons_append, ← List.map_cons, fill_append, fill_map_some] at whole
    exact ⟨after, rfl, List.append_cancel_left whole⟩
  cases name_plain with
  | plain some_ part => exact starts some_ part whole
  | @marked run some_ part =>
    rw [List.append_assoc] at whole
    obtain ⟨after, shape, whole⟩ := starts some_ part whole
    obtain ⟨after, rfl, ends⟩ := exists_of_fill plain (by simp +decide) whole
    exact ⟨after, by rw [shape]; simp, ends⟩

end Marks

def both (word : List Char) (pair : Pattern × Pattern) : List Char × List Char :=
  (fill word pair.1, fill word pair.2)

section Blocks

theorem upTo?_fill (mark : Char) (pattern : Pattern) : ∃ pair : Option (Pattern × Pattern),
    (∀ found ∈ pair, pattern = found.1 ++ some mark :: found.2) ∧
      ∀ word, mark ∉ word → upTo? mark (fill word pattern) = pair.map (both word) := by
  obtain ⟨run, after, rfl, stops, reads⟩ := exists_span (· != mark) pattern
  have reads (word : List Char) (outside : mark ∉ word) := reads word fun c member => by
    have differs : c ≠ mark := fun same => outside (same ▸ member)
    simpa using differs
  cases after with
  | nil =>
    refine ⟨none, by simp, fun word outside => ?_⟩
    rw [upTo?, (reads word outside).2]
    rfl
  | cons item after =>
    obtain ⟨c, rfl, other⟩ := stops item rfl
    obtain rfl : c = mark := by simpa using other
    refine ⟨some (run, after), by simp, fun word outside => ?_⟩
    rw [upTo?, (reads word outside).1, (reads word outside).2]
    rfl

end Blocks

section Words

theorem pieces_append {cut : Char → Bool} {word : List Char} (whole : ∀ c ∈ word, cut c = false)
    {text first : List Char} {more : List (List Char)} (split : pieces cut text = first :: more) :
    pieces cut (word ++ text) = (word ++ first) :: more := by
  induction word with
  | nil => exact split
  | cons c word ih =>
    obtain ⟨here, later⟩ := List.forall_mem_cons.1 whole
    exact pieces_cons_of_not_cut here (ih later)

theorem pieces_fill (cut : Char → Bool) (pattern : Pattern) : ∃ (first : Pattern) (more : List Pattern),
    (first <+: pattern ∧ ∀ piece ∈ more, piece <:+: pattern) ∧
      ∀ word, (∀ c ∈ word, cut c = false) →
        pieces cut (fill word pattern) = fill word first :: more.map (fill word) := by
  induction pattern with
  | nil => exact ⟨[], [], by simp, fun word _ => rfl⟩
  | cons item rest ih =>
    obtain ⟨first, more, ⟨starts, inside⟩, reads⟩ := ih
    have further (piece : Pattern) (member : piece ∈ more) : piece <:+: item :: rest :=
      (inside piece member).trans (List.infix_cons List.infix_rfl)
    cases item with
    | none =>
      refine ⟨none :: first, more, ⟨List.cons_prefix_cons.2 ⟨rfl, starts⟩, further⟩, fun word whole => ?_⟩
      exact pieces_append whole (reads word whole)
    | some c =>
      cases cuts : cut c with
      | true =>
        refine ⟨[], first :: more, ⟨List.nil_prefix, List.forall_mem_cons.2 ⟨?_, further⟩⟩, fun word whole => ?_⟩
        · exact starts.isInfix.trans (List.infix_cons List.infix_rfl)
        · rw [fill_some, pieces_cons_of_cut cuts, reads word whole]
          rfl
      | false =>
        refine ⟨some c :: first, more, ⟨List.cons_prefix_cons.2 ⟨rfl, starts⟩, further⟩, fun word whole => ?_⟩
        exact pieces_cons_of_not_cut cuts (reads word whole)

theorem words_fill (pattern : Pattern) : ∃ found : List Pattern, (∀ piece ∈ found, piece <:+: pattern) ∧
    ∀ word, IsPlain word → words (fill word pattern) = found.map (fill word) := by
  obtain ⟨first, more, ⟨starts, inside⟩, reads⟩ := pieces_fill isBlank pattern
  refine ⟨(first :: more).filter (!·.isEmpty), fun piece member => ?_, fun word plain => ?_⟩
  · obtain rfl | later := List.mem_cons.1 (List.mem_of_mem_filter member)
    · exact starts.isInfix
    · exact inside piece later
  · rw [words, reads word fun c member => plain.solid member, ← List.map_cons, List.filter_map]
    congr 1
    refine List.filter_congr fun piece _ => ?_
    cases piece with
    | nil => rfl
    | cons item rest =>
      have some_ : fill word (item :: rest) ≠ [] := fill_ne_nil plain.ne_nil (by simp)
      simpa using some_

end Words

end Pattern

end ArturoInsight
