import ArturoInsight.Proofs.Cursor.Keyed

/-! What a line binds, read off a pattern: the name of its label, and the types that it defines. -/

namespace ArturoInsight.Pattern

open Text Lexical

variable {good : List Char → Prop} (spelling : ∀ word, good word → IsSpelling word)

section Names

/-- The readers of names differ in the characters that they let a name start with. -/
structure ReadsNames (start : Char → Bool) (reads : List Char → Option (List Char × List Char)) : Prop where
  parts : ∀ c, start c = true → isNamePart c = true
  starts : ∀ c, isNameStart c = true → start c = true
  nothing : reads [] = none
  equation : ∀ first rest, reads (first :: rest) =
    if start first then
      some (first :: rest.takeWhile isNamePart ++ (question (rest.dropWhile isNamePart)).1,
        (question (rest.dropWhile isNamePart)).2)
    else none

theorem ReadsNames.eq_some {start : Char → Bool} {reads : List Char → Option (List Char × List Char)}
    (names : ReadsNames start reads) {text name tail : List Char} : reads text = some (name, tail) ↔
      text = name ++ tail ∧ Name.Taken tail name ∧ name.head?.any start = true :=
  Name.reads_iff names.parts names.nothing names.equation

theorem readsNames_read? : ReadsNames isNameStart Name.read? :=
  ⟨Name.isNamePart_of_isNameStart, fun _ start => start, rfl, fun _ _ => rfl⟩

theorem readsNames_token? : ReadsNames isAsciiWord Name.token? := by
  refine ⟨Name.isNamePart_of_isAsciiWord, fun c start => ?_, rfl, fun _ _ => rfl⟩
  simp only [isNameStart, isAsciiWord, Bool.or_eq_true] at start ⊢
  tauto

def IsTaken (name : Pattern) : Prop := name = [none] ∨ ∃ text, IsPlain text ∧ name = text.map some

theorem stops_of_parts {run : List Char} (some_ : run ≠ []) (parts : ∀ c ∈ run, isNamePart c = true) {after : Pattern}
    (framed : Framed (run.map some ++ after)) (stops : ∀ c, after.head? = some (some c) → isNamePart c = false) :
    ∀ item ∈ after.head?, ∃ c, item = some c ∧ isNamePart c = false := by
  rintro item head
  cases item with
  | some c => exact ⟨c, rfl, stops c head⟩
  | none =>
    obtain ⟨after, rfl⟩ := List.head?_eq_some_iff.1 head
    obtain ⟨front, last, rfl⟩ := (List.eq_nil_or_concat' run).resolve_left some_
    have opening : Opening last := @Framed.opening (front.map some) after last (by simpa using framed)
    have part := parts last (by simp)
    rw [opening.1] at part
    contradiction

theorem exists_taken {run : List Char} (some_ : run ≠ []) (parts : ∀ c ∈ run, isNamePart c = true) {after : Pattern}
    (framed : Framed (run.map some ++ after)) (stops : ∀ c, after.head? = some (some c) → isNamePart c = false) :
    ∃ name tail, run.map some ++ after = name.map some ++ tail ∧ name.head? = run.head? ∧
      ∀ word, Name.Taken (fill word tail) name := by
  by_cases marked : after.head? = some (some '?')
  · obtain ⟨tail, rfl⟩ := List.head?_eq_some_iff.1 marked
    refine ⟨run ++ ['?'], tail, by simp, ?_, fun _ => .marked some_ parts⟩
    obtain ⟨c, run, rfl⟩ := List.exists_cons_of_ne_nil some_
    rfl
  · have stops := stops_of_parts some_ parts framed stops
    have unmarked : ∀ item ∈ after.head?, ∃ c, item = some c ∧ (c == '?') = false := by
      intro item head
      obtain ⟨c, rfl, -⟩ := stops item head
      refine ⟨c, rfl, ?_⟩
      rw [beq_eq_false_iff_ne]
      rintro rfl
      exact marked head
    refine ⟨run, after, rfl, rfl, fun word => .plain some_ parts fun c head => ⟨stops_fill stops word c head, ?_⟩⟩
    simpa using @stops_fill (· == '?') after unmarked word c head

theorem IsTaken.ne_nil {name : Pattern} (taken : IsTaken name) : name ≠ [] := by
  obtain rfl | ⟨text, plain, rfl⟩ := taken
  · exact List.cons_ne_nil _ _
  · simpa using plain.ne_nil

theorem IsTaken.isNamePart {name back tail : Pattern} {c : Char} (taken : IsTaken name)
    (whole : some c :: back = name ++ tail) : isNamePart c = true := by
  obtain rfl | ⟨text, plain, rfl⟩ := taken
  · simp at whole
  · obtain ⟨d, rest, rfl⟩ := List.exists_cons_of_ne_nil plain.ne_nil
    obtain rfl : c = d := by simpa using (List.cons.inj whole).1
    exact plain.isNamePart_head c rfl

theorem IsTaken.spelled {name : Pattern} (taken : IsTaken name) : Spelled good (fill · name) := by
  obtain rfl | ⟨text, -, rfl⟩ := taken
  · exact .inr (.inl fun word _ => by simp)
  · exact .inl ⟨text, fun word _ => fill_map_some text⟩

include spelling in
theorem reads_fill {start : Char → Bool} {reads : List Char → Option (List Char × List Char)}
    (names : ReadsNames start reads) {item : Option Char} {back : Pattern} (framed : Framed (item :: back)) :
    ∃ found : Option (Pattern × Pattern),
      (∀ pair ∈ found, item :: back = pair.1 ++ pair.2 ∧ IsTaken pair.1) ∧ (item = none → found.isSome) ∧
      ∀ word, good word → reads (fill word (item :: back)) = found.map (both word) := by
  cases item with
  | none =>
    refine ⟨some ([none], back), by simp [IsTaken], fun _ => rfl, fun word fine => ?_⟩
    have name := spelling word fine
    refine names.eq_some.2 ⟨by simp, ?_, ?_⟩
    · simpa using name.plain.before (@Framed.closes [] _ framed word)
    · have starts := name.starts
      rw [Option.any_eq_true] at starts
      obtain ⟨c, head, start⟩ := starts
      simpa [head] using names.starts c start
  | some c =>
    cases starts : start c with
    | false =>
      refine ⟨none, by simp, by simp, fun word _ => ?_⟩
      rw [fill_some, names.equation, starts]
      rfl
    | true =>
      obtain ⟨run, after, rfl, all, stops, -⟩ := exists_run isNamePart back
      have parts : ∀ d ∈ c :: run, isNamePart d = true := List.forall_mem_cons.2 ⟨names.parts c starts, all⟩
      obtain ⟨name, tail, whole, head, taken⟩ := exists_taken (List.cons_ne_nil c run) parts framed stops
      have shape : some c :: (run.map some ++ after) = name.map some ++ tail := by simpa using whole
      refine ⟨some (name.map some, tail), ?_, by simp, fun word _ => ?_⟩
      · rintro _ ⟨⟩
        exact ⟨shape, .inr ⟨name, (taken []).before (by simp), rfl⟩⟩
      · rw [shape, fill_append]
        refine names.eq_some.2 ⟨rfl, ?_, ?_⟩
        · rw [fill_map_some]
          exact taken word
        · simpa [head] using starts

end Names

section Labels

theorem head?_solids_fill {shown : Option Char → Bool}
    (same : ∀ c d, isNamePart c = true → isNamePart d = true → shown (some c) = shown (some d)) (pattern : Pattern) :
    ∃ first, ∀ word, IsPlain word → shown (solids (fill word pattern)).head? = first := by
  induction pattern with
  | nil => exact ⟨shown none, fun _ _ => rfl⟩
  | cons item pattern ih =>
    obtain ⟨first, reads⟩ := ih
    cases item with
    | none =>
      refine ⟨shown (some '_'), fun word plain => ?_⟩
      obtain ⟨c, rest, rfl⟩ := List.exists_cons_of_ne_nil plain.ne_nil
      rw [fill_none, List.cons_append, solids_cons, plain.solid List.mem_cons_self]
      exact same c '_' (plain.isNamePart_head c rfl) (by decide)
    | some c =>
      cases blank : isBlank c with
      | true => exact ⟨first, fun word plain => by rw [fill_some, solids_cons, blank, if_pos rfl, reads word plain]⟩
      | false => exact ⟨shown (some c), fun word _ => by rw [fill_some, solids_cons, blank]; rfl⟩

theorem isEmpty_trim_fill (pattern : Pattern) :
    ∃ empty, ∀ word, IsPlain word → (trim (fill word pattern)).isEmpty = empty := by
  obtain ⟨empty, reads⟩ := @head?_solids_fill Option.isNone (fun _ _ _ _ => rfl) pattern
  refine ⟨empty, fun word plain => ?_⟩
  rw [← reads word plain, ← head?_trim]
  cases trim (fill word pattern) <;> rfl

def Tagged (good : List Char → Prop) (scan : List Char → Scan) (pattern : Pattern) : Prop :=
  ∀ front item back, pattern = front ++ item :: back →
    ∃ tag, ∀ word, good word → (scan word).tagAt (fill word front).length = tag

def IsTypeWord (word : List Char) : Prop := word.head?.any isLetter = true ∧ ∀ c ∈ word, isWord c = true

def Typed (good : List Char → Prop) (pattern : Pattern) : Prop :=
  ∀ front blank back, isBlank blank = true → pattern = front ++ some blank :: some ':' :: none :: back →
    ∀ word, good word → IsTypeWord word

variable {pattern : Pattern} (framed : Framed pattern) {scan : List Char → Scan} (tagged : Tagged good scan pattern)
  (typed : Typed good pattern)

include tagged in
theorem Tagged.codeAt {front back : Pattern} {item : Option Char} (whole : pattern = front ++ item :: back) :
    ∃ code, ∀ word, good word → (scan word).codeAt (fill word front).length = code := by
  obtain ⟨tag, same⟩ := tagged front item back whole
  exact ⟨tag.isCode, fun word fine => congrArg Tag.isCode (same word fine)⟩

def labelled? (scan : Scan) (column : Nat) (name blanks after : List Char) : Option Binding :=
  if scan.codeAt column && scan.codeAt (column + name.length + blanks.length) && !Binding.annotates blanks after &&
      !(trim after).isEmpty then
    some ⟨name, column, trim after⟩
  else none

theorem at?_bind (scan : Scan) (column : Nat) (before : Option Char) (text : List Char) :
    Binding.at? scan column before text = if before.any isNamePart then none else
      (Name.read? text).bind fun found => (after? [':'] (found.2.dropWhile isAsciiBlank)).bind fun after =>
        labelled? scan column found.1 (found.2.takeWhile isAsciiBlank) after := rfl

include typed in
theorem annotates_fill {front value : Pattern} {gap : List Char} (blanks : ∀ c ∈ gap, isAsciiBlank c = true)
    (whole : pattern = front ++ (gap.map some ++ some ':' :: value)) :
    ∃ annotates, ∀ word, good word → Binding.annotates gap (fill word value) = annotates := by
  unfold Binding.annotates
  obtain rfl | ⟨front_gap, blank, rfl⟩ := List.eq_nil_or_concat' gap
  · exact ⟨false, fun word _ => rfl⟩
  · cases value with
    | nil => exact ⟨false, by simp⟩
    | cons item value =>
      cases item with
      | some c => exact ⟨isLetter c, by simp⟩
      | none =>
        have typed := typed (front ++ front_gap.map some) blank value (isBlank_of_isAsciiBlank (blanks blank (by simp)))
          (by rw [whole]; simp)
        refine ⟨true, fun word fine => ?_⟩
        have letter := (typed word fine).1
        rw [Option.any_eq_true] at letter
        obtain ⟨c, head, letter⟩ := letter
        simp [head, letter]

theorem edge_fill {front back : Pattern} {item : Option Char} (framed : Framed (front ++ item :: back))
    (part : ∀ c, item = some c → isNamePart c = true) :
    ∃ before, (item = none → before.any isNamePart = false) ∧ ∀ word, (fill word front).getLast? = before := by
  obtain rfl | ⟨front, last, rfl⟩ := List.eq_nil_or_concat' front
  · exact ⟨none, fun _ => rfl, fun _ => rfl⟩
  · cases last with
    | some d =>
      refine ⟨some d, fun place => ?_, by simp⟩
      subst place
      exact (@Framed.opening front back d (by simpa using framed)).1
    | none =>
      have framed : Framed (front ++ none :: item :: back) := by simpa using framed
      cases item with
      | none => exact absurd (List.isChain_cons_cons.1 framed.right_of_append).1 id
      | some c =>
        have closing := framed.closing
        rw [Closing, part c rfl] at closing
        simp at closing

include spelling framed tagged typed in
theorem at?_fill {front back : Pattern} {item : Option Char} (whole : pattern = front ++ item :: back) :
    (∀ word, good word → Binding.at? (scan word) (fill word front).length (fill word front).getLast?
      (fill word (item :: back)) = none) ∨
    ∃ value : List Char → Binding, Spelled good (fun word => (value word).name) ∧ ∀ word, good word →
      Binding.at? (scan word) (fill word front).length (fill word front).getLast? (fill word (item :: back)) =
        some (value word) := by
  obtain ⟨found, shapes, -, reads⟩ := reads_fill spelling readsNames_read? (whole ▸ framed).right_of_append
  cases found with
  | none =>
    refine .inl fun word fine => ?_
    rw [at?_bind, reads word fine]
    exact ite_self _
  | some pair =>
    obtain ⟨name, tail⟩ := pair
    obtain ⟨shape, taken⟩ := shapes _ rfl
    obtain ⟨gap, after, rfl, blanks, -, splits⟩ := exists_run isAsciiBlank tail
    obtain ⟨rest, inside, colon⟩ := after?_fill (show isNamePart ':' = false by decide) after
    have goes (word : List Char) (fine : good word) : Binding.at? (scan word) (fill word front).length
        (fill word front).getLast? (fill word (item :: back)) =
          if (fill word front).getLast?.any isNamePart then none else (rest.map (fill word)).bind fun after =>
            labelled? (scan word) (fill word front).length (fill word name) gap after := by
      have plain := (spelling word fine).plain
      obtain ⟨takes, drops⟩ := splits word plain.ne_nil fun c head => by
        have solid := Name.not_isBlank_of_isNamePart (plain.isNamePart_head c head)
        cases ascii : isAsciiBlank c with
        | false => rfl
        | true => rw [isBlank_of_isAsciiBlank ascii] at solid; contradiction
      rw [at?_bind, reads word fine, Option.map_some, Option.bind_some, both, takes, drops, colon word plain]
    cases rest with
    | none => exact .inl fun word fine => (goes word fine).trans (ite_self _)
    | some value =>
      obtain rfl := inside value rfl
      obtain ⟨before, -, edge⟩ := edge_fill (whole ▸ framed) fun c same => taken.isNamePart (same ▸ shape)
      have shape : pattern = front ++ (name ++ (gap.map some ++ some ':' :: value)) := by rw [whole, shape]
      obtain ⟨first, firsts⟩ := tagged.codeAt whole
      obtain ⟨second, seconds⟩ := @Tagged.codeAt good pattern scan tagged (front ++ (name ++ gap.map some)) value (some ':')
        (by simp [shape])
      obtain ⟨annotated, annotates⟩ := annotates_fill typed blanks
        (show pattern = (front ++ name) ++ (gap.map some ++ some ':' :: value) by simp [shape])
      obtain ⟨empty, trims⟩ := isEmpty_trim_fill value
      have goes (word : List Char) (fine : good word) : Binding.at? (scan word) (fill word front).length
          (fill word front).getLast? (fill word (item :: back)) =
            if before.any isNamePart then none else if first && second && !annotated && !empty then
              some ⟨fill word name, (fill word front).length, trim (fill word value)⟩ else none := by
        have seconds := seconds word fine
        rw [fill_append, fill_append, fill_map_some, List.length_append, List.length_append, ← Nat.add_assoc] at seconds
        rw [goes word fine, edge word, Option.map_some, Option.bind_some, labelled?, firsts word fine, seconds,
          annotates word fine, trims word (spelling word fine).plain]
      split_ifs at goes
      · exact .inl goes
      · exact .inr ⟨_, taken.spelled, goes⟩
      · exact .inl goes

include spelling framed tagged typed in
theorem offers_label : Offers good fun word =>
    ((Binding.ofLine? (scan word) (fill word pattern)).map (·.name)).toList := by
  have some_ (word : List Char) (fine : good word) : word ≠ [] := (spelling word fine).plain.ne_nil
  obtain nothing | ⟨place, value, spelled, reads⟩ := @exists_firstPlace Binding (fun word => Binding.at? (scan word)) good
    pattern (fun _ value => Spelled good fun word => (value word).name) some_ fun front item back whole => by
      refine (at?_fill spelling framed tagged typed whole).imp_left fun fails word fine first rest split items => ?_
      by_cases start : first = []
      · subst start
        have same : rest ++ fill word back = fill word (item :: back) := by
          rw [show item :: back = [item] ++ back from rfl, fill_append, split, List.nil_append]
        rw [same, List.append_nil]
        exact fails word fine
      · cases item with
        | some c =>
          obtain ⟨rfl, rfl⟩ | ⟨rfl, rfl⟩ := List.append_eq_singleton_iff.1 split.symm
          · exact absurd rfl start
          · exact absurd rfl items
        | none =>
          obtain rfl : word = first ++ rest := by simpa using split
          obtain ⟨front_first, last, rfl⟩ := (List.eq_nil_or_concat' first).resolve_left start
          have part := (spelling _ fine).plain.isNamePart_of_append items last (by simp)
          rw [at?_bind, ← List.append_assoc, List.getLast?_concat, Option.any_some, part, if_pos rfl]
  · refine ⟨[], by simp, fun word fine name _ => ?_⟩
    have none : Binding.ofLine? (scan word) (fill word pattern) = none := nothing word fine
    simp [none]
  · refine ⟨[fun word => (value word).name], by simpa using spelled, fun word fine name _ => ?_⟩
    have same : Binding.ofLine? (scan word) (fill word pattern) = some (value word) := reads word fine
    simp [same, eq_comm]

include spelling framed tagged typed in
theorem offers_definedTypes : Offers good fun word => definedTypes (scan word) (fill word pattern) := by
  classical
  obtain ⟨found, inside, reads⟩ := exists_finds (fun word fine => (spelling word fine).plain.ne_nil) led_definition.nil
    (steady_definition spelling framed fun front blank back held whole word fine =>
      (typed front blank back held whole word fine).2)
  refine ⟨(found.filter fun entry => ∃ word, good word ∧ (scan word).codeAt (fill word entry.1).length = true).map (·.2),
    ?_, fun word fine name _ => ?_⟩
  · simp only [List.mem_map, List.mem_filter]
    rintro _ ⟨entry, ⟨member, -⟩, rfl⟩
    exact (inside entry member).2
  · have types : definedTypes (scan word) (fill word pattern) =
        (((finds definition (fill word pattern)).map fun found => (found.start, found.value)).filter fun entry =>
          (scan word).codeAt entry.1).map (·.2) := by
      rw [definedTypes, List.filter_map, List.map_map]
      rfl
    have code {entry : Pattern × (List Char → List Char)} (member : entry ∈ found) :
        (∃ word, good word ∧ (scan word).codeAt (fill word entry.1).length = true) ↔
          (scan word).codeAt (fill word entry.1).length = true := by
      obtain ⟨⟨c, back, whole⟩, -⟩ := inside entry member
      obtain ⟨code, same⟩ := tagged.codeAt whole
      refine ⟨?_, fun here => ⟨word, fine, here⟩⟩
      rintro ⟨other, other_fine, here⟩
      rw [same word fine, ← same other other_fine, here]
    beta_reduce
    rw [types, reads word fine]
    simp only [List.filter_map, List.map_map, List.mem_map, List.mem_filter, decide_eq_true_eq]
    constructor
    · rintro ⟨entry, ⟨member, here⟩, rfl⟩
      exact ⟨entry.2, ⟨entry, ⟨member, (code member).2 here⟩, rfl⟩, rfl⟩
    · rintro ⟨_, ⟨entry, ⟨member, here⟩, rfl⟩, rfl⟩
      exact ⟨entry, ⟨member, (code member).1 here⟩, rfl⟩

end Labels

end ArturoInsight.Pattern
