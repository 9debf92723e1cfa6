import ArturoInsight.Proofs.Cursor.Rename
import ArturoInsight.Proofs.Cursor.Steady
import ArturoInsight.Proofs.Text.Classes
import ArturoInsight.Symbol.Quasi

/-! The readers that a keyword leads, on patterns. They take a name as a whole, whichever it is, as long as
no keyword ends it. -/

namespace ArturoInsight

open Text Lexical

def keywords : List (List Char) := ["function", "method", "loop", "define"].map String.toList

/-- A name that is no keyword and that no keyword ends behind a hyphen. -/
structure IsSpelling (word : List Char) : Prop where
  isName : Name.isName word = true
  apart : ∀ keyword ∈ keywords, word ≠ keyword ∧ ¬ '-' :: keyword <:+ word

theorem IsSpelling.plain {word : List Char} (spelling : IsSpelling word) : IsPlain word :=
  isPlain_of_isName spelling.isName

theorem IsSpelling.either {old new : List Char} (old_spelling : IsSpelling old) (new_spelling : IsSpelling new) :
    ∀ word, word = old ∨ word = new → IsSpelling word := by
  rintro word (rfl | rfl)
  · exact old_spelling
  · exact new_spelling

def GoesOn (text : List Char) : Prop := ∃ c ∈ text.head?, isNamePart c = true ∨ c = '?'

theorem keywords_words {keyword : List Char} (member : keyword ∈ keywords) : keyword ≠ [] ∧
    (∀ c ∈ keyword, isNamePart c = true) ∧ ∀ c ∈ keyword, isWord c = true := by
  have all : ∀ keyword ∈ keywords, keyword ≠ [] ∧ (∀ c ∈ keyword, isNamePart c = true) ∧
      ∀ c ∈ keyword, isWord c = true := by decide
  exact all keyword member

theorem GoesOn.solid {text : List Char} (goes : GoesOn text) {c : Char} (head : c ∈ text.head?) :
    isBlank c = false ∧ c ≠ '[' := by
  obtain ⟨d, same, part | mark⟩ := goes
  · obtain rfl := Option.mem_unique same head
    refine ⟨Name.not_isBlank_of_isNamePart part, ?_⟩
    rintro rfl
    exact absurd part (by decide)
  · obtain rfl := Option.mem_unique same head
    subst mark
    decide

theorem GoesOn.run? {text : List Char} (goes : GoesOn text) : run? isBlank text = none := by
  obtain ⟨c, head, -⟩ := id goes
  obtain ⟨rest, rfl⟩ := List.head?_eq_some_iff.1 head
  simp [Text.run?, (goes.solid head).1]

theorem GoesOn.bracketed? {text : List Char} (goes : GoesOn text) : bracketed? (trimStart text) = none := by
  obtain ⟨c, head, -⟩ := id goes
  obtain ⟨rest, rfl⟩ := List.head?_eq_some_iff.1 head
  obtain ⟨solid, other⟩ := goes.solid head
  rw [trimStart_cons solid]
  simp [ArturoInsight.bracketed?, after?, Ne.symm other]

theorem IsPlain.isNamePart_of_append {first rest : List Char} (plain : IsPlain (first ++ rest)) (some_ : rest ≠ []) :
    ∀ c ∈ first, isNamePart c = true := by
  intro c member
  obtain ⟨index, inside, rfl⟩ := List.mem_iff_getElem.1 member
  have pos := List.length_pos_iff.2 some_
  have part := plain.isNamePart_of_lt (show index + 1 < (first ++ rest).length by rw [List.length_append]; omega)
  rwa [List.getElem_append_left inside] at part

theorem IsSpelling.ends_in_word {first keyword : List Char} (spelling : IsSpelling (first ++ keyword))
    (member : keyword ∈ keywords) {before : Option Char} : (first.getLast?.or before).any isWord = true := by
  obtain ⟨whole, hyphen⟩ := spelling.apart keyword member
  obtain rfl | ⟨front, c, rfl⟩ := List.eq_nil_or_concat' first
  · exact absurd (List.nil_append _) whole
  · have part := spelling.plain.isNamePart_of_append (keywords_words member).1 c (by simp)
    by_contra other
    obtain rfl := eq_hyphen part (by simpa using other)
    exact hyphen ⟨front, by simp⟩

theorem goesOn_of_keyword? {word first rest text tail : List Char} {before : Option Char} {keyword : String}
    (spelling : IsSpelling word) (member : keyword.toList ∈ keywords) (split : word = first ++ rest) (some_ : rest ≠ [])
    (closes : ∀ c ∈ text.head?, Closing c)
    (found : keyword? keyword (first.getLast?.or before) (rest ++ text) = some tail) : GoesOn tail := by
  have plain := spelling.plain
  obtain ⟨-, parts, words⟩ := keywords_words member
  unfold keyword? at found
  split_ifs at found with blocked
  obtain ⟨more, whole, rfl⟩ | ⟨more, rfl, rfl⟩ := List.append_eq_append_iff.1 (after?_eq_some.1 found)
  · cases more with
    | cons c more =>
      have other := (closes c rfl).1
      rw [parts c (by rw [whole]; simp)] at other
      contradiction
    | nil =>
      rw [List.append_nil] at whole
      rw [split, ← whole] at spelling
      exact absurd (spelling.ends_in_word member) blocked
  · cases more with
    | cons c more =>
      exact ⟨c, rfl, plain.part (by rw [split]; simp)⟩
    | nil =>
      rw [split, List.append_nil] at spelling
      exact absurd (spelling.ends_in_word member) blocked

theorem keyword?_cons {keyword : String} (member : keyword.toList ∈ keywords) (before : Option Char) {c : Char}
    (other : isNamePart c = false) (text : List Char) : keyword? keyword before (c :: text) = none := by
  obtain ⟨some_, parts, -⟩ := keywords_words member
  refine Option.eq_none_iff_forall_ne_some.2 fun tail found => ?_
  unfold keyword? at found
  split_ifs at found
  obtain ⟨d, mark, start⟩ := List.exists_cons_of_ne_nil some_
  have whole := after?_eq_some.1 found
  rw [start] at whole
  rw [(List.cons.inj whole).1, parts d (by rw [start]; simp)] at other
  contradiction

namespace Pattern

theorem keyword?_fill {keyword : String} (member : keyword.toList ∈ keywords) {front : Pattern} {c : Char}
    {back : Pattern} (framed : Framed (front ++ some c :: back)) : ∃ rest : Option Pattern,
    (∀ after ∈ rest, some c :: back = keyword.toList.map some ++ after) ∧ ∀ word,
      keyword? keyword (fill word front).getLast? (fill word (some c :: back)) = rest.map (fill word) := by
  obtain ⟨some_, parts, -⟩ := keywords_words member
  obtain ⟨rest, inside, reads⟩ := after?_fill_word some_ parts framed.right_of_append
  cases rest with
  | none => exact ⟨none, by simp, fun word => by rw [keyword?, reads word]; exact ite_self _⟩
  | some after =>
    obtain rfl | ⟨front, item, rfl⟩ := List.eq_nil_or_concat' front
    · exact ⟨some after, inside, fun word => reads word⟩
    · cases item with
      | none =>
        have other := (Framed.closing (by simpa using framed) : Closing c).1
        exact ⟨none, by simp, fun word => keyword?_cons member _ other _⟩
      | some d =>
        have last (word : List Char) : (fill word (front ++ [some d])).getLast? = some d := by simp
        cases word : isWord d with
        | true => exact ⟨none, by simp, fun other => by rw [keyword?, last]; simp [word]⟩
        | false => exact ⟨some after, inside, fun other => by rw [keyword?, last, reads other]; simp [word]⟩

/-- A reader that takes something at a dollar sign, or after a keyword and some mark. -/
def Led {α : Type} (read : Reader α) : Prop :=
  ∀ before text, (∀ c ∈ text.head?, c ≠ '$') → (∀ keyword : String, keyword.toList ∈ keywords →
    ∀ tail, keyword? keyword before text = some tail → GoesOn tail) → read before text = none

theorem Led.nil {α : Type} {read : Reader α} (led : Led read) (before : Option Char) : read before [] = none := by
  refine led before [] (by simp) fun keyword member tail found => ?_
  unfold keyword? at found
  split_ifs at found
  obtain ⟨some_, -⟩ := keywords_words member
  exact absurd (List.append_eq_nil_iff.1 (after?_eq_some.1 found).symm).1 some_

section Led

variable {α : Type} {read : Reader α} (led : Led read) {good : List Char → Prop}
  (spelling : ∀ word, good word → IsSpelling word) {front stretch back : Pattern}

include led

include spelling in
theorem passes_none (framed : Framed (front ++ none :: back)) : Passes read good front [none] back := by
  intro word fine first rest split items
  have split : word = first ++ rest := by simpa using split
  have name := spelling word fine
  have plain := name.plain
  refine led _ _ (fun c head => ?_) fun keyword member tail found => ?_
  · rw [List.head?_append_of_ne_nil _ items] at head
    rintro rfl
    obtain part | mark := plain.part (show '$' ∈ word by rw [split]; simp [List.mem_of_head? head])
    · exact absurd part (by decide)
    · exact absurd mark (by decide)
  · rw [List.getLast?_append] at found
    exact goesOn_of_keyword? name member split items (framed.closes word) found

theorem passes_some {item : Option Char} {c : Char} (framed : Framed (front ++ [item] ++ some c :: back))
    (runs : ∀ d, item = some d → isWord d = true) (word : isWord c = true) :
    Passes read good (front ++ [item]) [some c] back := by
  intro word fine first rest split items
  obtain ⟨rfl, rfl⟩ : first = [] ∧ rest = [c] := by
    cases first <;> simp_all [fill]
  refine led _ _ ?_ fun keyword member tail found => ?_
  · rintro d head rfl
    obtain rfl : c = '$' := by simpa using head
    exact absurd word (by decide)
  · rw [List.append_nil] at found
    cases item with
    | some d => simp [keyword?, runs d rfl] at found
    | none =>
      have other := (Framed.closing (by simpa using framed) : Closing c).1
      rw [List.cons_append, keyword?_cons member _ other] at found
      exact absurd found (by simp)

include spelling in
theorem passes_stretch {item : Option Char} (framed : Framed (front ++ [item] ++ (stretch ++ back)))
    (runs : ∀ d, item = some d → isWord d = true) (words : ∀ d, some d ∈ stretch → isWord d = true) :
    Passes read good (front ++ [item]) stretch back := by
  induction stretch generalizing front item with
  | nil => exact Passes.nil read good _ _
  | cons next stretch ih =>
    have later : Framed (front ++ [item] ++ [next] ++ (stretch ++ back)) := by simpa using framed
    refine .cons ?_ (ih later (fun d same => words d (by simp [same])) fun d member =>
      words d (List.mem_cons_of_mem _ member))
    cases next with
    | none => exact passes_none led spelling framed
    | some c => exact passes_some led framed runs (words c List.mem_cons_self)

end Led

/-- A name that is read whichever word is filled in: always the same, always the word, or never one that could
be used. -/
def Spelled (good : List Char → Prop) (value : List Char → List Char) : Prop :=
  (∃ text, ∀ word, good word → value word = text) ∨ (∀ word, good word → value word = word) ∨
    ∀ word, good word → ¬ IsPlain (value word)

theorem not_isPlain {text : List Char} {c : Char} (member : c ∈ text) (other : isNamePart c = false)
    (unmarked : c ≠ '?') : ¬ IsPlain text := by
  intro plain
  obtain part | mark := plain.part member
  · rw [other] at part
    contradiction
  · exact unmarked mark

theorem exists_neighbour {pattern : Pattern} (framed : Framed pattern) : (∃ text : List Char, pattern = text.map some) ∨
    pattern = [none] ∨ (∃ back c, pattern = none :: some c :: back ∧ Closing c) ∨
    ∃ (front : List Char) (c : Char) (back : Pattern),
      pattern = front.map some ++ some c :: none :: back ∧ Opening c := by
  induction pattern with
  | nil => exact .inl ⟨[], rfl⟩
  | cons item pattern ih =>
    cases item with
    | none =>
      cases pattern with
      | nil => exact .inr (.inl rfl)
      | cons next pattern =>
        cases next with
        | none => exact absurd (List.isChain_cons_cons.1 framed).1 id
        | some c => exact .inr (.inr (.inl ⟨pattern, c, rfl, (List.isChain_cons_cons.1 framed).1⟩))
    | some d =>
      obtain ⟨text, rfl⟩ | rfl | ⟨back, c, rfl, closing⟩ | ⟨front, c, back, rfl, opening⟩ := ih framed.tail
      · exact .inl ⟨d :: text, rfl⟩
      · exact .inr (.inr (.inr ⟨[], d, [], rfl, (List.isChain_cons_cons.1 framed).1⟩))
      · exact .inr (.inr (.inr ⟨[], d, some c :: back, rfl, (List.isChain_cons_cons.1 framed).1⟩))
      · exact .inr (.inr (.inr ⟨d :: front, c, back, rfl, opening⟩))

section Values

variable {good : List Char → Prop} (spelling : ∀ word, good word → IsSpelling word)

include spelling

theorem spelled_fill {pattern : Pattern} (framed : Framed pattern) : Spelled good (fill · pattern) := by
  obtain ⟨text, rfl⟩ | rfl | ⟨back, c, rfl, closing⟩ | ⟨front, c, back, rfl, opening⟩ := exists_neighbour framed
  · exact .inl ⟨text, fun word _ => fill_map_some text⟩
  · exact .inr (.inl fun word _ => by simp)
  · exact .inr (.inr fun word _ => not_isPlain (by simp) closing.1 closing.2)
  · refine .inr (.inr fun word fine plain => ?_)
    have some_ := (spelling word fine).plain.ne_nil
    have plain : IsPlain ((front ++ [c]) ++ (word ++ fill word back)) := by simpa using plain
    have part := plain.isNamePart_of_append (by simp [some_]) c (by simp)
    rw [opening.1] at part
    contradiction

omit spelling in
theorem spelled_takeWhile {run : Pattern} (framed : Framed run) (all : ∀ c, some c ∈ run → isWord c = true)
    (words : run.head? = some none → ∀ word, good word → ∀ c ∈ word, isWord c = true) :
    Spelled good fun word => (fill word run).takeWhile isWord := by
  have unmarked (c : Char) (member : some c ∈ run) : c ≠ '?' := by
    rintro rfl
    exact absurd (all _ member) (by decide)
  obtain ⟨text, rfl⟩ | rfl | ⟨back, c, rfl, closing⟩ | ⟨front, c, back, rfl, opening⟩ := exists_neighbour framed
  · exact .inl ⟨text.takeWhile isWord, fun word _ => by simp⟩
  · refine .inr (.inl fun word fine => ?_)
    beta_reduce
    rw [fill_none, fill_nil, List.append_nil]
    exact List.takeWhile_eq_self_iff.2 (words rfl word fine)
  · refine .inr (.inr fun word fine => not_isPlain (c := c) ?_ closing.1 closing.2)
    beta_reduce
    rw [fill_none, List.takeWhile_append_of_pos (words rfl word fine), fill_some,
      List.takeWhile_cons_of_pos (all c (by simp))]
    simp
  · refine .inr (.inr fun word _ => not_isPlain (c := c) ?_ opening.1 (unmarked c (by simp)))
    beta_reduce
    rw [fill_append, fill_map_some, fill_some, List.takeWhile_append_of_pos fun d member => all d (by simp [member]),
      List.takeWhile_cons_of_pos (all c (by simp))]
    simp

variable {α : Type} {read : Reader α} (led : Led read)

include led

theorem run?_isWord_fill {front text : Pattern} (framed : Framed (front ++ text))
    (words : text.head? = some none → ∀ word, good word → ∀ c ∈ word, isWord c = true) :
    (∀ word, good word → run? isWord (fill word text) = none) ∨
    ∃ value item stretch back, text = item :: (stretch ++ back) ∧ Spelled good value ∧
      Passes read good (front ++ [item]) stretch back ∧ ∀ word, good word → ∃ left, left <:+ fill word stretch ∧
        run? isWord (fill word text) = some (value word, left ++ fill word back) := by
  obtain ⟨run, back, rfl, all, stops⟩ := exists_items isWord text
  have splits (word : List Char) : run? isWord (fill word (run ++ back)) =
      if ((fill word run).takeWhile isWord).isEmpty then none
      else some ((fill word run).takeWhile isWord, (fill word run).dropWhile isWord ++ fill word back) := by
    obtain ⟨takes, drops⟩ := takeWhile_append_stop (fill word run) (stops_fill stops word)
    rw [fill_append, run?_eq, takes, drops]
  cases run with
  | nil => exact .inl fun word _ => splits word
  | cons item stretch =>
    have first (word : List Char) (fine : good word) : ∀ c ∈ fill word [item], isWord c = true := by
      cases item with
      | some c => simpa using all c List.mem_cons_self
      | none => simpa using words rfl word fine
    have spelled := spelled_takeWhile (framed.right_of_append.left_of_append) all words
    refine .inr ⟨_, item, stretch, back, rfl, spelled, ?_, fun word fine => ?_⟩
    · exact passes_stretch led spelling (by simpa using framed) (fun d same => all d (by simp [same]))
        fun d member => all d (List.mem_cons_of_mem _ member)
    · have some_ : fill word [item] ≠ [] :=
        fill_ne_nil (spelling word fine).plain.ne_nil (by simp)
      have whole : fill word (item :: stretch) = fill word [item] ++ fill word stretch := by
        rw [← fill_append]
        rfl
      refine ⟨(fill word stretch).dropWhile isWord, List.dropWhile_suffix _, ?_⟩
      rw [splits, whole, List.takeWhile_append_of_pos (first word fine),
        List.dropWhile_append_of_pos (first word fine), if_neg (by simp [some_])]

end Values

section Reading

variable {α : Type}

/-- Reading on from a place gives something for all words, or for none. What is read may end in a stretch
where the reader takes nothing. -/
def Reads (read : Reader α) (good : List Char → Prop) (front text : Pattern)
    (on : List Char → Option (α × List Char)) (values : (List Char → α) → Prop) : Prop :=
  (∀ word, good word → on (fill word text) = none) ∨ ∃ value covered stretch back, values value ∧
    text = covered ++ (stretch ++ back) ∧ Passes read good (front ++ covered) stretch back ∧
    ∀ word, good word → ∃ left, left <:+ fill word stretch ∧
      on (fill word text) = some (value word, left ++ fill word back)

variable {read : Reader α} {good : List Char → Prop} {front text : Pattern}
  {on next : List Char → Option (α × List Char)} {values : (List Char → α) → Prop}

/-- What a reader takes first stands in the pattern, and it reads on from there for all words. -/
theorem Reads.bind {lead : List Char → Option (List Char)} {holds : Pattern → Prop}
    (leads : ∃ rest : Option Pattern, (∀ after ∈ rest, ∃ items, holds items ∧ text = items ++ after) ∧
      ∀ word, good word → lead (fill word text) = rest.map (fill word))
    (equation : ∀ text, on text = (lead text).bind next)
    (reads : ∀ items after, holds items → text = items ++ after → Reads read good (front ++ items) after next values) :
    Reads read good front text on values := by
  obtain ⟨rest, inside, leads⟩ := leads
  cases rest with
  | none => exact .inl fun word fine => by rw [equation, leads word fine]; rfl
  | some after =>
    obtain ⟨items, held, rfl⟩ := inside after rfl
    have goes (word : List Char) (fine : good word) : on (fill word (items ++ after)) = next (fill word after) := by
      rw [equation, leads word fine]
      rfl
    obtain none | ⟨value, covered, stretch, back, fits, rfl, passes, reads⟩ := reads items after held rfl
    · exact .inl fun word fine => (goes word fine).trans (none word fine)
    · refine .inr ⟨value, items ++ covered, stretch, back, fits, by simp, by simpa using passes, fun word fine => ?_⟩
      rw [goes word fine]
      exact reads word fine

theorem steady_of_lead {pattern : Pattern} {lead : Option Char → List Char → Option (List Char)}
    (equation : ∀ before text, read before text = (lead before text).bind on) (led : Led read)
    (spelling : ∀ word, good word → IsSpelling word) (framed : Framed pattern)
    (leads : ∀ front c back, pattern = front ++ some c :: back → ∃ rest : Option Pattern,
      (∀ after ∈ rest, ∃ items, items ≠ [] ∧ some c :: back = items ++ after) ∧ ∀ word, good word →
        lead (fill word front).getLast? (fill word (some c :: back)) = rest.map (fill word))
    (reads : ∀ front after, pattern = front ++ after → Reads read good front after on values) :
    Steady read good pattern fun front value => (∃ c back, pattern = front ++ some c :: back) ∧ values value := by
  rintro front item back rfl
  cases item with
  | none => exact .inl (passes_none led spelling framed)
  | some c =>
    obtain ⟨rest, inside, leads⟩ := leads front c back rfl
    have passes (fails : ∀ word, good word →
        read (fill word front).getLast? (fill word (some c :: back)) = none) : Passes read good front [some c] back := by
      intro word fine first rest split items
      obtain ⟨rfl, rfl⟩ : first = [] ∧ rest = [c] := by
        cases first <;> simp_all [fill]
      simpa using fails word fine
    cases rest with
    | none => exact .inl (passes fun word fine => by rw [equation, leads word fine]; rfl)
    | some after =>
      obtain ⟨items, some_, whole⟩ := inside after rfl
      have goes (word : List Char) (fine : good word) :
          read (fill word front).getLast? (fill word (some c :: back)) = on (fill word after) := by
        rw [equation, leads word fine]
        rfl
      obtain none | ⟨value, covered, stretch, more, fits, rfl, later, reads⟩ :=
        reads (front ++ items) after (by rw [whole, List.append_assoc])
      · exact .inl (passes fun word fine => (goes word fine).trans (none word fine))
      · refine .inr ⟨value, ⟨⟨c, back, rfl⟩, fits⟩, items ++ covered, stretch, more, ?_, by simp [some_], ?_,
          fun word fine => ?_⟩
        · rw [whole, List.append_assoc]
        · rwa [← List.append_assoc]
        · rw [goes word fine]
          exact reads word fine

end Reading

end Pattern

end ArturoInsight
