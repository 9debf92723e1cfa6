import ArturoInsight.Proofs.Cursor.Parameters

/-! The names that a text offers, as a list of what each of them is for whichever word fills a pattern. -/

namespace ArturoInsight.Pattern

open Text Lexical

def Offers (good : List Char → Prop) (names : List Char → List (List Char)) : Prop :=
  ∃ values : List (List Char → List Char), (∀ value ∈ values, Spelled good value) ∧
    ∀ word, good word → ∀ name, IsPlain name → (name ∈ names word ↔ ∃ value ∈ values, value word = name)

variable {good : List Char → Prop}

theorem Spelled.congr {first second : List Char → List Char} (spelled : Spelled good first)
    (same : ∀ word, good word → second word = first word) : Spelled good second := by
  obtain ⟨text, all⟩ | all | all := spelled
  · exact .inl ⟨text, fun word fine => (same word fine).trans (all word fine)⟩
  · exact .inr (.inl fun word fine => (same word fine).trans (all word fine))
  · exact .inr (.inr fun word fine => by rw [same word fine]; exact all word fine)

/-- A name other than the word is offered whichever the word is, and the word itself is replaced. -/
theorem Offers.other {names : List Char → List (List Char)} (offers : Offers good names) {old new name : List Char}
    (old_good : good old) (new_good : good new) (plain : IsPlain name) (offered : name ∈ names old) :
    name ∈ names new ∨ name = old ∧ (IsPlain new → new ∈ names new) := by
  obtain ⟨values, spelled, reads⟩ := offers
  obtain ⟨value, member, rfl⟩ := (reads old old_good name plain).1 offered
  obtain ⟨text, same⟩ | same | never := spelled value member
  · exact .inl ((reads new new_good _ plain).2 ⟨value, member, by rw [same old old_good, same new new_good]⟩)
  · exact .inr ⟨same old old_good, fun new_plain =>
      (reads new new_good new new_plain).2 ⟨value, member, same new new_good⟩⟩
  · exact absurd plain (never old old_good)

theorem Offers.congr {first second : List Char → List (List Char)} (offers : Offers good first)
    (same : ∀ word, good word → ∀ name, IsPlain name → (name ∈ second word ↔ name ∈ first word)) :
    Offers good second := by
  obtain ⟨values, spelled, reads⟩ := offers
  exact ⟨values, spelled, fun word fine name plain => (same word fine name plain).trans (reads word fine name plain)⟩

theorem offers_map {α : Type} {items : List α} (value : α → List Char → List Char)
    (spelled : ∀ item ∈ items, Spelled good (value item)) : Offers good fun word => items.map (value · word) :=
  ⟨items.map value, by simpa using spelled, fun word _ name _ => by simp⟩

theorem Offers.append {first second : List Char → List (List Char)} (left : Offers good first)
    (right : Offers good second) : Offers good fun word => first word ++ second word := by
  obtain ⟨values, spelled, reads⟩ := left
  obtain ⟨more, later, finds⟩ := right
  refine ⟨values ++ more, List.forall_mem_append.2 ⟨spelled, later⟩, fun word fine name plain => ?_⟩
  rw [List.mem_append, reads word fine name plain, finds word fine name plain]
  simp [or_and_right, exists_or]

theorem offers_flatMap {α : Type} {items : List α} (names : α → List Char → List (List Char))
    (offers : ∀ item ∈ items, Offers good (names item)) : Offers good fun word => items.flatMap (names · word) := by
  induction items with
  | nil => exact ⟨[], by simp, by simp⟩
  | cons item items ih =>
    obtain ⟨here, later⟩ := List.forall_mem_cons.1 offers
    exact here.append (ih later)

def unquoted (text : List Char) : List (List Char) := (words text).map (·.dropWhile (· == '\x27'))

variable (spelling : ∀ word, good word → IsSpelling word)

include spelling

theorem exists_values {α : Type} {read : Reader α} (led : Led read) {pattern : Pattern}
    {values : Pattern → (List Char → α) → Prop} (steady : Steady read good pattern values) :
    ∃ found : List (Pattern × (List Char → α)), (∀ entry ∈ found, values entry.1 entry.2) ∧ ∀ word, good word →
      (finds read (fill word pattern)).map (·.value) = found.map (·.2 word) := by
  obtain ⟨found, inside, reads⟩ := exists_finds (fun word fine => (spelling word fine).plain.ne_nil) led.nil steady
  refine ⟨found, inside, fun word fine => ?_⟩
  have pairs := congrArg (List.map Prod.snd) (reads word fine)
  simpa [Function.comp_def] using pairs

theorem offers_unquoted {names : Pattern} (framed : Framed names) :
    Offers good fun word => unquoted (fill word names) := by
  obtain ⟨found, inside, reads⟩ := words_fill names
  refine (offers_map (fun piece word => (fill word piece).dropWhile (· == '\x27'))
    fun piece (member : piece ∈ found) => ?_).congr fun word fine name _ => ?_
  · obtain ⟨quotes, after, rfl, -, -, drops⟩ := exists_run (· == '\x27') piece
    have framed := (framed.within (inside _ member)).right_of_append
    refine (spelled_fill spelling framed).congr fun word fine => ?_
    have plain := (spelling word fine).plain
    refine (drops word plain.ne_nil fun c head => ?_).2
    have part := plain.isNamePart_head c head
    simp only [beq_eq_false_iff_ne]
    rintro rfl
    exact absurd part (by decide)
  · rw [unquoted, reads word (spelling word fine).plain, List.map_map]
    rfl

variable {pattern : Pattern} (framed : Framed pattern)

include framed

theorem offers_loopVariables : Offers good fun word => loopVariables (fill word pattern) := by
  obtain ⟨quoted, spelled, reads⟩ := exists_values spelling (led_loop loopName_eq)
    (steady_loop spelling framed loopName_eq fun _ _ whole =>
      reads_quotedAfter spelling framed (led_loop loopName_eq) whole)
  obtain ⟨blocks, named, later⟩ := exists_values spelling (led_loop loopBlock_eq)
    (steady_loop spelling framed loopBlock_eq fun _ _ whole => reads_namesAfter spelling whole)
  have left := offers_map (fun entry word => entry.2 word) fun entry member => (spelled entry member).2
  have right : Offers good fun word => blocks.flatMap fun entry => unquoted (entry.2 word) := by
    refine offers_flatMap _ fun entry member => ?_
    obtain ⟨-, names, inside, same⟩ := named entry member
    refine (offers_unquoted spelling (framed.within inside)).congr fun word fine name _ => ?_
    rw [same word fine]
  refine (left.append right).congr fun word fine name _ => ?_
  have flat : ((finds loopBlock (fill word pattern)).flatMap fun block => unquoted block.value) =
      blocks.flatMap fun entry => unquoted (entry.2 word) := by
    calc _ = ((finds loopBlock (fill word pattern)).map (·.value)).flatMap unquoted := by rw [List.flatMap_map]
      _ = _ := by rw [later word fine, List.flatMap_map]
  rw [← flat, ← reads word fine]
  rfl

def BehindColon (word text : List Char) : Prop :=
  ∃ front back, text = front ++ ':' :: (word ++ back) ∧ ∀ c ∈ back.head?, Closing c

def parameterWords (code : List Char) : List (List Char) :=
  (finds parameterBlock code).head?.elim [] fun block => words block.value

theorem offers_parameters {old : List Char} (old_good : good old)
    (behind : ∀ text ∈ parameterWords (fill old pattern), BehindColon old text →
      ∀ word, good word → ∀ c ∈ word, isLower c = true)
    (annotated : ∀ text ∈ parameterWords (fill old pattern), ∀ rest, text = old ++ ':' :: rest →
      ∀ c ∈ rest, c = ':' ∨ isLower c = true) :
    Offers good fun word => parameters (fill word pattern) := by
  obtain ⟨blocks, named, reads⟩ := exists_values spelling led_parameterBlock (steady_parameterBlock spelling framed)
  obtain ⟨quoted, spelled, later⟩ := exists_values spelling led_parameterName (steady_parameterName spelling framed)
  have heads {read : Reader (List Char)} {found : List (Pattern × (List Char → List Char))} {word : List Char}
      (same : (finds read (fill word pattern)).map (·.value) = found.map (·.2 word)) :
      (finds read (fill word pattern)).head?.map (·.value) = found.head?.map (·.2 word) := by
    rw [← List.head?_map, same, List.head?_map]
  cases blocks with
  | nil =>
    have first : ∀ entry ∈ quoted.head?.toList, Spelled good fun word => entry.2 word := fun entry member =>
      (spelled entry (List.mem_of_head? (by simpa using member))).2
    refine Offers.congr (offers_map (fun (entry : Pattern × (List Char → List Char)) word => entry.2 word) first)
      fun word fine name _ => ?_
    have none : (finds parameterBlock (fill word pattern)).head? = none :=
      Option.map_eq_none_iff.1 (heads (reads word fine))
    have single := heads (later word fine)
    unfold parameters
    rw [none]
    simp only [single]
    cases quoted.head? <;> rfl
  | cons entry blocks =>
    obtain ⟨-, names, inside, same⟩ := named entry List.mem_cons_self
    obtain ⟨pieces, within, splits⟩ := words_fill names
    have values (word : List Char) (fine : good word) : ∃ block,
        (finds parameterBlock (fill word pattern)).head? = some block ∧ words block.value = pieces.map (fill word) := by
      obtain ⟨block, found, value⟩ := Option.map_eq_some_iff.1 (heads (reads word fine))
      have value : block.value = fill word names := value.trans (same word fine)
      exact ⟨block, found, by rw [value, splits word (spelling word fine).plain]⟩
    obtain ⟨block, found, shape⟩ := values old old_good
    have member {piece : Pattern} (member : piece ∈ pieces) : fill old piece ∈ parameterWords (fill old pattern) := by
      rw [parameterWords, found, Option.elim_some, shape]
      exact List.mem_map_of_mem member
    refine (offers_map (fun piece word => dropAnnotations false (fill word piece))
      fun piece (there : piece ∈ pieces) => ?_).congr fun word fine name plain => ?_
    · have framed : Framed piece := framed.within ((within piece there).trans inside)
      refine spelled_dropAnnotations spelling framed ?_ ?_
      · rintro ⟨front, back, rfl⟩
        refine behind _ (member there) ⟨fill old front, fill old back, by simp, ?_⟩
        exact @Framed.closes (front ++ [some ':']) _ (by simpa using framed) old
      · rintro rest rfl c inside
        exact annotated _ (member there) (fill old rest) (by simp) c (List.mem_flatMap.2 ⟨some c, inside, by simp⟩)
    · obtain ⟨block, found, shape⟩ := values word fine
      have kept : (!name.isEmpty && name.head? != some ':') = true := by
        have other : name.head? ≠ some ':' := fun head => absurd (plain.isNamePart_head ':' head) (by decide)
        simp [plain.ne_nil, other]
      unfold parameters
      rw [found]
      simp only [shape, List.map_map, List.mem_filter, kept, and_true]
      rfl

end ArturoInsight.Pattern
