import ArturoInsight.Proofs.Cursor.Led

/-! Parameters without their annotations, read off a pattern. -/

namespace ArturoInsight

open Text Lexical

section Annotations

theorem dropAnnotations_kept {c : Char} (other : c ≠ ':') (capital : isLower c = false) (dropping : Bool)
    (front back : List Char) : ∃ kept,
      dropAnnotations dropping (front ++ c :: back) = kept ++ c :: dropAnnotations false back := by
  induction front generalizing dropping with
  | nil => exact ⟨[], by simp [dropAnnotations, other, capital]⟩
  | cons d front ih =>
    rw [List.cons_append, dropAnnotations]
    split_ifs
    · exact ih true
    · exact ih true
    · obtain ⟨kept, same⟩ := ih false
      exact ⟨d :: kept, by rw [same, List.cons_append]⟩

theorem dropAnnotations_append {word : List Char} (other : ∀ c ∈ word, c ≠ ':') (rest : List Char) :
    dropAnnotations false (word ++ rest) = word ++ dropAnnotations false rest := by
  induction word with
  | nil => rfl
  | cons c word ih =>
    obtain ⟨here, later⟩ := List.forall_mem_cons.1 other
    rw [List.cons_append, dropAnnotations, ih later]
    simp [here]

theorem dropAnnotations_lower {word : List Char} (lower : ∀ c ∈ word, isLower c = true) (rest : List Char) :
    dropAnnotations true (word ++ rest) = dropAnnotations true rest := by
  induction word with
  | nil => rfl
  | cons c word ih =>
    obtain ⟨here, later⟩ := List.forall_mem_cons.1 lower
    rw [List.cons_append, dropAnnotations, ih later]
    simp [here]

theorem dropAnnotations_colons {text : List Char} (all : ∀ c ∈ text, c = ':' ∨ isLower c = true) {dropping : Bool}
    (starts : dropping = false → ∀ c ∈ text.head?, c = ':') : ∀ c ∈ dropAnnotations dropping text, c = ':' := by
  induction text generalizing dropping with
  | nil => exact List.forall_mem_nil _
  | cons c text ih =>
    obtain ⟨here, later⟩ := List.forall_mem_cons.1 all
    rw [dropAnnotations]
    split_ifs with drops colon
    · exact ih later (by simp)
    · exact ih later (by simp)
    · have same : c = ':' := by
        cases dropping with
        | false => exact starts rfl c rfl
        | true => exact here.resolve_right fun lower => drops (by simp [lower])
      subst same
      refine List.forall_mem_cons.2 ⟨rfl, ih later fun _ d head => ?_⟩
      have high : text.head?.any isLower = false := by simpa using colon
      rw [Option.mem_def.1 head] at high
      exact (later d (List.mem_of_head? head)).resolve_right (by simpa using high)

end Annotations

theorem not_isLower_of_not_isNamePart {c : Char} (other : isNamePart c = false) : isLower c = false := by
  by_contra lower
  simp [isNamePart, isAsciiWord, isAsciiLetter, lower] at other

theorem IsPlain.ne_colon {word : List Char} (plain : IsPlain word) : ∀ c ∈ word, c ≠ ':' := by
  rintro _ member rfl
  exact Pattern.not_isPlain member (by decide) (by decide) plain

namespace Pattern

theorem dropAnnotations_fill {pattern : Pattern} (behind : ∀ front c back,
      pattern = front ++ some c :: none :: back → c = ':') {dropping : Bool}
    (starts : pattern.head? = some none → dropping = true) {first second : List Char}
    (some_ : first ≠ [] ∧ second ≠ []) (lower : ∀ c ∈ first ++ second, isLower c = true) :
    dropAnnotations dropping (fill first pattern) = dropAnnotations dropping (fill second pattern) := by
  obtain ⟨left, right⟩ := List.forall_mem_append.1 lower
  induction pattern generalizing dropping with
  | nil => rfl
  | cons item rest ih =>
    have later : ∀ front c back, rest = front ++ some c :: none :: back → c = ':' := fun front c back same =>
      behind (item :: front) c back (by rw [same, List.cons_append])
    cases item with
    | none =>
      obtain rfl := starts rfl
      rw [fill_none, fill_none, dropAnnotations_lower left, dropAnnotations_lower right]
      exact ih later fun _ => rfl
    | some c =>
      have heads : (fill first rest).head?.any isLower = (fill second rest).head?.any isLower := by
        cases rest with
        | nil => rfl
        | cons item rest =>
          cases item with
          | some d => rfl
          | none =>
            obtain ⟨a, first, rfl⟩ := List.exists_cons_of_ne_nil some_.1
            obtain ⟨b, second, rfl⟩ := List.exists_cons_of_ne_nil some_.2
            simp [left a List.mem_cons_self, right b List.mem_cons_self]
      rw [fill_some, fill_some, dropAnnotations, dropAnnotations, heads]
      split_ifs with drops colon
      · exact ih later fun _ => rfl
      · exact ih later fun _ => rfl
      · refine congrArg (c :: ·) (ih later fun hole => ?_)
        obtain ⟨back, rfl⟩ := List.head?_eq_some_iff.1 hole
        obtain rfl := behind [] c back rfl
        obtain ⟨b, second, rfl⟩ := List.exists_cons_of_ne_nil some_.2
        simp [right b List.mem_cons_self] at colon

theorem exists_before_hole {item : Option Char} {rest : Pattern} (framed : Framed (item :: rest))
    (hole : none ∈ rest) : ∃ front c back, item :: rest = front ++ some c :: none :: back := by
  obtain ⟨first, back, rfl⟩ := List.append_of_mem hole
  obtain ⟨front, last, same⟩ := List.eq_nil_or_concat' (item :: first) |>.resolve_left (List.cons_ne_nil _ _)
  have whole : item :: (first ++ none :: back) = front ++ last :: none :: back := by
    rw [← List.cons_append, same, List.append_assoc]
    rfl
  cases last with
  | some c => exact ⟨front, c, back, whole⟩
  | none =>
    rw [whole] at framed
    exact absurd (List.isChain_cons_cons.1 framed.right_of_append).1 id

theorem not_isPlain_dropAnnotations {front back : Pattern} {c : Char}
    (framed : Framed (front ++ some c :: none :: back)) (other : c ≠ ':') {word : List Char} (plain : IsPlain word) :
    ¬ IsPlain (dropAnnotations false (fill word (front ++ some c :: none :: back))) := by
  intro parameter
  have opening := framed.opening
  obtain ⟨kept, same⟩ := dropAnnotations_kept other (not_isLower_of_not_isNamePart opening.1) false (fill word front)
    (word ++ fill word back)
  rw [fill_append, fill_some, fill_none, same, dropAnnotations_append plain.ne_colon, List.append_cons] at parameter
  have part := parameter.isNamePart_of_append (by simp [plain.ne_nil]) c (by simp)
  rw [opening.1] at part
  exact absurd part Bool.false_ne_true

section Annotations

variable {good : List Char → Prop} (spelling : ∀ word, good word → IsSpelling word)

include spelling

theorem exists_dropAnnotations {text : Pattern} {c : Char}
    (behind : ∀ front d back, some c :: text = front ++ some d :: none :: back → d = ':')
    (lower : none ∈ text → ∀ word, good word → ∀ c ∈ word, isLower c = true) :
    ∃ result, ∀ word, good word → dropAnnotations false (c :: fill word text) = result := by
  have some_ (word : List Char) (fine : good word) : word ≠ [] := (spelling word fine).plain.ne_nil
  by_cases hole : none ∈ text
  · by_cases somebody : ∃ word, good word
    · obtain ⟨first, fits⟩ := somebody
      refine ⟨dropAnnotations false (c :: fill first text), fun word fine => ?_⟩
      have small := List.forall_mem_append.2 ⟨lower hole word fine, lower hole first fits⟩
      exact @dropAnnotations_fill (some c :: text) behind false (by simp) word first
        ⟨some_ word fine, some_ first fits⟩ small
    · exact ⟨[], fun word fine => absurd ⟨word, fine⟩ somebody⟩
  · obtain ⟨chars, rfl⟩ := eq_map_some hole
    exact ⟨dropAnnotations false (c :: chars), fun word _ => by rw [fill_map_some]⟩

theorem spelled_annotated {rest : Pattern} {result : List Char}
    (same : ∀ word, good word → dropAnnotations false (':' :: fill word rest) = result)
    (annotated : ∀ word, good word → ∀ c ∈ fill word rest, c = ':' ∨ isLower c = true) :
    Spelled good fun word => dropAnnotations false (fill word (none :: some ':' :: rest)) := by
  have starts (word : List Char) (fine : good word) :
      dropAnnotations false (fill word (none :: some ':' :: rest)) = word ++ result := by
    rw [fill_none, dropAnnotations_append (spelling word fine).plain.ne_colon, fill_some, same word fine]
  cases result with
  | nil => exact .inr (.inl fun word fine => by simpa using starts word fine)
  | cons d result =>
    refine .inr (.inr fun word fine => ?_)
    have all : ∀ c ∈ ':' :: fill word rest, c = ':' ∨ isLower c = true :=
      List.forall_mem_cons.2 ⟨.inl rfl, annotated word fine⟩
    have colons := @dropAnnotations_colons _ all false (by simp)
    rw [same word fine] at colons
    beta_reduce
    rw [starts word fine, (List.forall_mem_cons.1 colons).1]
    exact not_isPlain (c := ':') (by simp) (by decide) (by decide)

theorem spelled_dropAnnotations {pattern : Pattern} (framed : Framed pattern)
    (behind : (∃ front back, pattern = front ++ some ':' :: none :: back) →
      ∀ word, good word → ∀ c ∈ word, isLower c = true)
    (annotated : ∀ rest, pattern = none :: some ':' :: rest → ∀ c, some c ∈ rest → c = ':' ∨ isLower c = true) :
    Spelled good fun word => dropAnnotations false (fill word pattern) := by
  by_cases odd : ∃ front c back, pattern = front ++ some c :: none :: back ∧ c ≠ ':'
  · obtain ⟨front, c, back, rfl, other⟩ := odd
    exact .inr (.inr fun word fine => not_isPlain_dropAnnotations framed other (spelling word fine).plain)
  have colon : ∀ front c back, pattern = front ++ some c :: none :: back → c = ':' := by
    intro front c back whole
    by_contra other
    exact odd ⟨front, c, back, whole, other⟩
  have lower {front text : Pattern} {item : Option Char} (whole : pattern = front ++ item :: text)
      (hole : none ∈ text) : ∀ word, good word → ∀ c ∈ word, isLower c = true := by
    obtain ⟨more, c, back, same⟩ := exists_before_hole (whole ▸ framed).right_of_append hole
    rw [same, ← List.append_assoc] at whole
    obtain rfl := colon _ _ _ whole
    exact behind ⟨_, _, whole⟩
  have steady {front text : Pattern} {c : Char} (whole : pattern = front ++ some c :: text) :
      ∃ result, ∀ word, good word → dropAnnotations false (c :: fill word text) = result := by
    refine exists_dropAnnotations spelling (fun more d back same => colon (front ++ more) d back ?_) (lower whole)
    rw [whole, same, List.append_assoc]
  match pattern with
  | [] => exact .inl ⟨[], fun _ _ => rfl⟩
  | some c :: rest =>
    obtain ⟨result, same⟩ := @steady [] _ _ rfl
    exact .inl ⟨result, same⟩
  | [none] =>
    have alone (word : List Char) (fine : good word) : dropAnnotations false word = word := by
      simpa [dropAnnotations] using dropAnnotations_append (spelling word fine).plain.ne_colon []
    exact .inr (.inl fun word fine => by simpa using alone word fine)
  | none :: none :: rest => exact absurd (List.isChain_cons_cons.1 framed).1 id
  | none :: some c :: rest =>
    have closing : Closing c := (List.isChain_cons_cons.1 framed).1
    by_cases colored : c = ':'
    · subst colored
      obtain ⟨result, same⟩ := @steady [none] _ _ rfl
      refine spelled_annotated spelling same fun word fine => forall_fill (annotated rest rfl) fun hole c member => ?_
      exact .inr (@lower [none] _ _ rfl hole word fine c member)
    · refine .inr (.inr fun word fine => ?_)
      obtain ⟨kept, same⟩ :=
        dropAnnotations_kept colored (not_isLower_of_not_isNamePart closing.1) false word (fill word rest)
      beta_reduce
      rw [fill_none, fill_some, same]
      exact not_isPlain (c := c) (by simp) closing.1 closing.2

end Annotations

end Pattern

end ArturoInsight
