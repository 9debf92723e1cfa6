import ArturoInsight.Proofs.Cursor.Spelling
import ArturoInsight.Symbol.Binding

/-! Types, loop variables and parameters read off a pattern. -/

namespace ArturoInsight

open Text Lexical

namespace Pattern

def afterBlanks (text : List Char) : Option (List Char) := (run? isBlank text).map (·.2)

theorem afterBlanks_fill (pattern : Pattern) : ∃ rest : Option Pattern,
    (∀ after ∈ rest, ∃ items : Pattern, (∃ front blank, items = front ++ [some blank] ∧ isBlank blank = true) ∧
      pattern = items ++ after) ∧
    ∀ word, IsPlain word → afterBlanks (fill word pattern) = rest.map (fill word) := by
  obtain ⟨gap, after, rfl, blanks, -, reads⟩ := exists_run isBlank pattern
  have reads (word : List Char) (plain : IsPlain word) := reads word plain.ne_nil fun c head =>
    Name.not_isBlank_of_isNamePart (plain.isNamePart_head c head)
  obtain rfl | ⟨front, blank, rfl⟩ := List.eq_nil_or_concat' gap
  · refine ⟨none, by simp, fun word plain => ?_⟩
    rw [afterBlanks, run?_eq, (reads word plain).1]
    rfl
  · refine ⟨some after, ?_, fun word plain => ?_⟩
    · rintro _ ⟨⟩
      exact ⟨_, ⟨front.map some, blank, by simp, blanks blank (by simp)⟩, rfl⟩
    · rw [afterBlanks, run?_eq, (reads word plain).1, (reads word plain).2, if_neg (by simp)]
      rfl

theorem trimStart_fill (pattern : Pattern) : ∃ (gap : List Char) (after : Pattern), pattern = gap.map some ++ after ∧
    ∀ word, IsPlain word → trimStart (fill word pattern) = fill word after := by
  obtain ⟨gap, after, rfl, -, -, reads⟩ := exists_run isBlank pattern
  exact ⟨gap, after, rfl, fun word plain => (reads word plain.ne_nil fun c head =>
    Name.not_isBlank_of_isNamePart (plain.isNamePart_head c head)).2⟩

theorem bracketed?_fill (pattern : Pattern) : ∃ pair : Option (Pattern × Pattern),
    (∀ found ∈ pair, pattern = some '[' :: (found.1 ++ some ']' :: found.2)) ∧
    ∀ word, IsPlain word → bracketed? (fill word pattern) = pair.map (both word) := by
  obtain ⟨rest, inside, opens⟩ := after?_fill (show isNamePart '[' = false by decide) pattern
  cases rest with
  | none => exact ⟨none, by simp, fun word plain => by rw [bracketed?, opens word plain]; rfl⟩
  | some after =>
    obtain rfl := inside after rfl
    obtain ⟨pair, whole, reads⟩ := upTo?_fill ']' after
    refine ⟨pair, fun found member => by rw [whole found member], fun word plain => ?_⟩
    have outside : ']' ∉ word := fun member => (plain.inert ']' member).2.2 rfl
    rw [bracketed?, opens word plain]
    exact reads word outside

section Keyword

variable {α : Type} {read : Reader α} {keyword : String} (member : keyword.toList ∈ keywords)
  {next : List Char → Option (α × List Char)}
  (equation : ∀ before text, read before text =
    (keyword? keyword before text).bind fun tail => (afterBlanks tail).bind next)

include member equation

theorem led_of_keyword : Led read := by
  intro before text _ goes
  rw [equation]
  cases found : keyword? keyword before text with
  | none => rfl
  | some tail =>
    have solid := (goes keyword member tail found).run?
    simp [afterBlanks, solid]

theorem steady_of_keyword {good : List Char → Prop} (spelling : ∀ word, good word → IsSpelling word)
    {pattern : Pattern} (framed : Framed pattern) {values : (List Char → α) → Prop}
    (reads : ∀ front blank after, isBlank blank = true → pattern = front ++ some blank :: after →
      Reads read good (front ++ [some blank]) after next values) :
    Steady read good pattern fun front value => (∃ c back, pattern = front ++ some c :: back) ∧ values value := by
  refine steady_of_lead equation (led_of_keyword member equation) spelling framed (fun front c back whole => ?_)
    fun front after whole => ?_
  · obtain ⟨rest, inside, leads⟩ := keyword?_fill member (whole ▸ framed)
    have some_ : keyword.toList.map some ≠ [] := by simpa using (keywords_words member).1
    exact ⟨rest, fun after found => ⟨_, some_, inside after found⟩, fun word _ => leads word⟩
  · obtain ⟨rest, inside, blanks⟩ := afterBlanks_fill after
    refine Reads.bind ⟨rest, inside, fun word fine => blanks word (spelling word fine).plain⟩ (fun _ => rfl) ?_
    rintro _ tail ⟨gap, blank, rfl, held⟩ rfl
    have read := reads (front ++ gap) blank tail held (by simp [whole])
    rwa [List.append_assoc] at read

end Keyword

section Types

def typeAfter (text : List Char) : Option (List Char × List Char) :=
  (afterBlanks text).bind fun text => (after? [':'] text).bind (run? isWord)

theorem definition_eq (before : Option Char) (text : List Char) :
    definition before text = (keyword? "define" before text).bind typeAfter := by
  unfold definition keyword?
  split_ifs
  · rfl
  · cases after? "define".toList text with
    | none => rfl
    | some tail => cases found : run? isBlank tail <;> simp [typeAfter, afterBlanks, found]

theorem led_definition : Led definition := led_of_keyword (by decide) definition_eq

variable {good : List Char → Prop} (spelling : ∀ word, good word → IsSpelling word) {pattern : Pattern}
  (framed : Framed pattern)

include spelling framed

theorem steady_definition (typed : ∀ front blank back, isBlank blank = true →
      pattern = front ++ some blank :: some ':' :: none :: back → ∀ word, good word → ∀ c ∈ word, isWord c = true) :
    Steady definition good pattern fun front value =>
      (∃ c back, pattern = front ++ some c :: back) ∧ Spelled good value := by
  refine steady_of_keyword (by decide) definition_eq spelling framed fun front blank tail held whole => ?_
  obtain ⟨rest, inside, colon⟩ := after?_fill (show isNamePart ':' = false by decide) tail
  refine @Reads.bind _ _ _ _ _ _ _ _ _ (· = [some ':']) ⟨rest, fun after found => ⟨_, rfl, inside after found⟩,
    fun word fine => colon word (spelling word fine).plain⟩ (fun _ => rfl) ?_
  rintro _ text rfl rfl
  have shape : pattern = front ++ [some blank] ++ [some ':'] ++ text := by simp [whole]
  have words (first : text.head? = some none) : ∀ word, good word → ∀ c ∈ word, isWord c = true := by
    obtain ⟨back, rfl⟩ := List.head?_eq_some_iff.1 first
    exact typed front blank back held (by simp [shape])
  obtain none | ⟨value, item, stretch, back, rfl, spelled, passes, reads⟩ :=
    run?_isWord_fill spelling led_definition (shape ▸ framed) words
  · exact .inl none
  · exact .inr ⟨value, [item], stretch, back, spelled, rfl, passes, reads⟩

end Types

section Loops

def membersTails (members : List Char) : List (List Char) :=
  ((bracketed? members).toList ++ (run? (fun c => !isBlank c) members).toList).filterMap fun tail =>
    afterBlanks tail.2

def loopAfter {α : Type} (read : List Char → Option (α × List Char)) (text : List Char) :
    Option (α × List Char) :=
  (afterBlanks text).bind fun members => (membersTails members).findSome? read

theorem loopTails_findSome? {α : Type} (read : List Char → Option (α × List Char)) (before : Option Char)
    (text : List Char) : (loopTails before text).findSome? read = (keyword? "loop" before text).bind (loopAfter read) := by
  unfold loopTails
  cases keyword? "loop" before text with
  | none => rfl
  | some tail => cases found : run? isBlank tail <;> simp [loopAfter, afterBlanks, membersTails, found]

def quotedAfter (text : List Char) : Option (List Char × List Char) := (after? ['\x27'] text).bind (run? isWord)

def namesAfter (text : List Char) : Option (List Char × List Char) :=
  (bracketed? text).bind fun found => (after? ['['] (trimStart found.2)).map fun body => (found.1, body)

theorem loopName_eq (before : Option Char) (text : List Char) :
    loopName before text = (keyword? "loop" before text).bind (loopAfter quotedAfter) :=
  loopTails_findSome? quotedAfter before text

theorem loopBlock_eq (before : Option Char) (text : List Char) :
    loopBlock before text = (keyword? "loop" before text).bind (loopAfter namesAfter) := by
  rw [← loopTails_findSome?]
  unfold loopBlock
  congr 1
  funext tail
  cases found : bracketed? tail with
  | none => simp [namesAfter, found]
  | some pair => cases body : after? ['['] (trimStart pair.2) <;> simp [namesAfter, found, body]

theorem led_loop {α : Type} {read : Reader α} {next : List Char → Option (α × List Char)}
    (equation : ∀ before text, read before text = (keyword? "loop" before text).bind (loopAfter next)) : Led read :=
  led_of_keyword (by decide) equation

theorem filterMap_afterBlanks {pattern : Pattern} {texts : List Pattern} (inside : ∀ text ∈ texts, text <:+ pattern) :
    ∃ tails : List Pattern, (∀ tail ∈ tails, tail <:+ pattern) ∧ ∀ word, IsPlain word →
      (texts.map (fill word)).filterMap afterBlanks = tails.map (fill word) := by
  induction texts with
  | nil => exact ⟨[], by simp, fun word _ => rfl⟩
  | cons text texts ih =>
    obtain ⟨here, later⟩ := List.forall_mem_cons.1 inside
    obtain ⟨tails, further, reads⟩ := ih later
    obtain ⟨rest, shape, blanks⟩ := afterBlanks_fill text
    cases rest with
    | none =>
      exact ⟨tails, further, fun word plain => by simp [blanks word plain, reads word plain]⟩
    | some after =>
      obtain ⟨items, -, rfl⟩ := shape after rfl
      refine ⟨after :: tails, List.forall_mem_cons.2 ⟨(List.suffix_append items after).trans here, further⟩,
        fun word plain => ?_⟩
      simp only [List.map_cons, List.filterMap_cons, blanks word plain, Option.map_some, reads word plain]

theorem membersTails_fill (pattern : Pattern) : ∃ tails : List Pattern, (∀ tail ∈ tails, tail <:+ pattern) ∧
    ∀ word, IsPlain word → membersTails (fill word pattern) = tails.map (fill word) := by
  obtain ⟨block, inside, blocks⟩ := bracketed?_fill pattern
  obtain ⟨run, after, rfl, -, solid⟩ := exists_span (fun c => !isBlank c) pattern
  have within : ∀ text ∈ block.toList.map (·.2) ++ (if run = [] then [] else [after]), text <:+ run ++ after := by
    refine List.forall_mem_append.2 ⟨fun text member => ?_, fun text member => ?_⟩
    · obtain ⟨found, there, rfl⟩ := List.mem_map.1 member
      exact ⟨some '[' :: (found.1 ++ [some ']']), by rw [inside found (by simpa using there)]; simp⟩
    · split_ifs at member
      · contradiction
      · obtain rfl := List.mem_singleton.1 member
        exact List.suffix_append run _
  obtain ⟨tails, further, reads⟩ := filterMap_afterBlanks within
  refine ⟨tails, further, fun word plain => ?_⟩
  obtain ⟨takes, drops⟩ := solid word fun c member => by simp [plain.solid member]
  have empty : (fill word run).isEmpty = decide (run = []) := by
    by_cases none : run = []
    · simp [none]
    · simp [none, fill_ne_nil plain.ne_nil none]
  have seconds (found : List (List Char × List Char)) :
      (found.filterMap fun tail => afterBlanks tail.2) = (found.map (·.2)).filterMap afterBlanks :=
    by rw [List.filterMap_map]; rfl
  rw [← reads word plain, membersTails, blocks word plain, run?_eq, takes, drops, empty, seconds]
  congr 1
  by_cases nothing : run = [] <;> cases block <;> simp [nothing, both]

/-- The first of some tails that something can be read off is the same for all words. -/
theorem Reads.findSome? {α : Type} {read : Reader α} {good : List Char → Prop} {front text : Pattern}
    {on next : List Char → Option (α × List Char)} {values : (List Char → α) → Prop} {tails : List Pattern}
    (suffixes : ∀ tail ∈ tails, tail <:+ text)
    (reads : ∀ lead after, text = lead ++ after → Reads read good (front ++ lead) after next values)
    (same : ∀ word, good word → on (fill word text) = (tails.map (fill word)).findSome? next) :
    Reads read good front text on values := by
  induction tails with
  | nil => exact .inl same
  | cons tail tails ih =>
    obtain ⟨⟨lead, rfl⟩, later⟩ := List.forall_mem_cons.1 suffixes
    obtain none | ⟨value, covered, stretch, back, fits, rfl, passes, found⟩ := reads lead tail rfl
    · exact ih later fun word fine => by rw [same word fine, List.map_cons, List.findSome?_cons, none word fine]
    · refine .inr ⟨value, lead ++ covered, stretch, back, fits, by simp, by simpa using passes, fun word fine => ?_⟩
      obtain ⟨left, ends, found⟩ := found word fine
      exact ⟨left, ends, by rw [same word fine, List.map_cons, List.findSome?_cons, found]⟩

section Names

variable {good : List Char → Prop} (spelling : ∀ word, good word → IsSpelling word) {pattern : Pattern}
  (framed : Framed pattern)

include spelling framed

theorem steady_loop {α : Type} {read : Reader α} {next : List Char → Option (α × List Char)}
    {values : (List Char → α) → Prop}
    (equation : ∀ before text, read before text = (keyword? "loop" before text).bind (loopAfter next))
    (reads : ∀ front after, pattern = front ++ after → Reads read good front after next values) :
    Steady read good pattern fun front value => (∃ c back, pattern = front ++ some c :: back) ∧ values value := by
  refine steady_of_keyword (by decide) equation spelling framed fun front blank members _ whole => ?_
  obtain ⟨tails, suffixes, splits⟩ := membersTails_fill members
  refine Reads.findSome? suffixes (fun lead after shape => ?_) fun word fine => by
    rw [splits word (spelling word fine).plain]
  exact reads _ after (by simp [whole, shape])

theorem reads_quotedAfter {read : Reader (List Char)} (led : Led read) {front after : Pattern}
    (whole : pattern = front ++ after) : Reads read good front after quotedAfter (Spelled good) := by
  obtain ⟨rest, inside, quote⟩ := after?_fill (show isNamePart '\x27' = false by decide) after
  refine @Reads.bind _ _ _ _ _ _ _ _ _ (· = [some '\x27']) ⟨rest, fun after found => ⟨_, rfl, inside after found⟩,
    fun word fine => quote word (spelling word fine).plain⟩ (fun _ => rfl) ?_
  rintro _ text rfl rfl
  have shape : pattern = front ++ [some '\x27'] ++ text := by simp [whole]
  have words (first : text.head? = some none) : ∀ word, good word → ∀ c ∈ word, isWord c = true := by
    obtain ⟨back, rfl⟩ := List.head?_eq_some_iff.1 first
    have opens : Opening '\x27' := Framed.opening (by simpa [shape] using framed)
    exact absurd rfl opens.2.1
  obtain none | ⟨value, item, stretch, back, rfl, spelled, passes, reads⟩ :=
    run?_isWord_fill spelling led (shape ▸ framed) words
  · exact .inl none
  · exact .inr ⟨value, [item], stretch, back, spelled, rfl, passes, reads⟩

omit framed in
theorem reads_namesAfter {read : Reader (List Char)} {front after : Pattern} (whole : pattern = front ++ after) :
    Reads read good front after namesAfter fun value =>
      ∃ names : Pattern, names <:+: pattern ∧ ∀ word, good word → value word = fill word names := by
  obtain ⟨pair, inside, blocks⟩ := bracketed?_fill after
  cases pair with
  | none => exact .inl fun word fine => by rw [namesAfter, blocks word (spelling word fine).plain]; rfl
  | some found =>
    obtain ⟨names, tail⟩ := found
    obtain rfl := inside _ rfl
    obtain ⟨gap, text, rfl, trims⟩ := trimStart_fill tail
    obtain ⟨rest, inside, opens⟩ := after?_fill (show isNamePart '[' = false by decide) text
    have goes (word : List Char) (fine : good word) :
        namesAfter (fill word (some '[' :: (names ++ some ']' :: (gap.map some ++ text)))) =
          (rest.map (fill word)).map fun body => (fill word names, body) := by
      have plain := (spelling word fine).plain
      rw [namesAfter, blocks word plain, Option.map_some, Option.bind_some, both, trims word plain, opens word plain]
    cases rest with
    | none => exact .inl goes
    | some body =>
      obtain rfl := inside body rfl
      refine .inr ⟨(fill · names), some '[' :: (names ++ some ']' :: (gap.map some ++ [some '['])), [], body,
        ⟨names, ⟨front ++ [some '['], some ']' :: (gap.map some ++ some '[' :: body), by simp [whole]⟩,
          fun _ _ => rfl⟩, by simp, Passes.nil read good _ _, fun word fine => ⟨[], List.nil_suffix, ?_⟩⟩
      exact goes word fine

end Names

end Loops

section Parameters

def functionLead (before : Option Char) (text : List Char) : Option (List Char) :=
  (keyword? "function" before text).or ((keyword? "method" before text).or (after? ['$'] text))

theorem parameterBlock_eq (before : Option Char) (text : List Char) :
    parameterBlock before text = (functionLead before text).bind fun tail => bracketed? (trimStart tail) := rfl

theorem led_parameterBlock : Led parameterBlock := by
  intro before text other goes
  rw [parameterBlock_eq]
  refine Option.eq_none_iff_forall_ne_some.2 fun found reads => ?_
  obtain ⟨tail, leads, block⟩ := Option.bind_eq_some_iff.1 reads
  have blocked (goes : GoesOn tail) : False := by
    rw [goes.bracketed?] at block
    contradiction
  obtain function | ⟨-, later⟩ := Option.or_eq_some_iff.1 leads
  · exact blocked (goes "function" (by decide) tail function)
  · obtain method | ⟨-, dollar⟩ := Option.or_eq_some_iff.1 later
    · exact blocked (goes "method" (by decide) tail method)
    · rw [after?_eq_some] at dollar
      exact other '$' (by rw [dollar]; rfl) rfl

def parameterAfter (text : List Char) : Option (List Char × List Char) := (afterBlanks text).bind quotedAfter

theorem parameterName_eq (before : Option Char) (text : List Char) :
    parameterName before text = (keyword? "function" before text).bind parameterAfter := by
  unfold parameterName
  cases keyword? "function" before text with
  | none => rfl
  | some tail => cases found : run? isBlank tail <;> simp [parameterAfter, quotedAfter, afterBlanks, found]

theorem led_parameterName : Led parameterName := led_of_keyword (by decide) parameterName_eq

variable {good : List Char → Prop} (spelling : ∀ word, good word → IsSpelling word) {pattern : Pattern}
  (framed : Framed pattern)

include spelling framed

theorem steady_parameterBlock : Steady parameterBlock good pattern fun front value =>
    (∃ c back, pattern = front ++ some c :: back) ∧
      ∃ names : Pattern, names <:+: pattern ∧ ∀ word, good word → value word = fill word names := by
  have function : "function".toList ∈ keywords := by decide
  have method : "method".toList ∈ keywords := by decide
  refine steady_of_lead parameterBlock_eq led_parameterBlock spelling framed (fun front c back whole => ?_)
    fun front after whole => ?_
  · obtain ⟨first, functions, reads⟩ := keyword?_fill function (whole ▸ framed)
    obtain ⟨second, methods, later⟩ := keyword?_fill method (whole ▸ framed)
    obtain ⟨third, dollars, last⟩ := after?_fill (show isNamePart '$' = false by decide) (some c :: back)
    refine ⟨first.or (second.or third), fun after member => ?_, fun word fine => ?_⟩
    · obtain found | ⟨-, member⟩ := Option.or_eq_some_iff.1 member
      · exact ⟨_, by simp +decide, functions after found⟩
      · obtain found | ⟨-, found⟩ := Option.or_eq_some_iff.1 member
        · exact ⟨_, by simp +decide, methods after found⟩
        · exact ⟨[some '$'], by simp, dollars after found⟩
    · rw [functionLead, reads word, later word, last word (spelling word fine).plain, ← Option.map_or,
        ← Option.map_or]
  · obtain ⟨gap, text, rfl, trims⟩ := trimStart_fill after
    obtain ⟨pair, inside, blocks⟩ := bracketed?_fill text
    have goes (word : List Char) (fine : good word) :
        bracketed? (trimStart (fill word (gap.map some ++ text))) = pair.map (both word) := by
      rw [trims word (spelling word fine).plain, blocks word (spelling word fine).plain]
    cases pair with
    | none => exact .inl goes
    | some found =>
      obtain ⟨names, body⟩ := found
      obtain rfl := inside _ rfl
      refine .inr ⟨(fill · names), gap.map some ++ some '[' :: (names ++ [some ']']), [], body,
        ⟨names, ⟨front ++ (gap.map some ++ [some '[']), some ']' :: body, by simp [whole]⟩, fun _ _ => rfl⟩, by simp,
          Passes.nil parameterBlock good _ _, fun word fine => ⟨[], List.nil_suffix, goes word fine⟩⟩

theorem steady_parameterName : Steady parameterName good pattern fun front value =>
    (∃ c back, pattern = front ++ some c :: back) ∧ Spelled good value := by
  refine steady_of_keyword (by decide) parameterName_eq spelling framed fun front blank text _ whole => ?_
  exact reads_quotedAfter spelling framed led_parameterName (by simp [whole])

end Parameters

end Pattern

end ArturoInsight
