import ArturoInsight.Proofs.Symbol.Binding

/-! The types that a line defines, read off its characters and the blanks between them. -/

namespace ArturoInsight

open Text Lexical

def spelled? : List Char → List Spaced → Option (List Spaced)
  | [], line => some line
  | _ :: _, [] => none
  | c :: word, next :: rest =>
    if next.gap.isEmpty && next.char == c then spelled? word rest else none

def wordRun : List Spaced → List Char × List Spaced
  | [] => ([], [])
  | next :: rest =>
    if next.gap.isEmpty && isWord next.char then (next.char :: (wordRun rest).1, (wordRun rest).2)
    else ([], next :: rest)

def defined? (line : List Spaced) : Option (List Char × List Spaced) :=
  (spelled? "define".toList (bare line)).bind fun tail =>
    (Binding.colon? (fun gap => !gap.isEmpty) tail).bind fun (_, rest) =>
      if (wordRun rest).1.isEmpty then none else some (wordRun rest)

/-- The type that a line defines where it starts, if that is in code and not inside a word. -/
def definedHere? (inWord : Bool) : List Spaced → Option (List Char × List Spaced)
  | [] => none
  | first :: rest =>
    if first.isCode && !(inWord && first.gap.isEmpty) then defined? (first :: rest) else none

theorem length_spelled? {word : List Char} {line after : List Spaced}
    (found : spelled? word line = some after) : after.length ≤ line.length := by
  induction word generalizing line with
  | nil => rw [Option.some.inj found]
  | cons c word ih =>
    cases line with
    | nil => contradiction
    | cons next rest =>
      rw [spelled?] at found
      split_ifs at found
      have shorter := ih found
      rw [List.length_cons]
      omega

theorem length_wordRun (line : List Spaced) : (wordRun line).2.length ≤ line.length := by
  induction line with
  | nil => exact le_rfl
  | cons next rest ih =>
    rw [wordRun]
    split_ifs
    · exact ih.trans (Nat.le_succ _)
    · exact le_rfl

theorem length_bare (line : List Spaced) : (bare line).length = line.length := by cases line <;> rfl

theorem length_defined? {line after : List Spaced} {name : List Char}
    (found : defined? line = some (name, after)) : after.length < line.length := by
  obtain ⟨tail, spelled, found⟩ := Option.bind_eq_some_iff.1 found
  obtain ⟨⟨joined, rest⟩, colon, found⟩ := Option.bind_eq_some_iff.1 found
  have first := length_spelled? spelled
  have last := length_wordRun rest
  rw [length_bare] at first
  cases tail with
  | nil => contradiction
  | cons next more =>
    simp only [Binding.colon?, Option.ite_none_right_eq_some, Option.some.injEq, Prod.mk.injEq] at colon
    obtain ⟨-, -, rfl⟩ := colon
    rw [Option.ite_none_left_eq_some] at found
    have same := congrArg Prod.snd (Option.some.inj found.2)
    have same : (wordRun more).2 = after := same
    rw [same] at last
    rw [List.length_cons] at first
    omega

theorem length_definedHere? {inWord : Bool} {first : Spaced} {rest after : List Spaced} {name : List Char}
    (found : definedHere? inWord (first :: rest) = some (name, after)) : after.length < rest.length + 1 := by
  rw [definedHere?, Option.ite_none_right_eq_some] at found
  exact length_defined? found.2

/-- The types that a line defines, where the character before it may be part of a word. -/
def definedFrom (inWord : Bool) : List Spaced → List (List Char)
  | [] => []
  | first :: rest =>
    match found : definedHere? inWord (first :: rest) with
    | none => definedFrom (isWord first.char) rest
    | some (name, after) =>
      have _ : after.length < (first :: rest).length := length_definedHere? found
      name :: definedFrom true after
termination_by line => line.length
decreasing_by
  · exact Nat.lt_succ_self _
  · exact length_definedHere? found

theorem definedFrom_none {inWord : Bool} {first : Spaced} {rest : List Spaced}
    (fails : definedHere? inWord (first :: rest) = none) :
    definedFrom inWord (first :: rest) = definedFrom (isWord first.char) rest := by
  rw [definedFrom]
  split
  · rfl
  next found => simp [fails] at found

theorem definedFrom_some {inWord : Bool} {line after : List Spaced} {name : List Char}
    (found : definedHere? inWord line = some (name, after)) :
    definedFrom inWord line = name :: definedFrom true after := by
  cases line with
  | nil => contradiction
  | cons first rest =>
    rw [definedFrom]
    split
    next fails => simp [fails] at found
    next other reads =>
      rw [found] at reads
      obtain ⟨rfl, rfl⟩ := Prod.mk.inj (Option.some.inj reads)
      rfl

section Cells

variable {before : Cell} {cells : List Cell} (code : before.2.isCode = true) (bordered : Bordered before cells)
  (shown : ∀ cell ∈ cells, cell.2 ≠ .comment)

include code bordered shown

theorem spelled_spaced {word : List Char} (plain : ∀ c ∈ word, endsCode c = false ∧ isBlank c = false) :
    after? word (cells.map (·.1)) = none ∧ spelled? word (spaced cells) = none ∨
    ∃ covered after, cells = covered ++ after ∧ (∃ last : Cell, last.2.isCode = true ∧ Bordered last after) ∧
      after? word (cells.map (·.1)) = some (after.map (·.1)) ∧
      spelled? word (spaced cells) = some (spaced after) := by
  induction word generalizing before cells with
  | nil => exact .inr ⟨[], cells, rfl, ⟨before, code, bordered⟩, rfl, rfl⟩
  | cons c word ih =>
    obtain ⟨⟨plainC, solid⟩, more⟩ := List.forall_mem_cons.1 plain
    cases cells with
    | nil => exact .inl ⟨rfl, rfl⟩
    | cons cell rest =>
      obtain ⟨d, tag⟩ := cell
      obtain ⟨first, later⟩ := List.forall_mem_cons.1 shown
      by_cases same : d = c
      · subst same
        have inCode : tag.isCode = true := isCode_of_bordered code bordered plainC
        have line : spelled? (d :: word) (spaced ((d, tag) :: rest)) = spelled? word (spaced rest) := by
          rw [spaced, spacedFrom_solid first fun _ => solid]
          simp [spelled?, spaced]
        have text : after? (d :: word) (((d, tag) :: rest).map (·.1)) = after? word (rest.map (·.1)) := by
          simp [after?]
        rw [line, text]
        obtain none | ⟨covered, after, whole, found⟩ := ih inCode (bordered_cons.1 bordered).2 later more
        · exact .inl none
        · exact .inr ⟨(d, tag) :: covered, after, by rw [whole]; rfl, found⟩
      · left
        refine ⟨by simp [after?, Ne.symm same], ?_⟩
        cases line : spaced ((d, tag) :: rest) with
        | nil => rfl
        | cons item more =>
          have apart : ¬ (item.gap = [] ∧ item.char = c) := by
            rintro ⟨joined, spelled⟩
            exact same ((char_of_head? (by rw [line]; rfl) joined).symm.trans spelled)
          simpa [spelled?] using fun joined spelled => absurd ⟨joined, spelled⟩ apart

theorem wordRun_spaced : ∃ covered after, cells = covered ++ after ∧
    (∃ last : Cell, last.2.isCode = true ∧ Bordered last after) ∧
    covered.map (·.1) = (cells.map (·.1)).takeWhile isWord ∧
    (cells.map (·.1)).dropWhile isWord = after.map (·.1) ∧
    wordRun (spaced cells) = ((cells.map (·.1)).takeWhile isWord, spaced after) := by
  induction cells generalizing before with
  | nil => exact ⟨[], [], rfl, ⟨before, code, bordered⟩, rfl, rfl, rfl⟩
  | cons cell rest ih =>
    obtain ⟨c, tag⟩ := cell
    obtain ⟨first, later⟩ := List.forall_mem_cons.1 shown
    cases word : isWord c with
    | true =>
      have solid : isBlank c = false := by
        by_contra blank
        rw [not_isWord_of_isBlank (by simpa using blank)] at word
        contradiction
      have inCode : tag.isCode = true := isCode_of_bordered code bordered (endsCode_of_isWord word)
      obtain ⟨covered, after, whole, ends, spells, drops, run⟩ := ih inCode (bordered_cons.1 bordered).2 later
      refine ⟨(c, tag) :: covered, after, by rw [whole]; rfl, ends, by simp [spells, word],
        by simp [drops, word], ?_⟩
      rw [spaced] at run
      rw [spaced, spacedFrom_solid first fun _ => solid]
      simp [wordRun, word, run]
    | false =>
      refine ⟨[], (c, tag) :: rest, rfl, ⟨before, code, bordered⟩, by simp [word], by simp [word], ?_⟩
      simp only [List.map_cons, List.takeWhile_cons, word]
      cases line : spaced ((c, tag) :: rest) with
      | nil => rfl
      | cons item more =>
        have apart : ¬ ((item.gap.isEmpty && isWord item.char) = true) := by
          intro inside
          rw [Bool.and_eq_true, List.isEmpty_iff] at inside
          rw [char_of_head? (by rw [line]; rfl) inside.1, word] at inside
          exact Bool.false_ne_true inside.2
        rw [wordRun, if_neg apart]
        rfl

theorem defined_spaced (first : ∀ item ∈ (spaced cells).head?, item.gap = []) :
    definition none (cells.map (·.1)) = none ∧ defined? (spaced cells) = none ∨
    ∃ covered after name, cells = covered ++ after ∧ (∃ last : Cell, last.2.isCode = true ∧ Bordered last after) ∧
      ((covered.map (·.1)).getLast?.any isWord) ∧
      definition none (cells.map (·.1)) = some (name, after.map (·.1)) ∧
      defined? (spaced cells) = some (name, spaced after) := by
  unfold definition defined?
  rw [bare_eq_self first, Option.any_none, if_neg Bool.false_ne_true]
  have plain : ∀ c ∈ "define".toList, endsCode c = false ∧ isBlank c = false := by decide
  obtain ⟨text, line⟩ | ⟨word, tail, whole, ⟨e, codeE, borderedE⟩, text, line⟩ :=
    spelled_spaced code bordered shown plain
  · left
    rw [text, line]
    exact ⟨rfl, rfl⟩
  rw [whole] at shown
  have shownTail := (List.forall_mem_append.1 shown).2
  rw [text, line]
  simp only [Option.bind_eq_bind, Option.bind_some, run?_eq]
  obtain ⟨text, line⟩ | ⟨mark, rest, place, codeM, text, line⟩ :=
    Binding.colon_spaced (fun gap => !gap.isEmpty) codeE borderedE shownTail []
  · left
    rw [spaced, line]
    refine ⟨?_, rfl⟩
    split_ifs
    · rfl
    · rw [Option.bind_some, text]
      rfl
  rw [List.nil_append] at line
  rw [spaced, line]
  cases apart : ((tail.map (·.1)).takeWhile isBlank).isEmpty with
  | true => exact .inl ⟨rfl, rfl⟩
  | false =>
    obtain ⟨gap, split⟩ : ∃ gap : List Cell, gap ++ (':', mark) :: rest = tail :=
      ⟨_, place ▸ List.take_append_drop _ tail⟩
    rw [← split] at borderedE shownTail
    have borderedM : Bordered (':', mark) rest := by
      rw [Bordered, ← List.cons_append] at borderedE
      exact borderedE.right_of_append
    have shownRest := (List.forall_mem_cons.1 (List.forall_mem_append.1 shownTail).2).2
    obtain ⟨run, after, parts, ends, spells, drops, words⟩ := wordRun_spaced codeM borderedM shownRest
    simp only [Bool.not_false, if_true, Bool.false_eq_true, if_false, Option.bind_some, text, words, drops]
    cases nameless : ((rest.map (·.1)).takeWhile isWord).isEmpty with
    | true => exact .inl ⟨rfl, rfl⟩
    | false =>
      refine .inr ⟨(word ++ gap ++ [(':', mark)]) ++ run, after, _, ?_, ends, ?_, rfl, rfl⟩
      · rw [whole, ← split, parts]
        simp
      · rw [List.map_append, spells]
        exact any_getLast?_append_takeWhile nameless _

end Cells

theorem definition_covers {before : Option Char} {text name tail : List Char}
    (found : definition before text = some (name, tail)) : ∃ covered, text = covered ++ tail ∧
      covered.getLast?.any isWord = true ∧ ∀ c ∈ covered, endsString c = false := by
  unfold definition at found
  split_ifs at found
  simp only [Option.bind_eq_bind, Option.bind_eq_some_iff, run?_eq, Option.ite_none_left_eq_some,
    Option.some.injEq, Prod.exists, Prod.mk.injEq] at found
  obtain ⟨first, spelled, gap, second, ⟨-, rfl, rfl⟩, third, colon, some_, rfl, rfl⟩ := found
  have parts : text = "define".toList ++ (first.takeWhile isBlank ++ ([':'] ++ third)) := by
    rw [← eq_of_after?_dropWhile colon, ← after?_eq_some.1 spelled]
  refine ⟨"define".toList ++ first.takeWhile isBlank ++ [':'] ++ third.takeWhile isWord, ?_, ?_, ?_⟩
  · rw [parts, List.append_assoc, List.append_assoc, List.append_assoc, List.takeWhile_append_dropWhile]
  · exact any_getLast?_append_takeWhile (by simpa using some_) _
  · intro c member
    rw [List.mem_append, List.mem_append, List.mem_append] at member
    obtain ((member | member) | member) | member := member
    · have inside : ∀ c ∈ "define".toList, endsString c = false := by decide
      exact inside c member
    · by_contra ends
      have blank := List.mem_takeWhile_imp member
      rw [not_isBlank_of_endsString (by simpa using ends)] at blank
      contradiction
    · rw [List.mem_singleton.1 member]
      decide
    · exact endsString_of_isWord (List.mem_takeWhile_imp member)

theorem string_of_bordered {cell : Cell} {covered rest : List Cell} (string : cell.2.isCode = false)
    (bordered : Bordered cell (covered ++ rest))
    (inside : ∀ c ∈ (cell :: covered).map (·.1), endsString c = false) :
    ∀ other ∈ cell :: covered, other.2.isCode = false := by
  induction covered generalizing cell with
  | nil => exact List.forall_mem_singleton.2 string
  | cons next covered ih =>
    obtain ⟨border, later⟩ := bordered_cons.1 bordered
    obtain ⟨first, more⟩ := List.forall_mem_cons.1 inside
    have other : next.2.isCode = false := by
      by_contra code
      have ends := border.closes string (by simpa using code)
      rw [first] at ends
      contradiction
    exact List.forall_mem_cons.2 ⟨string, ih other later more⟩

theorem definedFrom_string {cell : Cell} {covered : List Cell}
    (string : ∀ other ∈ cell :: covered, other.2.isCode = false)
    (shown : ∀ other ∈ cell :: covered, other.2 ≠ .comment)
    (word : ((cell :: covered).map (·.1)).getLast?.any isWord = true) (inWord : Bool) (gap : List Char)
    (rest : List Cell) :
    definedFrom inWord (spacedFrom gap (cell :: covered ++ rest)) = definedFrom true (spaced rest) := by
  induction covered generalizing cell inWord gap with
  | nil =>
    have other := string cell List.mem_cons_self
    rw [List.singleton_append, spacedFrom_solid (shown cell List.mem_cons_self)
      (fun code => absurd code (by simp [other])), definedFrom_none (by simp [definedHere?, other])]
    have last : isWord cell.1 = true := word
    rw [last, spaced]
  | cons next covered ih =>
    obtain ⟨other, later⟩ := List.forall_mem_cons.1 string
    obtain ⟨first, more⟩ := List.forall_mem_cons.1 shown
    rw [List.cons_append, spacedFrom_solid first (fun code => absurd code (by simp [other])),
      definedFrom_none (by simp [definedHere?, other])]
    exact ih later more (by simpa using word) _ _

theorem definition_of_isBlank {before : Option Char} {c : Char} (blank : isBlank c = true) (text : List Char) :
    definition before (c :: text) = none := by
  have other : c ≠ 'd' := by
    rintro rfl
    exact absurd blank (by decide)
  have fails : after? "define".toList (c :: text) = none := by simp [after?, Ne.symm other]
  unfold definition
  rw [fails]
  exact ite_self _

def typesAt (scan : Scan) (column : Nat) (before : Option Char) (text : List Char) : List (List Char) :=
  ((findsFrom definition column 0 before text).filter fun found => scan.codeAt found.start).map (·.value)

theorem typesAt_none {scan : Scan} {column : Nat} {before : Option Char} {c : Char} {text : List Char}
    (fails : definition before (c :: text) = none) :
    typesAt scan column before (c :: text) = typesAt scan (column + 1) (some c) text := by
  rw [typesAt, findsFrom_none fails, typesAt]

theorem typesAt_covered {scan : Scan} {before : Option Char} {name : List Char} {covered after : List Cell}
    (some_ : covered ≠ []) (column : Nat)
    (reads : definition before ((covered ++ after).map (·.1)) = some (name, after.map (·.1))) :
    typesAt scan column before ((covered ++ after).map (·.1)) =
      (if scan.codeAt column then [name] else []) ++
        typesAt scan (column + covered.length) (covered.map (·.1)).getLast? (after.map (·.1)) := by
  rw [List.map_append] at reads ⊢
  rw [typesAt, findsFrom_some (by simpa using some_) reads, List.filter_cons, List.length_map, typesAt]
  split_ifs <;> rfl

def DefinesAlike (before : Option Char) (inWord : Bool) (gap : List Char) (cell : Cell) (rest : List Cell)
    (given : List Char → List (List Char)) : Prop :=
  definition before ((cell :: rest).map (·.1)) = none ∧
      definedFrom inWord (spacedFrom gap (cell :: rest)) = definedFrom (isWord cell.1) (spaced rest) ∨
    ∃ covered after name, cell :: rest = covered ++ after ∧
      (covered.map (·.1)).getLast?.any isWord = true ∧
      definition before ((cell :: rest).map (·.1)) = some (name, after.map (·.1)) ∧
      definedFrom inWord (spacedFrom gap (cell :: rest)) = given name ++ definedFrom true (spaced after)

section Place

variable {previous : Cell} {c : Char} {tag : Tag} {rest : List Cell}
  (bordered : Bordered previous ((c, tag) :: rest)) (shown : ∀ cell ∈ (c, tag) :: rest, cell.2 ≠ .comment)
  (solid : tag.isCode = true → isBlank c = false) {gap : List Char} {before : Option Char} {inWord : Bool}

include bordered shown solid

theorem definesAlike_code (code : tag.isCode = true) (apart : before.any isWord = (inWord && gap.isEmpty)) :
    DefinesAlike before inWord gap (c, tag) rest fun name => [name] := by
  have line := spacedFrom_solid (shown _ List.mem_cons_self) solid gap rest
  have bared := spaced_solid (shown _ List.mem_cons_self) solid rest
  rw [DefinesAlike, line, ← spaced, code]
  rw [code] at bared
  cases inside : before.any isWord with
  | true =>
    refine .inl ⟨by simp [definition, inside], definedFrom_none ?_⟩
    rw [definedHere?, ← apart, inside]
    rfl
  | false =>
    have here : definedHere? inWord (⟨gap, c, true⟩ :: spaced rest) =
        defined? (spaced ((c, tag) :: rest)) := by
      rw [definedHere?, ← apart, inside, bared]
      rfl
    have alone : definition before (((c, tag) :: rest).map (·.1)) =
        definition none (((c, tag) :: rest).map (·.1)) := by simp [definition, inside]
    have began : Bordered (' ', .code) ((c, tag) :: rest) :=
      bordered_cons.2 ⟨⟨fun _ other => absurd code (by simp [other]),
        fun outside => absurd outside (by decide)⟩, (bordered_cons.1 bordered).2⟩
    have joined : ∀ item ∈ (spaced ((c, tag) :: rest)).head?, item.gap = [] := by
      intro item head
      rw [bared] at head
      obtain rfl : _ = item := by simpa using head
      rfl
    obtain ⟨text, silent⟩ | ⟨covered, after, name, whole, -, word, text, found⟩ :=
      defined_spaced rfl began shown joined
    · exact .inl ⟨alone.trans text, definedFrom_none (here.trans silent)⟩
    · exact .inr ⟨covered, after, name, whole, word, alone.trans text, definedFrom_some (here.trans found)⟩

theorem definesAlike_string (other : tag.isCode = false) :
    DefinesAlike before inWord gap (c, tag) rest fun _ => [] := by
  unfold DefinesAlike
  cases reads : definition before (((c, tag) :: rest).map (·.1)) with
  | none =>
    rw [spacedFrom_solid (shown _ List.mem_cons_self) solid, ← spaced]
    exact .inl ⟨rfl, definedFrom_none (by simp [definedHere?, other])⟩
  | some found =>
    obtain ⟨name, tail⟩ := found
    obtain ⟨text, split, word, inside⟩ := definition_covers reads
    obtain ⟨covered, after, whole, rfl, rfl⟩ := List.map_eq_append_iff.1 split
    refine .inr ⟨covered, after, name, whole, word, rfl, ?_⟩
    cases covered with
    | nil => contradiction
    | cons cell covered =>
      rw [List.cons_append] at whole
      obtain ⟨rfl, rfl⟩ := List.cons.inj whole
      have string := string_of_bordered other (bordered_cons.1 bordered).2 inside
      have shownHere : ∀ other ∈ (c, tag) :: covered, other.2 ≠ .comment :=
        fun other member => shown other (List.mem_append_left after member)
      exact definedFrom_string string shownHere word inWord gap after

end Place

theorem typesAt_spaced {scan : Scan} {column : Nat} {previous : Cell} {cells : List Cell}
    (bordered : Bordered previous cells) (shown : ∀ cell ∈ cells, cell.2 ≠ .comment)
    (tags : TagsFrom scan column cells) {gap : List Char} {before : Option Char} {inWord : Bool}
    (apart : before.any isWord = (inWord && gap.isEmpty)) :
    typesAt scan column before (cells.map (·.1)) = definedFrom inWord (spacedFrom gap cells) := by
  induction size : cells.length using Nat.strongRecOn generalizing column previous cells gap before inWord with
  | ind n shorter =>
    cases cells with
    | nil =>
      have fails : definition before [] = none := ite_self _
      simp [typesAt, findsFrom, fails, spacedFrom, definedFrom]
    | cons cell rest =>
      obtain ⟨c, tag⟩ := cell
      obtain ⟨-, later⟩ := List.forall_mem_cons.1 shown
      have next := (bordered_cons.1 bordered).2
      have fewer : rest.length < n := by rw [← size]; exact Nat.lt_succ_self _
      by_cases gapped : tag.isCode = true ∧ isBlank c = true
      · obtain ⟨code, blank⟩ := gapped
        rw [List.map_cons, typesAt_none (definition_of_isBlank blank _), spacedFrom_blank blank code]
        exact shorter _ fewer next later (tags.drop 1) (by simp [not_isWord_of_isBlank blank]) rfl
      have solid : tag.isCode = true → isBlank c = false := by simpa using gapped
      have start : scan.codeAt column = tag.isCode := tags 0 _ rfl
      have covers {covered after : List Cell} {name : List Char} (whole : (c, tag) :: rest = covered ++ after)
          (word : (covered.map (·.1)).getLast?.any isWord = true)
          (reads : definition before (((c, tag) :: rest).map (·.1)) = some (name, after.map (·.1))) :
          typesAt scan column before (((c, tag) :: rest).map (·.1)) =
            (if tag.isCode then [name] else []) ++ definedFrom true (spaced after) := by
        have some_ : covered ≠ [] := by
          intro none
          rw [none] at word
          contradiction
        rw [whole] at bordered shown tags reads size ⊢
        obtain ⟨last, ends⟩ := bordered.drop
        have dropped := tags.drop covered.length
        rw [List.drop_left] at dropped
        have positive := List.length_pos_iff.2 some_
        rw [List.length_append] at size
        have inside : (covered.map (·.1)).getLast?.any isWord = (true && ([] : List Char).isEmpty) := by
          rw [word]
          rfl
        rw [typesAt_covered some_ column reads, start, spaced]
        exact congrArg _ (shorter after.length (by omega) ends (List.forall_mem_append.1 shown).2 dropped
          inside rfl)
      have step (fails : definition before (((c, tag) :: rest).map (·.1)) = none) :
          typesAt scan column before (((c, tag) :: rest).map (·.1)) = definedFrom (isWord c) (spaced rest) := by
        rw [List.map_cons] at fails ⊢
        rw [typesAt_none fails]
        exact shorter _ fewer next later (tags.drop 1) (by simp) rfl
      have here : DefinesAlike before inWord gap (c, tag) rest fun name => if tag.isCode then [name] else [] := by
        cases code : tag.isCode with
        | true => exact definesAlike_code bordered shown solid code apart
        | false => exact definesAlike_string bordered shown solid code
      obtain ⟨fails, line⟩ | ⟨covered, after, name, whole, word, reads, line⟩ := here
      · rw [step fails, line]
      · rw [covers whole word reads, line]

theorem definedTypes_spaced {carry : Carry} {text : List Char} (started : State.ofCarry carry = ⟨.code, 0⟩) :
    definedTypes (scanLine carry text) (scanLine carry text).uncommented =
      definedFrom false (spaced (scanLine carry text).cells) := by
  rw [uncommented_scanLine started, spaced, ← spacedFrom_beforeComment]
  exact typesAt_spaced (bordered_scanLine started) (fun cell => ne_comment_of_mem)
    (tagsFrom_scanLine carry text) rfl

end ArturoInsight
