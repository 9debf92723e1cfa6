import ArturoInsight.Proofs.Lexical.SameCode
import ArturoInsight.Proofs.Symbol.Definition
import ArturoInsight.Proofs.Symbol.Gathered
import ArturoInsight.Proofs.ValueType
import ArturoInsight.Symbol.Quasi

/-! Lines with the same code bind the same names and define the same types. A reader that starts in code goes no
further than the mark that ends the code, and nothing is bound or defined where it does not start in code. -/

namespace ArturoInsight

open Text Lexical

structure Foreign (c : Char) : Prop where
  blank : isBlank c = false
  word : isWord c = false
  part : isNamePart c = false
  letter : isLetter c = false
  other : c ∉ "define:?$".toList

theorem Foreign.ne {c d : Char} (foreign : Foreign c) (known : d ∈ "define:?$".toList) : c ≠ d := by
  rintro rfl
  exact foreign.other known

theorem foreign_of_marked {rest : List Char} (marked : Marked rest) : ∀ c ∈ rest.head?, Foreign c := by
  intro c head
  have marks := marked c head
  have apart {holds : Char → Bool} (plain : ∀ c, holds c = true → endsCode c = false) : holds c = false := by
    by_contra held
    rw [plain c (by simpa using held)] at marks
    contradiction
  refine ⟨apart fun c => endsCode_of_isBlank, apart fun c => endsCode_of_isWord,
    apart fun c => Binding.endsCode_of_isNamePart, apart fun c letter => endsCode_of_isWord (isWord_of_isLetter letter), ?_⟩
  have all : ∀ c ∈ "define:?$".toList, endsCode c = false := by decide
  intro known
  rw [all c known] at marks
  contradiction

namespace Binding

/-- What a binding tells besides its value: its name, its column and whether its value constructs a function. -/
def told (binding : Binding) : List Char × Nat × Bool :=
  (binding.name, binding.column, isFunctionValue binding.value)

def toldAt? (column : Nat) (inName : Bool) (text : List Char) (marked : Bool) : Option (List Char × Nat × Bool) :=
  if inName then none
  else do
    let (name, tail) ← Name.read? text
    let blanks := tail.takeWhile isAsciiBlank
    let after ← after? [':'] (tail.dropWhile isAsciiBlank)
    if !annotates blanks after && (marked || !(trim after).isEmpty) then
      some (name, column, isFunctionValue after)
    else none

theorem annotates_append {rest : List Char} (marked : Marked rest) (blanks after : List Char) :
    annotates blanks (after ++ rest) = annotates blanks after := by
  unfold annotates
  cases after with
  | cons c after => rfl
  | nil =>
    cases rest with
    | nil => rfl
    | cons c rest => simp [(foreign_of_marked marked c rfl).letter]

section Place

variable {scan : Scan} {column : Nat}

theorem at?_eq_none (other : scan.codeAt column = false) (before : Option Char) (rest : List Char) :
    at? scan column before rest = none := by
  unfold at?
  split_ifs
  · rfl
  cases Name.read? rest with
  | none => rfl
  | some found => simp [other]

theorem not_isNamePart_of_endsString {c : Char} (ends : endsString c = true) : isNamePart c = false := by
  have all : ∀ c ∈ ['\x22', '\x7d', '»'], isNamePart c = false := by decide
  exact all c (by simpa [endsString, or_assoc] using ends)

theorem told_at?_append {text rest : List Char} (code : ∀ place < text.length, scan.codeAt (column + place) = true)
    (marked : Marked rest) (before : Option Char) : (at? scan column before (text ++ rest)).map told =
      toldAt? column (before.any isNamePart) text (!rest.isEmpty) := by
  have foreign := foreign_of_marked marked
  have stops : ∀ c ∈ rest.head?, isAsciiBlank c = false := by
    intro c head
    by_contra blank
    have solid := (foreign c head).blank
    rw [isBlank_of_isAsciiBlank (by simpa using blank)] at solid
    contradiction
  have colon : ∀ c ∈ rest.head?, c ∉ [':'] := by
    intro c head same
    exact (foreign c head).ne (by decide) (List.mem_singleton.1 same)
  unfold at? toldAt?
  split_ifs
  · rfl
  rw [Name.read?_append fun c head => ⟨(foreign c head).part, (foreign c head).ne (by decide)⟩]
  cases reads : Name.read? text with
  | none => rfl
  | some found =>
    obtain ⟨name, tail⟩ := found
    obtain ⟨takes, drops⟩ := takeWhile_append_stop tail stops
    simp only [Option.map_some, Option.bind_eq_bind, Option.bind_some, takes, drops, after?_append colon]
    cases found : after? [':'] (tail.dropWhile isAsciiBlank) with
    | none => rfl
    | some after =>
      obtain ⟨positive, within⟩ := Name.colon_within reads found
      have first : scan.codeAt column = true := code 0 (by omega)
      have mark : scan.codeAt (column + name.length + (tail.takeWhile isAsciiBlank).length) = true := by
        rw [Nat.add_assoc]
        exact code _ (by omega)
      have empty := isEmpty_trim_append (fun c head => (foreign c head).blank) after
      have function := isFunctionValue_append
        (fun c head => ⟨(foreign c head).blank, (foreign c head).word, (foreign c head).ne (by decide)⟩) after
      simp only [Option.map_some, Option.bind_some, first, mark, annotates_append marked, empty, Bool.true_and,
        Bool.not_and, Bool.or_comm (!(trim after).isEmpty)]
      split_ifs
      · rw [Option.map_some, told, function]
      · rfl

end Place

section Lines

variable {left right : Scan} {column : Nat} {previous other : Cell} {lefts rights : List Cell}

theorem told_at? {cell : Cell} (code : cell.2.isCode = true) (same : SameCells lefts rights)
    (bordered : Bordered cell lefts) (edged : Bordered cell rights) (first : TagsFrom left column (cell :: lefts))
    (second : TagsFrom right column (cell :: rights)) {before after : Option Char}
    (apart : before.any isNamePart = after.any isNamePart) :
    (at? left column before ((cell :: lefts).map (·.1))).map told =
      (at? right column after ((cell :: rights).map (·.1))).map told := by
  obtain ⟨shared, front, back, rfl, rfl, inCode, marked, edges, rest⟩ := same.exists_shared code code bordered edged
  have inCode : ∀ other ∈ cell :: shared, other.2.isCode = true := List.forall_mem_cons.2 ⟨code, inCode⟩
  have codes {scan : Scan} {more : List Cell} (tags : TagsFrom scan column (cell :: (shared ++ more))) :
      ∀ place < ((cell :: shared).map (·.1)).length, scan.codeAt (column + place) = true := by
    intro place inside
    rw [List.length_map] at inside
    have found : (cell :: (shared ++ more))[place]? = some (cell :: shared)[place] := by
      rw [← List.cons_append, List.getElem?_append_left inside, List.getElem?_eq_getElem inside]
    rw [tags place _ found]
    exact inCode _ (List.getElem_mem inside)
  have ends : (front.map (·.1)).isEmpty = (back.map (·.1)).isEmpty := by
    cases rest <;> rfl
  rw [← List.cons_append, ← List.cons_append, List.map_append, List.map_append, told_at?_append (codes first) marked,
    told_at?_append (codes second) edges, apart, ends]

theorem told_firstPlaceFrom (same : SameCells lefts rights) (bordered : Bordered previous lefts)
    (edged : Bordered other rights) (first : TagsFrom left column lefts) (second : TagsFrom right column rights)
    {before after : Option Char}
    (apart : ∀ cell ∈ lefts.head?, cell.2.isCode = true → before.any isNamePart = after.any isNamePart) :
    (firstPlaceFrom (at? left) column before (lefts.map (·.1))).map told =
      (firstPlaceFrom (at? right) column after (rights.map (·.1))).map told := by
  induction same generalizing column previous other before after with
  | nil => rfl
  | @cons cell partner lefts rights here later ih =>
    obtain ⟨-, next⟩ := bordered_cons.1 bordered
    obtain ⟨-, follows⟩ := bordered_cons.1 edged
    have further := SameCells.before_code later here next follows fun c => not_isNamePart_of_endsString
    have rest := @ih (column + 1) cell partner next follows (first.drop 1) (second.drop 1)
      (some cell.1) (some partner.1) further
    rw [List.map_cons, List.map_cons, firstPlaceFrom_cons, firstPlaceFrom_cons, Option.map_or, Option.map_or, rest]
    congr 1
    cases code : cell.2.isCode with
    | true =>
      obtain rfl := here.eq code
      exact told_at? code later next follows first second (apart cell rfl code)
    | false =>
      have start : left.codeAt column = false := (first 0 _ rfl).trans code
      have begins : right.codeAt column = false := (second 0 _ rfl).trans (here.isCode.symm.trans code)
      rw [at?_eq_none start, at?_eq_none begins]

end Lines

end Binding

theorem definition_append {rest : List Char} (marked : Marked rest) (before : Option Char) (text : List Char) :
    definition before (text ++ rest) = (definition before text).map fun (name, tail) => (name, tail ++ rest) := by
  have foreign := foreign_of_marked marked
  have apart {word : List Char} (known : word ⊆ "define:?$".toList) : ∀ c ∈ rest.head?, c ∉ word :=
    fun c head inside => (foreign c head).other (known inside)
  have define := @after?_append "define".toList rest (apart (by decide))
  have colon := @after?_append [':'] rest (apart (by decide))
  have blank := @run?_append isBlank rest fun c head => (foreign c head).blank
  have word := @run?_append isWord rest fun c head => (foreign c head).word
  unfold definition
  split_ifs
  · rfl
  simp only [Option.bind_eq_bind, define, Option.bind_map, Option.map_bind, Function.comp_def, blank, colon, word]

section Types

variable {previous other : Cell} {lefts rights : List Cell}

theorem definition_same {cell : Cell} (code : cell.2.isCode = true) (same : SameCells lefts rights)
    (bordered : Bordered cell lefts) (edged : Bordered cell rights) (before : Option Char) :
    (definition before ((cell :: lefts).map (·.1))).map (fun found => (found.1, found.2.length)) =
      (definition before ((cell :: rights).map (·.1))).map fun found => (found.1, found.2.length) := by
  obtain ⟨shared, front, back, rfl, rfl, -, marked, edges, rest⟩ := same.exists_shared code code bordered edged
  have size : front.length = back.length := rest.length_eq
  rw [← List.cons_append, ← List.cons_append, List.map_append, List.map_append, definition_append marked,
    definition_append edges, Option.map_map, Option.map_map]
  congr 1
  funext found
  simp [size]

theorem exists_before (inWord : Bool) : ∃ before : Option Char, before.any isWord = inWord := by
  cases inWord with
  | true => exact ⟨some 'a', by decide⟩
  | false => exact ⟨none, rfl⟩

theorem same_after {covered hidden after rest : List Cell} (same : SameCells (covered ++ after) (hidden ++ rest))
    (size : after.length = rest.length) : SameCells after rest := by
  have whole := same.length_eq
  rw [List.length_append, List.length_append] at whole
  have dropped := SameCells.drop same covered.length
  rw [List.drop_left, show covered.length = hidden.length by omega, List.drop_left] at dropped
  exact dropped

theorem place_same {c : Char} {tag : Tag} (code : tag.isCode = true) (solid : isBlank c = false)
    (same : SameCells lefts rights) (bordered : Bordered previous ((c, tag) :: lefts))
    (edged : Bordered other ((c, tag) :: rights)) (shown : ∀ cell ∈ (c, tag) :: lefts, cell.2 ≠ .comment)
    (shows : ∀ cell ∈ (c, tag) :: rights, cell.2 ≠ .comment) {gap : List Char} {inWord following : Bool}
    (apart : (inWord && gap.isEmpty) = (following && gap.isEmpty)) :
    definedFrom inWord (spacedFrom gap ((c, tag) :: lefts)) = definedFrom (isWord c) (spaced lefts) ∧
      definedFrom following (spacedFrom gap ((c, tag) :: rights)) = definedFrom (isWord c) (spaced rights) ∨
    ∃ covered after hidden rest name, (c, tag) :: lefts = covered ++ after ∧ (c, tag) :: rights = hidden ++ rest ∧
      covered ≠ [] ∧ SameCells after rest ∧
      definedFrom inWord (spacedFrom gap ((c, tag) :: lefts)) = name :: definedFrom true (spaced after) ∧
      definedFrom following (spacedFrom gap ((c, tag) :: rights)) = name :: definedFrom true (spaced rest) := by
  obtain ⟨before, known⟩ := exists_before (inWord && gap.isEmpty)
  have told := definition_same code same (bordered_cons.1 bordered).2 (bordered_cons.1 edged).2 before
  obtain ⟨fails, first⟩ | ⟨covered, after, name, whole, word, reads, first⟩ :=
    definesAlike_code bordered shown (fun _ => solid) code known
  · obtain ⟨-, second⟩ | ⟨_, _, _, -, -, finds, -⟩ :=
      definesAlike_code edged shows (fun _ => solid) code (known.trans apart)
    · exact .inl ⟨first, second⟩
    · rw [fails, finds] at told
      contradiction
  · obtain ⟨fails, -⟩ | ⟨hidden, rest, title, split, -, finds, second⟩ :=
      definesAlike_code edged shows (fun _ => solid) code (known.trans apart)
    · rw [reads, fails] at told
      contradiction
    · rw [reads, finds, Option.map_some, Option.map_some, Option.some.injEq, Prod.mk.injEq, List.length_map,
        List.length_map] at told
      obtain ⟨named, size⟩ := told
      have named : name = title := named
      have some_ : covered ≠ [] := by
        rintro rfl
        contradiction
      have both : SameCells ((c, tag) :: lefts) ((c, tag) :: rights) := .cons ⟨rfl, fun _ => rfl⟩ same
      rw [whole, split] at both
      refine .inr ⟨covered, after, hidden, rest, name, whole, split, some_, same_after both size, first, ?_⟩
      rw [second, named, List.singleton_append]

theorem not_isWord_of_endsString {c : Char} (ends : endsString c = true) : isWord c = false := by
  by_contra word
  rw [endsString_of_isWord (by simpa using word)] at ends
  contradiction

theorem definedFrom_same (same : SameCells lefts rights) (bordered : Bordered previous lefts)
    (edged : Bordered other rights) (shown : ∀ cell ∈ lefts, cell.2 ≠ .comment)
    (shows : ∀ cell ∈ rights, cell.2 ≠ .comment) {gap : List Char} {inWord following : Bool}
    (apart : gap = [] → ∀ cell ∈ lefts.head?, cell.2.isCode = true → inWord = following) :
    definedFrom inWord (spacedFrom gap lefts) = definedFrom following (spacedFrom gap rights) := by
  induction size : lefts.length using Nat.strongRecOn generalizing previous other lefts rights gap inWord following with
  | ind n shorter =>
    cases same with
    | nil => rw [spacedFrom, definedFrom, definedFrom]
    | @cons cell partner lefts rights here later =>
      obtain ⟨-, next⟩ := bordered_cons.1 bordered
      obtain ⟨-, follows⟩ := bordered_cons.1 edged
      obtain ⟨visible, more⟩ := List.forall_mem_cons.1 shown
      obtain ⟨seen, others⟩ := List.forall_mem_cons.1 shows
      have fewer : lefts.length < n := by rw [← size]; exact Nat.lt_succ_self _
      have further := SameCells.before_code later here next follows fun c => not_isWord_of_endsString
      have step : definedFrom (isWord cell.1) (spaced lefts) = definedFrom (isWord partner.1) (spaced rights) :=
        shorter _ fewer later next follows more others (fun _ => further) rfl
      cases code : cell.2.isCode with
      | false =>
        have other := here.isCode.symm.trans code
        rw [spacedFrom_solid visible (fun inCode => absurd inCode (by simp [code])),
          spacedFrom_solid seen (fun inCode => absurd inCode (by simp [other])),
          definedFrom_none (by simp [definedHere?, code]), definedFrom_none (by simp [definedHere?, other])]
        exact step
      | true =>
        obtain rfl := here.eq code
        obtain ⟨c, tag⟩ := cell
        cases blank : isBlank c with
        | true =>
          rw [spacedFrom_blank blank code, spacedFrom_blank blank code]
          exact shorter _ fewer later next follows more others (by simp) rfl
        | false =>
          have joined : (inWord && gap.isEmpty) = (following && gap.isEmpty) := by
            cases gap with
            | nil => rw [apart rfl _ rfl code]
            | cons c gap => simp
          obtain ⟨first, second⟩ | ⟨covered, after, hidden, rest, name, whole, split, some_, alike, first, second⟩ :=
            place_same code blank later bordered edged shown shows joined
          · rw [first, second]
            exact step
          · have positive := List.length_pos_iff.2 some_
            rw [whole] at size bordered shown
            rw [split] at edged shows
            rw [List.length_append] at size
            obtain ⟨last, ends⟩ := bordered.drop
            obtain ⟨final, stops⟩ := edged.drop
            rw [first, second]
            exact congrArg _ (shorter after.length (by omega) alike ends stops (List.forall_mem_append.1 shown).2
              (List.forall_mem_append.1 shows).2 (fun _ _ _ _ => rfl) rfl)

end Types

section Scanned

variable {carry following : Carry} {text other : List Char} (sound : carry.Sound) (other_sound : following.Sound)
  (same : SameCode (scanLine carry text) (scanLine following other))

include sound other_sound same

theorem told_ofLine? :
    (Binding.ofLine? (scanLine carry text) (scanLine carry text).uncommented).map Binding.told =
      (Binding.ofLine? (scanLine following other) (scanLine following other).uncommented).map Binding.told := by
  rw [sound.uncommented, other_sound.uncommented]
  exact Binding.told_firstPlaceFrom (SameCells.beforeComment same) (sound.bordered_beforeComment text)
    (other_sound.bordered_beforeComment other) (tagsFrom_scanLine carry text) (tagsFrom_scanLine following other)
    fun _ _ _ => rfl

theorem definedTypes_same : definedTypes (scanLine carry text) (scanLine carry text).uncommented =
    definedTypes (scanLine following other) (scanLine following other).uncommented := by
  have bordered := sound.bordered_beforeComment text
  have edged := other_sound.bordered_beforeComment other
  have shown {cells : List Cell} : ∀ cell ∈ beforeComment cells, cell.2 ≠ .comment := fun cell => ne_comment_of_mem
  rw [sound.uncommented, other_sound.uncommented]
  calc typesAt (scanLine carry text) 0 none ((beforeComment (scanLine carry text).cells).map (·.1))
      = definedFrom false (spaced (beforeComment (scanLine carry text).cells)) :=
        typesAt_spaced bordered shown (tagsFrom_scanLine carry text) rfl
    _ = definedFrom false (spaced (beforeComment (scanLine following other).cells)) :=
        definedFrom_same (SameCells.beforeComment same) bordered edged shown shown fun _ _ _ _ => rfl
    _ = typesAt (scanLine following other) 0 none ((beforeComment (scanLine following other).cells).map (·.1)) :=
        (typesAt_spaced edged shown (tagsFrom_scanLine following other) rfl).symm

end Scanned

/-- A symbol with its place and its kind, but nothing else of its value. -/
def Symbol.placed (symbol : Symbol) : Symbol := { symbol with type := .any, value := [] }

namespace Symbols

theorem placed_read? (line : Nat) (scan : Scan) : (read? line scan).map Symbol.placed =
    ((Binding.ofLine? scan scan.uncommented).map Binding.told).map fun (name, column, function) =>
      ⟨name, line, column, if function then .function else .plain, .any, []⟩ := by
  rw [read?, Option.map_map, Option.map_map]
  rfl

theorem placed_ofText {left right : List Char} (same : List.Forall₂ SameCode (scanText left) (scanText right)) :
    (ofText left).change Symbol.placed = (ofText right).change Symbol.placed := by
  have gathered (text : List Char) : (ofText text).change Symbol.placed =
      empty.gather (fun line scan => (read? line scan).map Symbol.placed) 0 (scanText text) := by
    rw [ofText, ofScans, addFrom_eq]
    exact @change_gather Symbol.placed (fun _ => rfl) (fun _ => rfl) read?
      (fun line scan => (read? line scan).map Symbol.placed) 0 _ (fun _ _ _ => rfl) empty
  rw [gathered, gathered]
  apply gather_congr
  obtain ⟨size, pairs⟩ := List.forall₂_iff_zip.1 same
  refine List.forall₂_iff_zip.2 ⟨size, fun {old new} paired => ?_⟩
  obtain ⟨first, second⟩ := List.of_mem_zip paired
  obtain ⟨carry, text, sound, -, rfl⟩ := exists_sound_scanLine Carry.sound_none first
  obtain ⟨following, other, sounds, -, rfl⟩ := exists_sound_scanLine Carry.sound_none second
  refine ⟨definedTypes_same sound sounds (pairs paired), fun line => ?_⟩
  rw [placed_read?, placed_read?, told_ofLine? sound sounds (pairs paired)]

end Symbols

theorem Quasi.ofScans_congr {left right : List Scan} (same : left.map Scan.blanked = right.map Scan.blanked) :
    Quasi.ofScans left = Quasi.ofScans right := by
  have read (scans : List Scan) (names : List Char → List (List Char)) :
      scans.flatMap (fun scan => names scan.blanked) = (scans.map Scan.blanked).flatMap names :=
    (List.flatMap_map Scan.blanked names scans).symm
  simp only [Quasi.ofScans, read, same]

end ArturoInsight
