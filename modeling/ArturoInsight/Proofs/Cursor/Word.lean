import ArturoInsight.Proofs.Cursor.Rename
import ArturoInsight.Proofs.Lexical.WellFormed

/-! The word at a cursor. It is the same wherever in the word the cursor is: the name characters around the cursor,
as many as there are, with the question mark that closes them and without the minus signs that they start with. -/

namespace ArturoInsight

open Text Lexical

/-- Where a word stands in a line, after minus signs perhaps. No name character stands before the signs, and the word
goes as far as it can. -/
structure SignedWord (front signs word back : List Char) : Prop where
  left : ∀ c ∈ front.getLast?, isNamePart c = false
  signs : ∀ c ∈ signs, c = '-'
  taken : Name.Taken back word
  starts : word.head? ≠ some '-'

/-- What may stand after name characters: a question mark, or nothing that goes on with them. -/
def Ends (mark back : List Char) : Prop :=
  mark = ['?'] ∨ mark = [] ∧ ∀ c ∈ back.head?, isNamePart c = false ∧ c ≠ '?'

theorem taken_iff_exists_ends {back word : List Char} : Name.Taken back word ↔ ∃ run mark, word = run ++ mark ∧
    run ≠ [] ∧ (∀ c ∈ run, isNamePart c = true) ∧ Ends mark back := by
  constructor
  · intro taken
    cases taken with
    | @marked run some_ parts => exact ⟨run, ['?'], rfl, some_, parts, .inl rfl⟩
    | plain some_ parts ends => exact ⟨word, [], (List.append_nil _).symm, some_, parts, .inr ⟨rfl, ends⟩⟩
  · rintro ⟨run, mark, rfl, some_, parts, rfl | ⟨rfl, ends⟩⟩
    · exact .marked some_ parts
    · rw [List.append_nil]
      exact .plain some_ parts ends

section Parts

theorem ne_of_isNamePart {c : Char} (part : isNamePart c = true) : c ≠ '?' ∧ c ≠ '\n' := by
  constructor <;> rintro rfl <;> exact absurd part (by decide)

theorem wordBefore_append {front run mark : List Char} (left : ∀ c ∈ front.getLast?, isNamePart c = false ∧ c ≠ '\n')
    (parts : ∀ c ∈ run, isNamePart c = true) (marked : mark = ['?'] ∨ mark = [] ∧
      (run = [] → front.getLast? ≠ some '?')) :
    wordBefore (front ++ (run ++ mark)) = if run = [] then [] else run ++ mark := by
  have takes : ((front ++ run).reverse.takeWhile isNamePart).reverse = run := by
    rw [List.reverse_append, takeWhile_run (by simpa using parts) fun c head => ?_, List.reverse_reverse]
    exact (left c (by simpa using head)).1
  have last : ∀ c ∈ (front ++ run).getLast?, c ≠ '\n' ∧ (mark = [] → c ≠ '?') := by
    intro c last
    obtain rfl | ⟨run, d, rfl⟩ := List.eq_nil_or_concat' run
    · rw [List.append_nil] at last
      refine ⟨(left c last).2, fun unmarked => ?_⟩
      rintro rfl
      obtain rfl | ⟨-, bare⟩ := marked
      · contradiction
      · exact bare rfl last
    · rw [← List.append_assoc, List.getLast?_concat, Option.mem_some_iff] at last
      obtain ⟨mark, feed⟩ := ne_of_isNamePart (parts c (by simp [last]))
      exact ⟨feed, fun _ => mark⟩
  obtain rfl | ⟨rfl, -⟩ := marked
  · have closed : dropFinalFeed (front ++ (run ++ ['?'])) = front ++ run ++ ['?'] := by
      rw [dropFinalFeed, ← List.append_assoc, List.getLast?_concat, if_neg (by decide)]
    simp only [wordBefore, closed, List.getLast?_concat, List.dropLast_concat, if_true, takes]
    cases run <;> rfl
  · have open_ : dropFinalFeed (front ++ run) = front ++ run := if_neg fun feed => (last _ feed).1 rfl
    have unmarked : (front ++ run).getLast? ≠ some '?' := fun mark => (last _ mark).2 rfl rfl
    simp only [wordBefore, List.append_nil, open_, if_neg unmarked, takes]
    cases run <;> simp

theorem wordAfter_append {run mark back : List Char} (parts : ∀ c ∈ run, isNamePart c = true)
    (ends : Ends mark back) : wordAfter (run ++ (mark ++ back)) = run ++ mark := by
  have stops : ∀ c ∈ (mark ++ back).head?, isNamePart c = false := by
    obtain rfl | ⟨rfl, ends⟩ := ends
    · simp +decide
    · exact fun c head => (ends c head).1
  rw [wordAfter, takeWhile_run parts stops, dropWhile_run parts stops]
  obtain rfl | ⟨rfl, ends⟩ := ends
  · rfl
  · cases back with
    | nil => rfl
    | cons c back =>
      have other : c ≠ '?' := (ends c rfl).2
      simp [question, other]

theorem exists_trailing (text : List Char) : ∃ front run mark, text = front ++ (run ++ mark) ∧
    (∀ c ∈ front.getLast?, isNamePart c = false) ∧ (∀ c ∈ run, isNamePart c = true) ∧
    (mark = ['?'] ∨ mark = [] ∧ text.getLast? ≠ some '?') := by
  have splits (core : List Char) : ∃ front run, core = front ++ run ∧
      (∀ c ∈ front.getLast?, isNamePart c = false) ∧ ∀ c ∈ run, isNamePart c = true := by
    obtain ⟨run, front, whole, parts, stops⟩ := exists_run isNamePart core.reverse
    refine ⟨front.reverse, run.reverse, ?_, by simpa using stops, by simpa using parts⟩
    rw [← List.reverse_append, ← whole, List.reverse_reverse]
  by_cases marked : text.getLast? = some '?'
  · obtain ⟨core, rfl⟩ := List.getLast?_eq_some_iff.1 marked
    obtain ⟨front, run, rfl, left, parts⟩ := splits core
    exact ⟨front, run, ['?'], List.append_assoc .., left, parts, .inl rfl⟩
  · obtain ⟨front, run, rfl, left, parts⟩ := splits text
    exact ⟨front, run, [], by rw [List.append_nil], left, parts, .inr ⟨rfl, marked⟩⟩

theorem exists_leading (text : List Char) : ∃ run mark back, text = run ++ (mark ++ back) ∧
    (∀ c ∈ run, isNamePart c = true) ∧ Ends mark back := by
  obtain ⟨run, rest, rfl, parts, stops⟩ := exists_run isNamePart text
  by_cases marked : rest.head? = some '?'
  · obtain ⟨back, rfl⟩ := List.head?_eq_some_iff.1 marked
    exact ⟨run, ['?'], back, rfl, parts, .inl rfl⟩
  · refine ⟨run, [], rest, rfl, parts, .inr ⟨rfl, fun c head => ⟨stops c head, ?_⟩⟩⟩
    rintro rfl
    exact marked head

end Parts

def WordSpan.ofRun? (line place : Nat) (run : List Char) : Option WordSpan :=
  let word := run.dropWhile (· == '-')
  if word.isEmpty || word == ['?'] then none else some ⟨word, line, place + (run.length - word.length)⟩

/-- The name characters around a cursor with what closes them, which are all that the cursor reads. -/
structure Around (text : List Char) (cursor : Nat) (front run mark back : List Char) : Prop where
  whole : text = front ++ (run ++ mark ++ back)
  left : ∀ c ∈ front.getLast?, isNamePart c = false ∧ c ≠ '\n'
  parts : ∀ c ∈ run, isNamePart c = true
  ends : Ends mark back
  low : front.length ≤ cursor
  high : cursor ≤ front.length + (run ++ mark).length
  reads : ∀ line, wordAt text cursor line = WordSpan.ofRun? line front.length (run ++ mark)

section Around

variable {front run before after mark back : List Char}

theorem wordAt_append (before after : List Char) (line : Nat) :
    wordAt (before ++ after) before.length line = WordSpan.ofRun? line (before.length - (wordBefore before).length)
      (if (wordBefore before).getLast? = some '?' then wordBefore before
        else wordBefore before ++ wordAfter after) := by
  have cursor : min ((before.length : Int)).toNat (before ++ after).length = before.length := by simp
  rw [wordAt, cursor, List.take_left, List.drop_left]
  rfl

theorem around_inside (left : ∀ c ∈ front.getLast?, isNamePart c = false ∧ c ≠ '\n')
    (bare : before = [] → wordBefore front = []) (parts : ∀ c ∈ before ++ after, isNamePart c = true)
    (ends : Ends mark back) : Around ((front ++ before) ++ (after ++ (mark ++ back))) (front ++ before).length
      front (before ++ after) mark back := by
  obtain ⟨first, second⟩ := List.forall_mem_append.1 parts
  have word : wordBefore (front ++ before) = before := by
    by_cases none : before = []
    · rw [none, List.append_nil, bare none]
    · have taken := wordBefore_append left first (.inr ⟨rfl, fun nothing => absurd nothing none⟩)
      rwa [List.append_nil, if_neg none] at taken
  have unmarked : before.getLast? ≠ some '?' := fun mark =>
    (ne_of_isNamePart (first _ (List.mem_of_getLast? mark))).1 rfl
  refine ⟨by simp, left, parts, ends, by simp, by simp, fun line => ?_⟩
  rw [wordAt_append, word, if_neg unmarked, wordAfter_append second ends, List.length_append, Nat.add_sub_cancel,
    List.append_assoc]

theorem around_closed (left : ∀ c ∈ front.getLast?, isNamePart c = false ∧ c ≠ '\n') (some_ : run ≠ [])
    (parts : ∀ c ∈ run, isNamePart c = true) (back : List Char) :
    Around ((front ++ (run ++ ['?'])) ++ back) (front ++ (run ++ ['?'])).length front run ['?'] back := by
  have word := wordBefore_append left parts (.inl rfl)
  rw [if_neg some_] at word
  refine ⟨List.append_assoc .., left, parts, .inl rfl, by simp, by simp, fun line => ?_⟩
  rw [wordAt_append, word, if_pos (List.getLast?_concat ..), List.length_append, Nat.add_sub_cancel]

theorem wordBefore_of_bare (left : ∀ c ∈ front.getLast?, isNamePart c = false ∧ c ≠ '\n')
    (bare : front.getLast? ≠ some '?') : wordBefore front = [] := by
  have taken := @wordBefore_append front [] [] left (by simp) (.inr ⟨rfl, fun _ => bare⟩)
  simpa using taken

theorem exists_around (feeds : '\n' ∉ before) (after : List Char) :
    ∃ front run mark back, Around (before ++ after) before.length front run mark back := by
  obtain ⟨front, run, mark, rfl, left, parts, marked⟩ := exists_trailing before
  obtain ⟨more, closing, back, rfl, rest, ends⟩ := exists_leading after
  have left : ∀ c ∈ front.getLast?, isNamePart c = false ∧ c ≠ '\n' := fun c last =>
    ⟨left c last, fun feed => feeds (feed ▸ List.mem_append_left _ (List.mem_of_getLast? last))⟩
  obtain rfl | ⟨rfl, unmarked⟩ := marked
  · by_cases none : run = []
    · subst none
      have nothing : wordBefore (front ++ ['?']) = [] := by
        simpa using wordBefore_append left (List.forall_mem_nil _) (.inl rfl)
      have closed : ∀ c ∈ (front ++ ['?']).getLast?, isNamePart c = false ∧ c ≠ '\n' := by simp +decide
      have around := @around_inside (front ++ ['?']) [] more closing back closed (fun _ => nothing) rest ends
      rw [List.append_nil] at around
      exact ⟨_, _, _, _, around⟩
    · exact ⟨_, _, _, _, around_closed left none parts _⟩
  · rw [List.append_nil] at unmarked ⊢
    have bare (none : run = []) : wordBefore front = [] :=
      wordBefore_of_bare left (by rwa [none, List.append_nil] at unmarked)
    exact ⟨_, _, _, _, around_inside left bare (List.forall_mem_append.2 ⟨parts, rest⟩) ends⟩

end Around

theorem wordAt_min (text : List Char) (character : Int) (line : Nat) :
    wordAt text character line = wordAt text (min character.toNat text.length : Nat) line := by
  have cursor : min (((min character.toNat text.length : Nat) : Int).toNat) text.length =
      min character.toNat text.length := by
    rw [Int.toNat_natCast]
    exact Nat.min_eq_left (Nat.min_le_right ..)
  rw [wordAt, wordAt, cursor]

namespace SignedWord

variable {front signs word back : List Char} (stands : SignedWord front signs word back)

include stands

theorem isNamePart_signs : ∀ c ∈ signs, isNamePart c = true := fun c member => by
  rw [stands.signs c member]
  decide

theorem ofRun?_eq (line place : Nat) :
    WordSpan.ofRun? line place (signs ++ word) = some ⟨word, line, place + signs.length⟩ := by
  have drops : (signs ++ word).dropWhile (· == '-') = word := by
    refine dropWhile_run (by simpa using stands.signs) fun c head => beq_eq_false_iff_ne.2 ?_
    rintro rfl
    exact stands.starts head
  have plain : IsPlain word := stands.taken.before (by simp)
  have other : word ≠ ['?'] := by
    rintro rfl
    exact absurd (plain.isNamePart_head '?' rfl) (by decide)
  simp only [WordSpan.ofRun?, drops, List.length_append, Nat.add_sub_cancel]
  rw [if_neg (by simp [other, plain.ne_nil])]

theorem wordAt_eq (feeds : front.getLast? ≠ some '\n') {cursor : Nat} (low : front.length ≤ cursor)
    (high : cursor ≤ front.length + signs.length + word.length)
    (apart : cursor = front.length → front.getLast? ≠ some '?') (line : Nat) :
    wordAt (front ++ (signs ++ (word ++ back))) cursor line = some ⟨word, line, front.length + signs.length⟩ := by
  have left : ∀ c ∈ front.getLast?, isNamePart c = false ∧ c ≠ '\n' := fun c last =>
    ⟨stands.left c last, fun feed => feeds (feed ▸ last)⟩
  obtain ⟨run, mark, rfl, some_, parts, ends⟩ := taken_iff_exists_ends.1 stands.taken
  have parts : ∀ c ∈ signs ++ run, isNamePart c = true :=
    List.forall_mem_append.2 ⟨stands.isNamePart_signs, parts⟩
  rw [← stands.ofRun?_eq, ← List.append_assoc signs run mark]
  rw [List.length_append] at high
  by_cases inside : cursor ≤ front.length + (signs.length + run.length)
  · obtain ⟨before, after, split, size⟩ : ∃ before after, signs ++ run = before ++ after ∧
        cursor = front.length + before.length := by
      refine ⟨_, _, (List.take_append_drop (cursor - front.length) _).symm, ?_⟩
      simp only [List.length_take, List.length_append]
      omega
    have bare (none : before = []) : wordBefore front = [] := by
      rw [none, List.length_nil, Nat.add_zero] at size
      exact wordBefore_of_bare left (apart size)
    have found := (@around_inside front before after mark back left bare (split ▸ parts) ends).reads line
    rw [List.length_append, ← size, ← split] at found
    rw [← found]
    congr 1
    calc front ++ (signs ++ (run ++ mark ++ back)) = front ++ (signs ++ run) ++ (mark ++ back) := by simp
      _ = front ++ (before ++ after) ++ (mark ++ back) := by rw [split]
      _ = front ++ before ++ (after ++ (mark ++ back)) := by simp
  · obtain rfl | ⟨rfl, -⟩ := ends
    · have size : cursor = (front ++ (signs ++ run ++ ['?'])).length := by
        simp only [List.length_append, List.length_singleton] at high ⊢
        omega
      have found := (@around_closed front (signs ++ run) left (by simp [some_]) parts back).reads line
      rw [size, ← found]
      simp
    · rw [List.length_nil] at high
      omega

end SignedWord

section Found

variable {text front run mark back : List Char} {line : Nat} {span : WordSpan}

theorem exists_of_ofRun? {place : Nat} (left : ∀ c ∈ front.getLast?, isNamePart c = false)
    (parts : ∀ c ∈ run, isNamePart c = true) (ends : Ends mark back)
    (found : WordSpan.ofRun? line place (run ++ mark) = some span) :
    ∃ signs, SignedWord front signs span.word back ∧ run ++ mark = signs ++ span.word ∧
      span = ⟨span.word, line, place + signs.length⟩ := by
  obtain ⟨signs, rest, rfl, signed, stops⟩ := exists_run (· == '-') run
  simp only [beq_iff_eq, beq_eq_false_iff_ne] at signed stops
  have starts : (rest ++ mark).head? ≠ some '-' := by
    cases rest with
    | nil => obtain rfl | ⟨rfl, -⟩ := ends <;> simp
    | cons c rest => exact fun head => stops c rfl (Option.some.inj head)
  have drops : (signs ++ rest ++ mark).dropWhile (· == '-') = rest ++ mark := by
    rw [List.append_assoc]
    refine dropWhile_run (by simpa using signed) fun c head => beq_eq_false_iff_ne.2 ?_
    rintro rfl
    exact starts head
  simp only [WordSpan.ofRun?, drops, Option.ite_none_left_eq_some, Option.some.injEq, Bool.or_eq_true,
    List.isEmpty_iff, beq_iff_eq, not_or] at found
  obtain ⟨⟨some_, more⟩, rfl⟩ := found
  have kept : rest ≠ [] := by
    rintro rfl
    obtain rfl | ⟨rfl, -⟩ := ends
    · exact more rfl
    · exact some_ rfl
  refine ⟨signs, ⟨left, signed, ?_, starts⟩, List.append_assoc .., ?_⟩
  · exact taken_iff_exists_ends.2 ⟨rest, mark, rfl, kept, (List.forall_mem_append.1 parts).2, ends⟩
  · rw [List.append_assoc, List.length_append, Nat.add_sub_cancel]

theorem exists_of_wordAt (feeds : '\n' ∉ text) {character : Int} (found : wordAt text character line = some span) :
    ∃ front signs back, SignedWord front signs span.word back ∧ text = front ++ (signs ++ (span.word ++ back)) ∧
      span = ⟨span.word, line, front.length + signs.length⟩ ∧ front.length ≤ min character.toNat text.length ∧
      min character.toNat text.length ≤ span.stop := by
  have size : (text.take (min character.toNat text.length)).length = min character.toNat text.length :=
    List.length_take_of_le (Nat.min_le_right ..)
  obtain ⟨front, run, mark, back, around⟩ := exists_around (fun feed => feeds (List.mem_of_mem_take feed))
    (text.drop (min character.toNat text.length))
  rw [List.take_append_drop, size] at around
  rw [wordAt_min, around.reads] at found
  obtain ⟨signs, stands, split, place⟩ := exists_of_ofRun? (fun c last => (around.left c last).1) around.parts
    around.ends found
  refine ⟨front, signs, back, stands, by rw [around.whole, split, List.append_assoc], place, around.low, ?_⟩
  have high := around.high
  rw [split] at high
  rw [WordSpan.stop, place]
  simpa [Nat.add_assoc] using high

end Found

section Document

theorem Analysis.mem_occurrences {analysis : Analysis} {word : List Char} {span : WordSpan} :
    span ∈ analysis.occurrences word ↔ span.word = word ∧
      ∃ scan, analysis.scans[span.line]? = some scan ∧ span.start ∈ columnsOf word scan := by
  simp only [occurrences, List.mem_flatMap, List.mem_map]
  constructor
  · rintro ⟨⟨scan, line⟩, member, column, inside, rfl⟩
    exact ⟨rfl, scan, List.mk_mem_zipIdx_iff_getElem?.1 member, inside⟩
  · rintro ⟨rfl, scan, found, inside⟩
    exact ⟨(scan, span.line), List.mk_mem_zipIdx_iff_getElem?.2 found, span.start, inside, rfl⟩

theorem getElem?_before {front back : List Char} {c : Char} :
    (∃ index, index + 1 = front.length ∧ (front ++ back)[index]? = some c) ↔ c ∈ front.getLast? := by
  rw [List.getLast?_eq_getElem?]
  constructor
  · rintro ⟨index, next, found⟩
    rw [List.getElem?_append_left (by omega)] at found
    rwa [← next]
  · intro last
    have inside := (List.getElem?_eq_some_iff.1 last).1
    exact ⟨front.length - 1, by omega, by rwa [List.getElem?_append_left inside]⟩

theorem WordSpan.before?_append {span : WordSpan} {front : List Char} (start : span.start = front.length)
    (back : List Char) : span.before? (front ++ back) = front.getLast? := by
  ext c
  rw [← Option.mem_def, ← Option.mem_def, ← @getElem?_before front back, before?, start]
  cases front.length with
  | zero => simp
  | succ index => simp

theorem mem_columnsOf_iff {scan : Scan} {word : List Char} (plain : IsPlain word) {column : Nat} :
    column ∈ columnsOf word scan ↔ ∃ front back, scan.text = front ++ (word ++ back) ∧ column = front.length ∧
      (∀ c ∈ front.getLast?, isNamePart c = false ∧ c ≠ '\x27' ∧ c ≠ '\x60') ∧
      (∀ c ∈ back.head?, isNamePart c = false ∧ c ≠ '?') ∧ scan.codeAt column = true := by
  unfold columnsOf
  rw [List.mem_filter, mem_starts_finds plain, Bool.and_eq_true, unquoted_iff]
  constructor
  · rintro ⟨⟨front, back, whole, rfl, left, right⟩, code, unquoted⟩
    refine ⟨front, back, whole, rfl, fun c last => ⟨left c last, ?_⟩, right, code⟩
    obtain ⟨index, next, found⟩ := (@getElem?_before front (word ++ back) c).2 last
    exact unquoted index next c (whole ▸ found)
  · rintro ⟨front, back, whole, rfl, left, right, code⟩
    refine ⟨⟨front, back, whole, rfl, fun c last => (left c last).1, right⟩, code, fun index next c found => ?_⟩
    rw [whole] at found
    exact (left c (getElem?_before.1 ⟨index, next, found⟩)).2

theorem lineText_of_getElem? {analysis : Analysis} {line : Nat} {scan : Scan}
    (found : analysis.scans[line]? = some scan) : analysis.lineText line = scan.text := by
  rw [Analysis.lineText, if_neg (by omega), Int.toNat_natCast, Analysis.line?, found]
  rfl

theorem isCodeAt_of_getElem? {analysis : Analysis} {line : Nat} {scan : Scan}
    (found : analysis.scans[line]? = some scan) (column : Nat) :
    analysis.isCodeAt line column = scan.codeAt column := by
  rw [Analysis.isCodeAt, Analysis.scan?, if_neg (by omega), Int.toNat_natCast, found]
  rfl

theorem feeds_of_getElem? {uri : String} {text : List Char} {linter : Linter} {version : Option Int} {line : Nat}
    {scan : Scan} (found : (Analysis.ofText uri text linter version).scans[line]? = some scan) :
    '\n' ∉ scan.text := by
  have member : scan.text ∈ Text.lines text := by
    rw [← lines_eq uri text linter version]
    exact List.mem_map_of_mem (List.mem_of_getElem? found)
  exact (isLine_of_mem_lines member).feeds

end Document

end ArturoInsight
