import ArturoInsight.Overlay.Hints
import ArturoInsight.Proofs.Lexical.Outside
import ArturoInsight.Proofs.Symbol.Keys

/-! Where hints stand. A type stands behind the colon of its label and never in a string or a comment. The name of a
parameter stands before what its call has between blanks, which need not be an argument: the blanks may be those of a
string, and a semicolon may come first. -/

namespace ArturoInsight

open Text Lexical

namespace Hint

theorem exists_of_call {before : Option Char} {text after : List Char} {value : Call}
    (reads : call before text = some (value, after)) : ∃ gap,
      text = value.name ++ (gap ++ '[' :: (value.arguments ++ ']' :: after)) ∧
        value.offset = value.name.length + gap.length + 1 := by
  unfold call at reads
  obtain ⟨⟨name, tail⟩, word, reads⟩ := Option.bind_eq_some_iff.1 reads
  obtain ⟨⟨arguments, rest⟩, block, reads⟩ := Option.bind_eq_some_iff.1 reads
  obtain ⟨-, reads⟩ := Option.ite_none_left_eq_some.1 reads
  obtain ⟨rfl, rfl⟩ := Prod.mk.inj (Option.some.inj reads)
  obtain ⟨opened, opens, closes⟩ := Option.bind_eq_some_iff.1 block
  obtain ⟨gap, stop, rfl, blanks, stops⟩ := exists_run isBlank tail
  rw [trimStart_run blanks stops] at opens
  obtain rfl := after?_eq_some.1 opens
  obtain rfl := upTo?_eq_some closes
  obtain ⟨rfl, -⟩ := run?_eq_some.1 word
  exact ⟨gap, rfl, by rw [takeWhile_run blanks stops]⟩

theorem exists_head_of_value {rest : List Char}
    (valued : run? (· != ';') (trimStart rest) ≠ none ∨ rest.head?.any isBlank = true) :
    ∃ c back, rest = c :: back ∧ c ≠ ';' := by
  cases rest with
  | nil => simp [trimStart, run?] at valued
  | cons c back =>
    refine ⟨c, back, rfl, ?_⟩
    rintro rfl
    have solid : isBlank ';' = false := by decide
    simp [trimStart_cons solid, run?, solid] at valued

theorem exists_of_assignment {before : Option Char} {text after : List Char} {value : Assignment}
    (reads : assignment before text = some (value, after)) : ∃ tail gap c back,
      Name.label? text = some (value.name, tail) ∧ Blanks gap ∧ tail = gap ++ ':' :: c :: back ∧ c ≠ ';' ∧
        value.offset = value.name.length + gap.length := by
  unfold assignment at reads
  obtain ⟨⟨name, tail⟩, label, named⟩ := Option.bind_eq_some_iff.1 reads
  obtain ⟨rest, colon, valued⟩ := Option.bind_eq_some_iff.1 named
  obtain ⟨gap, stop, rfl, blanks, stops⟩ := exists_run isBlank tail
  dsimp only at colon valued
  rw [trimStart_run blanks stops] at colon
  rw [takeWhile_run blanks stops] at valued
  obtain rfl := after?_eq_some.1 colon
  split at valued
  next content rest' found =>
    obtain ⟨rfl, -⟩ := Prod.mk.inj (Option.some.inj valued)
    obtain ⟨c, back, rfl, other⟩ := exists_head_of_value (.inl (by rw [found]; exact Option.some_ne_none _))
    exact ⟨_, gap, c, back, label, blanks, rfl, other, rfl⟩
  next =>
    obtain ⟨blank, valued⟩ := Option.ite_none_right_eq_some.1 valued
    obtain ⟨rfl, -⟩ := Prod.mk.inj (Option.some.inj valued)
    obtain ⟨c, back, rfl, other⟩ := exists_head_of_value (.inr blank)
    exact ⟨_, gap, c, back, label, blanks, rfl, other, rfl⟩

/-- A hint in its line: behind a character that closes no string, and before another character. -/
structure Behind (line : Nat) (text : List Char) (hint : Hint) (front : List Char) (d c : Char) : Prop where
  position : hint.position = ⟨line, front.length + 1⟩
  text : ∃ back, text = front ++ d :: c :: back
  unclosed : endsString d = false

theorem exists_last_opened {first : List Char} (last : ∀ c ∈ first.getLast?, isBlank c = true) : ∃ before d,
    '[' :: first = before ++ [d] ∧ before.length = first.length ∧ endsString d = false := by
  cases first using List.reverseRecOn with
  | nil => exact ⟨[], '[', rfl, rfl, by decide⟩
  | append_singleton first d =>
    have blank : isBlank d = true := last d (by simp)
    refine ⟨'[' :: first, d, rfl, by simp, ?_⟩
    by_contra closes
    rw [not_isBlank_of_endsString (by simpa using closes)] at blank
    contradiction

theorem behind_of_mem_ofCalls {line : Nat} {scan : Scan} {hint : Hint} (member : hint ∈ ofCalls line scan) :
    hint.kind = .parameter ∧ ∃ front d c, Behind line scan.text hint front d c := by
  obtain ⟨found, inside, member⟩ := List.mem_flatMap.1 member
  dsimp only at member
  split_ifs at member with code
  · obtain ⟨⟨param, argument⟩, paired, rfl⟩ := List.mem_map.1 member
    obtain ⟨front, back, whole, start, after, reads⟩ := exists_of_mem_findsFrom inside
    obtain ⟨gap, rfl, offset⟩ := exists_of_call reads
    obtain ⟨first, rest, arguments, place, held, last⟩ :=
      exists_of_mem_runs (List.of_mem_zip paired).2 (.inl (by simp))
    obtain ⟨c, more, rfl⟩ : ∃ c more, rest = c :: more := by
      cases rest with
      | nil => contradiction
      | cons c more => exact ⟨c, more, rfl⟩
    obtain ⟨before, d, opened, size, unclosed⟩ := exists_last_opened (by simpa using last)
    refine ⟨rfl, front ++ found.value.name ++ gap ++ before, d, c, ?_, ⟨more ++ ']' :: after, ?_⟩, unclosed⟩
    · rw [start, offset, place]
      simp only [List.length_append]
      congr 1
      omega
    · have parts : front ++ found.value.name ++ gap ++ before ++ d :: c :: (more ++ ']' :: after) =
          front ++ found.value.name ++ gap ++ (before ++ [d]) ++ c :: (more ++ ']' :: after) := by simp
      rw [parts, ← opened, whole, arguments]
      simp
  · contradiction

theorem endsCode_of_label {text name tail : List Char} (label : Name.label? text = some (name, tail)) :
    text = name ++ tail ∧ ∀ c ∈ name, endsCode c = false := by
  obtain ⟨run, mark, rfl, -, parts, marked, rfl⟩ := exists_of_label? label
  refine ⟨(List.append_assoc _ _ _).symm, List.forall_mem_append.2 ⟨fun c member => ?_, ?_⟩⟩
  · obtain word | rfl : isWord c = true ∨ c = '-' := by simpa [isLabelPart] using parts c member
    · exact endsCode_of_isWord word
    · decide
  · obtain rfl | rfl := marked
    · exact List.forall_mem_nil _
    · decide

theorem behind_of_mem_ofAssignments {analysis : Analysis} {line : Nat} {carry : Carry} {text : List Char} {hint : Hint}
    (sound : carry.Sound) (member : hint ∈ ofAssignments analysis line (scanLine carry text)) :
    hint.kind = .type ∧ ∃ front c, Behind line text hint front ':' c ∧
      (scanLine carry text).codeAt front.length = true ∧ c ≠ ';' := by
  obtain ⟨found, inside, made⟩ := List.mem_filterMap.1 member
  split_ifs at made with left_out
  obtain ⟨symbol, -, made⟩ := Option.bind_eq_some_iff.1 made
  obtain ⟨-, made⟩ := Option.ite_none_left_eq_some.1 made
  have code : (scanLine carry text).codeAt found.start = true := by
    simp only [Bool.or_eq_true, not_or, Bool.not_eq_true, Bool.not_eq_false'] at left_out
    exact left_out.2
  obtain ⟨front, back, whole, start, after, reads⟩ := exists_of_mem_findsFrom inside
  obtain ⟨tail, gap, c, rest, label, blanks, rfl, other, offset⟩ := exists_of_assignment reads
  obtain ⟨rfl, plain⟩ := endsCode_of_label label
  rw [Nat.zero_add] at start
  rw [start] at code
  have parts : text = front ++ ((found.value.name ++ gap ++ [':']) ++ c :: rest) := by
    rw [Scan.text_scanLine] at whole
    simpa using whole
  have inCode : ∀ d ∈ found.value.name ++ gap ++ [':'], endsCode d = false :=
    List.forall_mem_append.2 ⟨List.forall_mem_append.2 ⟨plain, fun d held => endsCode_of_isBlank (blanks d held)⟩,
      by decide⟩
  refine ⟨by rw [← Option.some.inj made], front ++ found.value.name ++ gap, c, ⟨?_, ⟨rest, ?_⟩, by decide⟩, ?_, other⟩
  · rw [← Option.some.inj made, start, offset]
    simp only [List.length_append]
    congr 1
    omega
  · rw [parts]
    simp
  · apply codeAt_plain sound parts inCode code
    · simp only [List.length_append]
      omega
    · simp only [List.length_append, List.length_singleton]
      omega

theorem Behind.outside_iff {line : Nat} {carry : Carry} {text front : List Char} {hint : Hint} {d c : Char}
    (behind : Behind line text hint front d c) (sound : carry.Sound) : hint.position.character = front.length + 1 ∧
      text[front.length + 1]? = some c ∧ ((scanLine carry text).Outside (front.length + 1) ↔
        (scanLine carry text).codeAt front.length = true ∧ c ≠ ';') := by
  obtain ⟨back, whole⟩ := behind.text
  have first : text[front.length]? = some d := by
    rw [whole, getElem?_append_length]
    rfl
  have second : text[front.length + 1]? = some c := by
    have parts : text = (front ++ [d]) ++ c :: back := by simpa using whole
    have size : (front ++ [d]).length = front.length + 1 := List.length_append
    rw [parts, ← size, getElem?_append_length]
    rfl
  exact ⟨by rw [behind.position], second, outside_succ_iff sound first second behind.unclosed⟩

end Hint

theorem Analysis.exists_line_of_mem_hints {analysis : Analysis} {lines : Option (Nat × Nat)} {parameters types : Bool}
    {hint : Hint} (member : hint ∈ analysis.hints lines parameters types) : ∃ line scan,
      analysis.scans[line]? = some scan ∧
        (hint ∈ Hint.ofCalls line scan ∨ hint ∈ Hint.ofAssignments analysis line scan) := by
  obtain ⟨⟨scan, line⟩, inside, member⟩ := List.mem_flatMap.1 member
  refine ⟨line, scan, List.mk_mem_zipIdx_iff_getElem?.1 inside, ?_⟩
  dsimp only at member
  split at member
  · contradiction
  · refine (List.mem_append.1 member).imp (fun called => ?_) fun assigned => ?_
    · split_ifs at called
      · exact called
      · contradiction
    · split_ifs at assigned
      · exact assigned
      · contradiction

/-- Every hint stands within a line and behind another character. It stays out of strings and comments where that
character is code and no semicolon follows, as it does behind the colon of every type; elsewhere it is inside one. -/
theorem hints_outside_iff (uri : String) (text : List Char) (linter : Linter) (version : Option Int)
    (lines : Option (Nat × Nat)) (parameters types : Bool) :
    let analysis := Analysis.ofText uri text linter version
    ∀ hint ∈ analysis.hints lines parameters types, ∃ scan, analysis.scans[hint.position.line]? = some scan ∧
      ∃ column c, hint.position.character = column + 1 ∧ scan.text[column + 1]? = some c ∧
        (scan.Outside (column + 1) ↔ scan.codeAt column = true ∧ c ≠ ';') ∧
        (hint.kind = .type → scan.Outside (column + 1)) := by
  intro analysis hint member
  obtain ⟨line, scan, held, member⟩ := Analysis.exists_line_of_mem_hints member
  obtain ⟨carry, content, sound, -, rfl⟩ := exists_sound_scanLine Carry.sound_none (List.mem_of_getElem? held)
  rcases member with called | assigned
  · obtain ⟨kind, front, d, c, behind⟩ := Hint.behind_of_mem_ofCalls called
    obtain ⟨column, char, outside⟩ := behind.outside_iff sound
    refine ⟨_, by rw [behind.position]; exact held, front.length, c, column, char, outside, fun type => ?_⟩
    rw [kind] at type
    contradiction
  · obtain ⟨-, front, c, behind, code, other⟩ := Hint.behind_of_mem_ofAssignments sound assigned
    obtain ⟨column, char, outside⟩ := behind.outside_iff sound
    exact ⟨_, by rw [behind.position]; exact held, front.length, c, column, char, outside,
      fun _ => outside.2 ⟨code, other⟩⟩

theorem hints_outside_iff_string :
    let analysis := Analysis.ofText "main.art" "add [1 \"a b\"]".toList Linter.default none
    let hint : Hint := ⟨⟨0, 7⟩, "b:", .parameter⟩
    hint ∈ analysis.hints none true true ∧
      ∃ scan, analysis.scans[hint.position.line]? = some scan ∧ scan.Outside hint.position.character := by
  intro analysis hint
  have member : hint ∈ analysis.hints none true true := by decide +kernel
  obtain ⟨scan, held, column, c, place, char, outside, -⟩ :=
    hints_outside_iff "main.art" "add [1 \"a b\"]".toList Linter.default none none true true hint member
  have whole : analysis.scans[hint.position.line]? = some (scanLine .none "add [1 \"a b\"]".toList) := by decide +kernel
  obtain rfl : scan = scanLine .none "add [1 \"a b\"]".toList := Option.some.inj (held.symm.trans whole)
  obtain rfl : column = 6 := by simpa [hint] using place.symm
  obtain rfl : c = '\x22' := Option.some.inj (char.symm.trans (by decide +kernel))
  rw [place]
  exact ⟨member, _, held, outside.2 (by decide +kernel)⟩

/-- The blank of a string parts it into two arguments, and the second name stands before what comes after that blank. -/
theorem hint_inside_string :
    let analysis := Analysis.ofText "main.art" "add [\"a b\" 1]".toList Linter.default none
    let scan := scanLine .none "add [\"a b\" 1]".toList
    let hint : Hint := ⟨⟨0, 8⟩, "b:", .parameter⟩
    hint ∈ analysis.hints none true true ∧ analysis.scans[hint.position.line]? = some scan ∧
      ¬ scan.Outside hint.position.character := by
  decide +kernel

end ArturoInsight
