import ArturoInsight.Proofs.Cursor.Use
import ArturoInsight.Proofs.Lint.Operation
import ArturoInsight.Proofs.Lint.Order
import ArturoInsight.Proofs.Lint.Uses

/-! Where issues stand: each on one line of the document and inside it. An undefined word is covered from its first
character to its last, all of them plain code, and no two such words overlap; an operator is reported to the end of its
line, and no line has two. -/

namespace ArturoInsight

open Text Lexical

/-- An issue stands on one line of the document and does not end beyond it. -/
structure Issue.Within (source : Source) (scan : Scan) (issue : Issue) : Prop where
  held : source.scans[issue.line]? = some scan
  single : issue.endLine = issue.line
  ordered : issue.column ≤ issue.endColumn
  inside : issue.endColumn ≤ scan.text.length

theorem Brackets.exists_within {source : Source} {issue : Issue} (member : issue ∈ Brackets.check source) :
    ∃ scan, issue.Within source scan := by
  unfold check at member
  cases found : source.scans.getLast? with
  | none =>
    rw [found] at member
    contradiction
  | some last =>
    simp only [found] at member
    split_ifs at member
    · contradiction
    · rw [List.getLast?_eq_getElem?] at found
      rw [List.mem_singleton.1 member]
      exact ⟨last, found, rfl, Nat.zero_le _, le_rfl⟩

namespace Undefined

/-- An issue covers a word and names it, and every character of the word is code outside blocks. -/
structure Covering (scan : Scan) (issue : Issue) (word : List Char) : Prop where
  message : issue.message = message word
  text : (scan.text.drop issue.column).take (issue.endColumn - issue.column) = word
  code : ∀ place, issue.column ≤ place → place < issue.endColumn → scan.tags[place]? = some .code

theorem getElem?_tags_word {carry : Carry} {text front word tail : List Char} (sound : carry.Sound)
    (whole : text = front ++ (word ++ tail)) (plain : IsPlain word)
    (code : (scanLine carry text).tagAt front.length = .code) {place : Nat} (low : front.length ≤ place)
    (high : place < front.length + word.length) : (scanLine carry text).tags[place]? = some .code := by
  have rest : ((scanLine carry text).cells.drop front.length).map (·.1) = word ++ tail := by
    rw [List.map_drop, map_fst_cells, whole, List.drop_left]
  obtain ⟨c, more, same⟩ := List.exists_cons_of_ne_nil plain.ne_nil
  obtain ⟨tag, here⟩ : ∃ tag, (scanLine carry text).cells[front.length]? = some (c, tag) := by
    apply exists_getElem?_cells
    rw [whole, same, getElem?_append_length]
    rfl
  have first : tag = .code := by
    have tagged := (List.getElem?_zip_eq_some.1 here).2
    rw [Scan.tagAt, List.getD_eq_getElem?_getD, Int.toNat_natCast, tagged] at code
    exact code
  rw [first] at here
  obtain ⟨after, covers⟩ := Scans.mark_prefix (sound.fits _) (scans_cells_scanLine carry text) plain.inert rest here rfl
  obtain ⟨index, rfl⟩ := Nat.exists_eq_add_of_le low
  have inside : index < (mark .code word).length := by
    rw [mark, List.length_map]
    exact Nat.lt_of_add_lt_add_left high
  have cell : (scanLine carry text).cells[front.length + index]? = some ((mark .code word)[index]) := by
    rw [← List.getElem?_drop, ← covers, List.getElem?_append_left inside, List.getElem?_eq_getElem inside]
  have tagged := (List.getElem?_zip_eq_some.1 cell).2
  simpa [mark] using tagged

theorem text_of_read {scan : Scan} {found : Found Use} (read : found ∈ finds use scan.uncommented) :
    (scan.text.drop found.start).take (found.stop - found.start) = found.value.word := by
  obtain ⟨front, tail, stands⟩ := exists_stands read
  obtain ⟨comment, shown⟩ := uncommented_prefix scan
  have columns : found.stop - found.start = found.value.word.length := by
    rw [stands.start, stands.stop, Nat.add_sub_cancel_left]
  rw [columns, stands.start, ← shown, stands.whole, List.append_assoc, List.append_assoc, List.drop_left,
    List.take_left]

theorem exists_reported {source : Source} {carry : Carry} {text : List Char} {line : Nat} {issue : Issue}
    (sound : carry.Sound) (held : source.scans[line]? = some (scanLine carry text))
    (member : issue ∈ ofLine source line (scanLine carry text)) :
    issue.Within source (scanLine carry text) ∧ ∃ word, Covering (scanLine carry text) issue word := by
  obtain ⟨found, read, -, named, rfl⟩ := mem_ofLine.1 member
  obtain ⟨front, tail, stands⟩ := exists_stands read
  obtain ⟨comment, shown⟩ := uncommented_prefix (scanLine carry text)
  have whole : text = front ++ (found.value.word ++ (tail ++ comment)) := by
    rw [stands.whole, Scan.text_scanLine] at shown
    simpa using shown.symm
  have plain : IsPlain found.value.word := stands.taken.before (by simp)
  have code : (scanLine carry text).tagAt front.length = .code := by
    rw [← stands.start]
    exact (isExempt_eq_false.1 named).2.1
  have columns : found.stop = found.start + found.value.word.length := by rw [stands.start, stands.stop]
  have ordered : found.start ≤ found.stop := columns ▸ Nat.le_add_right _ _
  have inside : found.stop ≤ text.length := by
    rw [stands.stop, whole, List.length_append, List.length_append]
    omega
  refine ⟨⟨held, rfl, ordered, inside⟩, found.value.word, rfl, text_of_read read, fun place low high => ?_⟩
  change found.start ≤ place at low
  change place < found.stop at high
  rw [stands.start] at low
  rw [stands.stop] at high
  exact getElem?_tags_word sound whole plain code low high

theorem endColumn_le_of_lt {source : Source} {line : Nat} {scan : Scan} {left right : Issue}
    (first : left ∈ ofLine source line scan) (second : right ∈ ofLine source line scan)
    (earlier : left.column < right.column) : left.endColumn ≤ right.column := by
  obtain ⟨word, read, -, -, rfl⟩ := mem_ofLine.1 first
  obtain ⟨other, among, -, -, rfl⟩ := mem_ofLine.1 second
  exact stop_le_of_start_lt read among earlier

end Undefined

theorem Operands.exists_reported {source : Source} {line : Nat} {scan : Scan} {issue : Issue}
    (held : source.scans[line]? = some scan) (member : issue ∈ ofLine source line scan) :
    issue.Within source scan ∧ ∃ operation, Reported source scan issue operation := by
  obtain ⟨front, spelling, -, -, reported⟩ := exists_of_mem_ofLine member
  obtain ⟨operation, left, right, -, -, -, -, issued⟩ := mem_ofLine.1 member
  obtain ⟨sign, char, -⟩ := reported.sign
  have inside : issue.column < scan.text.length := (List.getElem?_eq_some_iff.1 char).1
  refine ⟨⟨?_, ?_, ?_, ?_⟩, _, reported⟩
  · rw [issued]
    exact held
  · rw [issued]
    rfl
  · rw [reported.stop]
    exact Nat.le_of_lt inside
  · exact Nat.le_of_eq reported.stop

theorem Operands.eq_of_mem_ofLine {source : Source} {line : Nat} {scan : Scan} {left right : Issue}
    (first : left ∈ ofLine source line scan) (second : right ∈ ofLine source line scan) : left = right := by
  rcases ofLine_cases source line scan with none_ | ⟨operation, message, -, one⟩
  · rw [none_] at first
    contradiction
  · rw [one, List.mem_singleton] at first second
    exact first.trans second.symm

theorem Rule.line_cases {code : String} {severity : Severity} {find : Source → Nat → Scan → List Issue}
    {source : Source} {left right : Issue} (lines : ∀ line scan, ∀ issue ∈ find source line scan, issue.line = line)
    (first : left ∈ ((Rule.byLine code severity find).check source).getD [])
    (second : right ∈ ((Rule.byLine code severity find).check source).getD []) (earlier : left.place < right.place) :
    left.line < right.line ∨ left.line = right.line ∧ ∃ scan, left ∈ find source left.line scan ∧
      right ∈ find source left.line scan := by
  obtain ⟨line, scan, held, -, here⟩ := Rule.mem_byLine.1 first
  obtain ⟨other, next, there, -, follows⟩ := Rule.mem_byLine.1 second
  rcases Issue.place_lt_iff.1 earlier with above | same
  · exact .inl above
  · obtain rfl := lines _ _ _ here
    obtain rfl := lines _ _ _ follows
    rw [same.1, there] at held
    obtain rfl := Option.some.inj held
    exact .inr ⟨same.1, next, here, same.1 ▸ follows⟩

namespace Linter

theorem pairwise_filter_code {rule : Rule} (listed : rule ∈ defaultRules) {source : Source}
    {related : Issue → Issue → Prop} (relates : ∀ left ∈ (rule.check source).getD [],
      ∀ right ∈ (rule.check source).getD [], left.place < right.place → related left right) :
    ((found defaultRules source).filter (·.code == rule.code)).Pairwise related := by
  apply ((pairwise_place_found source).filter _).imp_of_mem
  intro left right first second earlier
  rw [List.mem_filter, beq_iff_eq] at first second
  exact relates left ((mem_check_iff listed).2 first) right ((mem_check_iff listed).2 second) earlier

variable {source : Source}

theorem pairwise_words : ((found defaultRules source).filter (·.code == "W001")).Pairwise fun left right =>
    left.line < right.line ∨ left.line = right.line ∧ left.endColumn ≤ right.column := by
  apply pairwise_filter_code undefined_listed
  intro left first right second earlier
  obtain above | ⟨same, scan, here, follows⟩ :=
    Rule.line_cases (fun _ _ _ member => (Undefined.place_of_mem member).2) first second earlier
  · exact .inl above
  · rcases Issue.place_lt_iff.1 earlier with above | ⟨-, before | ⟨-, graver⟩⟩
    · exact .inl above
    · exact .inr ⟨same, Undefined.endColumn_le_of_lt here follows before⟩
    · rw [(Undefined.place_of_mem here).1, (Undefined.place_of_mem follows).1] at graver
      exact absurd graver (Nat.lt_irrefl _)

theorem pairwise_operators : ((found defaultRules source).filter (·.code == "E001")).Pairwise fun left right =>
    left.line < right.line := by
  apply pairwise_filter_code operands_listed
  intro left first right second earlier
  obtain above | ⟨-, scan, here, follows⟩ :=
    Rule.line_cases (fun _ _ _ member => (Operands.place_of_mem member).2.1) first second earlier
  · exact above
  · rw [Operands.eq_of_mem_ofLine here follows] at earlier
    exact absurd earlier (lt_irrefl _)

end Linter

/-- Every issue stands in the document. An undefined word is named and covered, an operator is named and stands in
code; undefined words do not overlap, and no two operators are of one line. -/
theorem found_placed (text : List Char) (file : String) (catalog : Catalog) :
    let source := Source.ofScans (scanText text) file catalog
    let all := Linter.found Linter.defaultRules source
    (∀ issue ∈ all, ∃ scan, issue.Within source scan ∧
      (issue.code = "W001" → ∃ word, Undefined.Covering scan issue word) ∧
      (issue.code = "E001" → ∃ operation, Operands.Reported source scan issue operation)) ∧
    (all.filter (·.code == "W001")).Pairwise (fun left right => left.line < right.line ∨
      left.line = right.line ∧ left.endColumn ≤ right.column) ∧
    (all.filter (·.code == "E001")).Pairwise fun left right => left.line < right.line := by
  intro source all
  refine ⟨fun issue member => ?_, Linter.pairwise_words, Linter.pairwise_operators⟩
  obtain ⟨rule, listed, member⟩ := Linter.mem_found.1 member
  have code := Linter.code_of_mem listed member
  simp only [Linter.defaultRules, List.mem_cons, List.not_mem_nil, or_false] at listed
  rcases listed with rfl | rfl | rfl
  · obtain ⟨scan, within⟩ := Brackets.exists_within member
    rw [code]
    exact ⟨scan, within, fun other => absurd other (by decide), fun other => absurd other (by decide)⟩
  · obtain ⟨line, scan, held, -, member⟩ := Rule.mem_byLine.1 member
    obtain ⟨carry, text, sound, -, rfl⟩ := exists_sound_scanLine Carry.sound_none (List.mem_of_getElem? held)
    obtain ⟨within, covering⟩ := Undefined.exists_reported sound held member
    rw [code]
    exact ⟨_, within, fun _ => covering, fun other => absurd other (by decide)⟩
  · obtain ⟨line, scan, held, -, member⟩ := Rule.mem_byLine.1 member
    obtain ⟨within, reported⟩ := Operands.exists_reported held member
    rw [code]
    exact ⟨scan, within, fun other => absurd other (by decide), fun _ => reported⟩

theorem found_placed_both :
    let source := Source.ofScans (scanText "x: foo\ny: 1 + \"a\"".toList) "main.art" Catalog.shipped
    let all := Linter.found Linter.defaultRules source
    (∃ issue ∈ all, issue.code = "W001" ∧ ∃ scan word, Undefined.Covering scan issue word) ∧
      ∃ issue ∈ all, issue.code = "E001" ∧ ∃ scan operation, Operands.Reported source scan issue operation := by
  intro source all
  have placed := (found_placed "x: foo\ny: 1 + \"a\"".toList "main.art" Catalog.shipped).1
  have warned : ∃ issue ∈ (Undefined.rule.check source).getD [], issue.code = "W001" := by decide +kernel
  have failed : ∃ issue ∈ (Operands.rule.check source).getD [], issue.code = "E001" := by decide +kernel
  obtain ⟨word, member, first⟩ := warned
  obtain ⟨operator, other, second⟩ := failed
  have used : word ∈ all := Linter.mem_found.2 ⟨_, Linter.undefined_listed, member⟩
  have given : operator ∈ all := Linter.mem_found.2 ⟨_, Linter.operands_listed, other⟩
  obtain ⟨scan, -, covering, -⟩ := placed word used
  obtain ⟨other, -, -, reported⟩ := placed operator given
  exact ⟨⟨word, used, first, scan, covering first⟩, ⟨operator, given, second, other, reported second⟩⟩

end ArturoInsight
