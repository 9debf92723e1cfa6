import ArturoInsight.Proofs.Lexical.Indented
import ArturoInsight.Proofs.Lint.Order
import ArturoInsight.Proofs.Lint.Uses

/-! Which words are reported as undefined: all that stand in code, name nothing and are not exempt, except on a line
that starts inside a string and there with a semicolon, which is taken for a comment. -/

namespace ArturoInsight

open Text Lexical

section Skipping

variable {carry : Carry} (text : List Char)

theorem skips_iff (sound : carry.Sound) : Source.skips (scanLine carry text) = true ↔
    (scanLine carry text).isCommentOnly = true ∨ (scanLine carry text).carryOut.inString = true ∨
      carry.inString = true ∧ (trim text).head? = some ';' := by
  have skips : Source.skips (scanLine carry text) = true ↔
      (trim text).head? = some ';' ∨ (scanLine carry text).carryOut.inString = true := by
    rw [Source.skips, Bool.or_eq_true, beq_iff_eq, Scan.text_scanLine]
  rw [skips]
  constructor
  · intro passed
    rcases passed with semicolon | ends
    · cases inside : carry.inString with
      | true => exact .inr (.inr ⟨rfl, semicolon⟩)
      | false =>
        exact .inl ((isCommentOnly_iff_of_closed inside text).2 semicolon)
    · exact .inr (.inl ends)
  · intro passed
    rcases passed with comment | ends | ⟨-, semicolon⟩
    · exact .inl (head?_of_isCommentOnly (wellFormed_scanLine sound text) comment)
    · exact .inr ends
    · exact .inl semicolon

end Skipping

namespace Undefined

/-- A word in code that nothing binds or exempts, on a line that is no comment and does not end inside a string. -/
structure Stray (source : Source) (scan : Scan) (found : Found Use) : Prop where
  code : scan.tagAt found.start = .code
  shown : scan.isCommentOnly = false
  closed : scan.carryOut.inString = false
  unknown : isKnown source found.value.word = false
  unlabelled : found.value.next ≠ some ':'
  plain : ∀ c ∈ found.value.before, c ∉ ['\x27', '\x60', '#', ':']
  free : ¬ (found.value.before = some '.' ∧ source.catalog.isAttribute found.value.word = true)

theorem stray_iff {source : Source} {scan : Scan} {found : Found Use} : Stray source scan found ↔
    scan.isCommentOnly = false ∧ scan.carryOut.inString = false ∧ isKnown source found.value.word = false ∧
      isExempt source scan found = false := by
  rw [isExempt_eq_false]
  constructor
  · intro stray
    exact ⟨stray.shown, stray.closed, stray.unknown, stray.unlabelled, stray.code, stray.plain, stray.free⟩
  · intro passed
    obtain ⟨shown, closed, unknown, unlabelled, code, plain, free⟩ := passed
    exact ⟨code, shown, closed, unknown, unlabelled, plain, free⟩

instance (source : Source) (scan : Scan) (found : Found Use) : Decidable (Stray source scan found) :=
  decidable_of_iff _ stray_iff.symm

theorem mem_found_iff {source : Source} {line : Nat} {scan : Scan} {found : Found Use}
    (held : source.scans[line]? = some scan) (read : found ∈ finds use scan.uncommented) :
    source.issue .warning "W001" (message found.value.word) line scan found.start found.stop ∈
        Linter.found Linter.defaultRules source ↔
      Source.skips scan = false ∧ isKnown source found.value.word = false ∧ isExempt source scan found = false := by
  constructor
  · intro reported
    obtain ⟨place, other, there, skips, member⟩ := Linter.mem_found_undefined.1 ⟨reported, rfl⟩
    obtain ⟨word, among, unknown, named, same⟩ := mem_ofLine.1 member
    obtain rfl : line = place := congrArg Issue.line same
    obtain rfl : scan = other := Option.some.inj (held.symm.trans there)
    obtain rfl : found = word := eq_of_start read among (congrArg Issue.column same)
    exact ⟨skips, unknown, named⟩
  · intro passed
    obtain ⟨skips, unknown, named⟩ := passed
    have member := (@mem_ofLine source line scan _).2 ⟨found, read, unknown, named, rfl⟩
    exact (Linter.mem_found_undefined.2 ⟨line, scan, held, skips, member⟩).1

/-- A word that is looked up is reported in its place where it is stray, unless the line starts inside a string and is
taken for a comment. -/
theorem reported_iff_stray (text : List Char) (file : String) (catalog : Catalog) (line : Nat) (scan : Scan)
    (held : (scanText text)[line]? = some scan) (found : Found Use) (read : found ∈ finds use scan.uncommented) :
    let source := Source.ofScans (scanText text) file catalog
    source.issue .warning "W001" (message found.value.word) line scan found.start found.stop ∈
        Linter.found Linter.defaultRules source ↔
      Stray source scan found ∧ ¬ (scan.carryIn.inString = true ∧ (trim scan.text).head? = some ';') := by
  intro source
  have passed : Source.skips scan = false ↔ scan.isCommentOnly = false ∧ scan.carryOut.inString = false ∧
      ¬ (scan.carryIn.inString = true ∧ (trim scan.text).head? = some ';') := by
    obtain ⟨carry, line, sound, -, rfl⟩ := exists_sound_scanLine Carry.sound_none (List.mem_of_getElem? held)
    rw [← Bool.not_eq_true, skips_iff line sound, not_or, not_or, Bool.not_eq_true, Bool.not_eq_true]
    rfl
  have reported := @mem_found_iff source line scan found held read
  rw [reported, passed, stray_iff]
  constructor
  · intro both
    obtain ⟨⟨shown, closed, starts⟩, unknown, named⟩ := both
    exact ⟨⟨shown, closed, unknown, named⟩, starts⟩
  · intro both
    obtain ⟨⟨shown, closed, unknown, named⟩, starts⟩ := both
    exact ⟨⟨shown, closed, starts⟩, unknown, named⟩

/-- A line that starts inside a string, and a word behind that string. -/
theorem reported_iff_stray_closed :
    let text := "s: \x7b:\n:\x7d foo".toList
    let source := Source.ofScans (scanText text) "main.art" Catalog.shipped
    let scan := scanLine (.within .verbatim) ":\x7d foo".toList
    let found : Found Use := ⟨3, 6, ⟨some ' ', "foo".toList, none⟩⟩
    (scanText text)[1]? = some scan ∧ found ∈ finds use scan.uncommented ∧
      source.issue .warning "W001" "\x27foo\x27 may be undefined" 1 scan 3 6 ∈
        Linter.found Linter.defaultRules source := by
  intro text source scan found
  have held : (scanText text)[1]? = some scan := by decide +kernel
  have read : found ∈ finds use scan.uncommented := by decide +kernel
  have stray : Stray source scan found := by decide +kernel
  have starts : ¬ (scan.carryIn.inString = true ∧ (trim scan.text).head? = some ';') := by decide +kernel
  exact ⟨held, read, (reported_iff_stray text "main.art" Catalog.shipped 1 scan held found read).2 ⟨stray, starts⟩⟩

/-- A semicolon of the string that a line starts in hides what comes behind the string. -/
theorem stray_unreported :
    let text := "s: \x7b:\n; :\x7d foo".toList
    let source := Source.ofScans (scanText text) "main.art" Catalog.shipped
    let scan := scanLine (.within .verbatim) "; :\x7d foo".toList
    let found : Found Use := ⟨5, 8, ⟨some ' ', "foo".toList, none⟩⟩
    (scanText text)[1]? = some scan ∧ found ∈ finds use scan.uncommented ∧ Stray source scan found ∧
      Linter.found Linter.defaultRules source = [] := by
  decide +kernel

end Undefined

end ArturoInsight
