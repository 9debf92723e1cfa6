import ArturoInsight.Proofs.Lint.Places
import ArturoInsight.Proofs.Symbol.Forms

/-! What is written below a text. It changes no scan above it and takes no name from the document, so that on the
lines above warnings of undefined words go away where the words are bound below, and no others come. -/

namespace ArturoInsight

open Text Lexical

/-- The text that an issue covers. -/
def Issue.covered (issue : Issue) : List Char :=
  (issue.context.drop issue.column).take (issue.endColumn - issue.column)

/-- Whether a name is bound in a document, defined as a type there, or bound without a place. -/
def Source.binds (source : Source) (name : List Char) : Bool := source.symbols.has name || source.quasi.has name

theorem Source.binds_ofScans {scans : List Scan} {file : String} {catalog : Catalog} {name : List Char} :
    (ofScans scans file catalog).binds name = true ↔ Binds scans name := by
  rw [binds, Bool.or_eq_true]
  exact binds_iff.symm

theorem Lexical.scanText_append (above below : List Char) : ∃ more,
    scanText (above ++ '\n' :: below) = scanText above ++ more := by
  refine ⟨scanFrom (carryAfter .none (lines above)) (lines below), ?_⟩
  rw [scanText, scanLines, lines_append, scanFrom_append]
  rfl

theorem Binds.append {scans : List Scan} {name : List Char} (bound : Binds scans name) (more : List Scan) :
    Binds (scans ++ more) name := by
  obtain ⟨scan, member, form, names⟩ := bound
  exact ⟨scan, List.mem_append_left more member, form, names⟩

namespace Undefined

section Lines

variable {scans : List Scan} (more : List Scan) {file : String} {catalog : Catalog}

theorem isKnown_append {word : List Char} : isKnown (.ofScans (scans ++ more) file catalog) word = true ↔
    isKnown (.ofScans scans file catalog) word = true ∨
      (Source.ofScans (scans ++ more) file catalog).binds word = true := by
  rw [isKnown_ofScans, isKnown_ofScans, Source.binds_ofScans]
  constructor
  · intro known
    rcases known with literal | builtin | bound
    · exact .inl (.inl literal)
    · exact .inl (.inr (.inl builtin))
    · exact .inr bound
  · intro known
    rcases known with (literal | builtin | bound) | bound
    · exact .inl literal
    · exact .inr (.inl builtin)
    · exact .inr (.inr (bound.append more))
    · exact .inr (.inr bound)

theorem mem_ofLine_append {line : Nat} {scan : Scan} {issue : Issue} :
    issue ∈ ofLine (.ofScans (scans ++ more) file catalog) line scan ↔
      issue ∈ ofLine (.ofScans scans file catalog) line scan ∧
        (Source.ofScans (scans ++ more) file catalog).binds issue.covered = false := by
  have unknown (word : List Char) : isKnown (.ofScans (scans ++ more) file catalog) word = false ↔
      isKnown (.ofScans scans file catalog) word = false ∧
        (Source.ofScans (scans ++ more) file catalog).binds word = false := by
    rw [← Bool.not_eq_true, isKnown_append, not_or, Bool.not_eq_true, Bool.not_eq_true]
  rw [mem_ofLine, mem_ofLine]
  constructor
  · intro reported
    obtain ⟨found, read, new, named, rfl⟩ := reported
    obtain ⟨old, unbound⟩ := (unknown found.value.word).1 new
    rw [← text_of_read read] at unbound
    exact ⟨⟨found, read, old, named, rfl⟩, unbound⟩
  · intro reported
    obtain ⟨⟨found, read, old, named, rfl⟩, unbound⟩ := reported
    have covered : Issue.covered (Source.issue (.ofScans scans file catalog) .warning "W001"
        (message found.value.word) line scan found.start found.stop) = found.value.word := text_of_read read
    rw [covered] at unbound
    exact ⟨found, read, (unknown found.value.word).2 ⟨old, unbound⟩, named, rfl⟩

theorem mem_found_append {issue : Issue} :
    issue ∈ Linter.found Linter.defaultRules (.ofScans (scans ++ more) file catalog) ∧ issue.code = "W001" ∧
        issue.line < scans.length ↔
      issue ∈ Linter.found Linter.defaultRules (.ofScans scans file catalog) ∧ issue.code = "W001" ∧
        (Source.ofScans (scans ++ more) file catalog).binds issue.covered = false := by
  rw [← and_assoc, ← and_assoc, Linter.mem_found_undefined, Linter.mem_found_undefined]
  constructor
  · intro reported
    obtain ⟨⟨line, scan, held, read, member⟩, above⟩ := reported
    obtain ⟨old, unbound⟩ := (mem_ofLine_append more).1 member
    rw [(place_of_mem member).2] at above
    have there : (scans ++ more)[line]? = some scan := held
    rw [List.getElem?_append_left above] at there
    exact ⟨⟨line, scan, there, read, old⟩, unbound⟩
  · intro reported
    obtain ⟨⟨line, scan, held, read, member⟩, unbound⟩ := reported
    have above : line < scans.length := (List.getElem?_eq_some_iff.1 held).1
    have there : (scans ++ more)[line]? = some scan := by rw [List.getElem?_append_left above]; exact held
    refine ⟨⟨line, scan, there, read, (mem_ofLine_append more).2 ⟨member, unbound⟩⟩, ?_⟩
    rwa [(place_of_mem member).2]

end Lines

/-- On the lines of a text, whatever is written below it, the warnings of undefined words are those of the text by
itself, without those whose words are bound in the whole. -/
theorem found_above (above below : List Char) (file : String) (catalog : Catalog) :
    let alone := Source.ofScans (scanText above) file catalog
    let whole := Source.ofScans (scanText (above ++ '\n' :: below)) file catalog
    ((Linter.found Linter.defaultRules whole).filter fun issue =>
        issue.code == "W001" && decide (issue.line < (lines above).length)) =
      (Linter.found Linter.defaultRules alone).filter fun issue =>
        issue.code == "W001" && !whole.binds issue.covered := by
  intro alone whole
  obtain ⟨more, scans⟩ := scanText_append above below
  have count : (scanText above).length = (lines above).length := length_scanFrom .none (lines above)
  have irrefl : Std.Irrefl fun left right : Issue => left.place < right.place := ⟨fun _ => lt_irrefl _⟩
  have antisymm : Std.Antisymm fun left right : Issue => left.place < right.place :=
    ⟨fun _ _ earlier later => absurd (earlier.trans later) (lt_irrefl _)⟩
  apply ((Linter.pairwise_place_found whole).filter _).eq_of_mem_iff ((Linter.pairwise_place_found alone).filter _)
  intro issue
  have same := @mem_found_append (scanText above) more file catalog issue
  rw [← scans, count] at same
  simpa [List.mem_filter] using same

end Undefined

end ArturoInsight
