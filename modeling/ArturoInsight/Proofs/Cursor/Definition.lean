import ArturoInsight.Cursor.Navigation
import ArturoInsight.Proofs.Cursor.Word
import ArturoInsight.Proofs.Symbol.Latest

/-! Definitions and references. The place that binds a symbol is one of the uses of its name, and every use of the
name leads back to that place. -/

namespace ArturoInsight

open Text Lexical

/-- The word that a symbol is bound to, where it is bound. -/
def Symbol.span (symbol : Symbol) : WordSpan := ⟨symbol.name, symbol.line, symbol.column⟩

namespace Symbols

theorem lookup?_ofScans (scans : List Scan) (name : List Char) :
    (ofScans scans).lookup? name = latestFrom name 0 scans := by
  have function := get?_ofScans scans .function name
  have plain := get?_ofScans scans .plain name
  simp only [ofKind] at function plain
  rw [lookup?, function, plain]
  cases found : latestFrom name 0 scans with
  | none => rfl
  | some symbol => cases kind : symbol.kind <;> simp [Option.filter_some, kind]

theorem exists_of_mem_all {scans : List Scan} {symbol : Symbol} (member : symbol ∈ (ofScans scans).all) :
    (ofScans scans).lookup? symbol.name = some symbol ∧
      ∃ scan binding, scans[symbol.line]? = some scan ∧ Binding.ofLine? scan scan.uncommented = some binding ∧
        symbol = .ofBinding symbol.line binding := by
  obtain ⟨entry, inside, rfl⟩ := List.mem_map.1 ((all_perm _).mem_iff.1 member)
  obtain ⟨binding, last, told⟩ := exists_isLast inside
  have named : entry.2.name = entry.1 := by
    rw [told]
    exact last.named
  rw [lookup?_ofScans, named]
  refine ⟨mem_entries_ofScans.1 inside, ?_⟩
  have bound := last.bound
  rw [boundIn_eq] at bound
  obtain ⟨scan, here, found⟩ := Option.bind_eq_some_iff.1 bound
  exact ⟨scan, binding, here, found, told⟩

end Symbols

section Agreement

variable {uri : String} {text : List Char} {linter : Linter} {version : Option Int} {symbol : Symbol}
  (member : symbol ∈ (Analysis.ofText uri text linter version).symbols.all)

include member

theorem exists_signedWord : ∃ scan front back,
    (Analysis.ofText uri text linter version).scans[symbol.line]? = some scan ∧
    scan.text = front ++ (symbol.name ++ back) ∧ symbol.column = front.length ∧ scan.codeAt symbol.column = true ∧
    SignedWord front [] symbol.name back ∧
    ∀ c ∈ back.head?, isNamePart c = false ∧ c ≠ '?' := by
  obtain ⟨-, scan, binding, here, found, told⟩ := Symbols.exists_of_mem_all member
  obtain ⟨front, tail, placed⟩ := Binding.exists_placed found
  obtain ⟨comment, whole⟩ := uncommented_prefix scan
  obtain ⟨c, first, closes⟩ := placed.closes
  have ends : ∀ d ∈ (tail ++ comment).head?, isNamePart d = false ∧ d ≠ '?' := by
    intro d head
    rw [List.head?_append, first, Option.some_or] at head
    rwa [← Option.some.inj head]
  rw [told]
  refine ⟨scan, front, tail ++ comment, here, ?_, placed.column, (congrArg scan.codeAt placed.column).trans placed.code,
    ⟨placed.opens, List.forall_mem_nil _, placed.taken.before ends, fun hyphen => ?_⟩, ends⟩
  · rw [← whole, placed.whole, List.append_assoc, List.append_assoc]
    rfl
  · have starts := placed.starts
    rw [show binding.name.head? = some '-' from hyphen] at starts
    contradiction

theorem span_mem_occurrences
    (unquoted : ∀ c ∈ symbol.span.before? ((Analysis.ofText uri text linter version).lineText symbol.line),
      c ≠ '\x27' ∧ c ≠ '\x60') :
    symbol.span ∈ (Analysis.ofText uri text linter version).occurrences symbol.name := by
  obtain ⟨scan, front, back, here, whole, column, code, stands, ends⟩ := exists_signedWord member
  rw [lineText_of_getElem? here, whole, WordSpan.before?_append column] at unquoted
  refine Analysis.mem_occurrences.2 ⟨rfl, scan, here, ?_⟩
  exact (mem_columnsOf_iff (stands.taken.before (by simp))).2
    ⟨front, back, whole, column, fun c last => ⟨stands.left c last, unquoted c last⟩, ends, code⟩

theorem definition?_of_mem_occurrences {found : WordSpan}
    (use : found ∈ (Analysis.ofText uri text linter version).occurrences symbol.name)
    (unmarked : found.before? ((Analysis.ofText uri text linter version).lineText found.line) ≠ some '?')
    {character : Nat} (low : found.start ≤ character) (high : character < found.stop) :
    (Analysis.ofText uri text linter version).definition? ⟨found.line, character⟩ =
      some ⟨uri, .onLine symbol.line symbol.column symbol.stop⟩ := by
  obtain ⟨_, _, _, -, -, -, -, named, -⟩ := exists_signedWord member
  have plain : IsPlain symbol.name := named.taken.before (by simp)
  obtain ⟨word, scan, here, column⟩ := Analysis.mem_occurrences.1 use
  obtain ⟨front, back, whole, start, left, right, code⟩ := (mem_columnsOf_iff plain).1 column
  have stands : SignedWord front [] symbol.name back :=
    ⟨fun c last => (left c last).1, List.forall_mem_nil _, plain.before right, named.starts⟩
  have size : found.stop = front.length + symbol.name.length := by rw [WordSpan.stop, word, start]
  rw [lineText_of_getElem? here, whole, WordSpan.before?_append start] at unmarked
  rw [start] at low code
  rw [size] at high
  have inCode : scan.codeAt character = true := by
    have formed := (wellFormed_scanLines (Text.lines text)).2.1 scan (List.mem_of_getElem? here)
    have wordy : ∀ c ∈ symbol.name, isWordy c = true := fun c inside => by simpa [isWordy] using plain.part inside
    exact formed.codeAt_word (whole.trans (List.append_assoc ..).symm) wordy code low high
  have touched : (Analysis.ofText uri text linter version).wordAt ⟨found.line, character⟩ =
      some ⟨symbol.name, found.line, front.length⟩ := by
    have none : front.getLast? ≠ some '\n' := fun last =>
      feeds_of_getElem? here (whole ▸ List.mem_append_left _ (List.mem_of_getLast? last))
    have reads := stands.wordAt_eq none low (by simpa using Nat.le_of_lt high) (fun _ => unmarked) found.line
    rw [List.nil_append, ← whole] at reads
    rw [Analysis.wordAt, Analysis.line?, here]
    exact reads
  have bound : (Analysis.ofText uri text linter version).symbols.lookup? symbol.name = some symbol :=
    (Symbols.exists_of_mem_all member).1
  rw [Analysis.definition?, isCodeAt_of_getElem? here, if_pos inCode, touched]
  simp only [Option.bind_eq_bind, Option.bind_some, bound]
  rfl

end Agreement

/-- Definitions and references agree. A symbol that is not quoted where it is bound has that place among the uses of
its name, and from each of these, unless a question mark stands before it, every cursor finds that place. -/
theorem definition_of_uses {uri : String} {text : List Char} {linter : Linter} {version : Option Int} {symbol : Symbol}
    (member : symbol ∈ (Analysis.ofText uri text linter version).symbols.all) :
    let analysis := Analysis.ofText uri text linter version
    ((∀ c ∈ symbol.span.before? (analysis.lineText symbol.line), c ≠ '\x27' ∧ c ≠ '\x60') →
      symbol.span ∈ analysis.occurrences symbol.name) ∧
    ∀ found ∈ analysis.occurrences symbol.name, found.before? (analysis.lineText found.line) ≠ some '?' →
      ∀ character, found.start ≤ character → character < found.stop →
        analysis.definition? ⟨found.line, character⟩ = some ⟨uri, .onLine symbol.line symbol.column symbol.stop⟩ :=
  ⟨span_mem_occurrences member, fun _ use unmarked _ low high =>
    definition?_of_mem_occurrences member use unmarked low high⟩

theorem definition_of_uses_total :
    ∃ symbol ∈ (Analysis.ofText "" "total: 1\nprint total".toList .default none).symbols.all,
      symbol.span ∈ (Analysis.ofText "" "total: 1\nprint total".toList .default none).occurrences "total".toList ∧
      (Analysis.ofText "" "total: 1\nprint total".toList .default none).definition? ⟨1, 8⟩ =
        some ⟨"", .onLine 0 0 5⟩ := by
  have facts : (⟨"total".toList, 0, 0, .plain, .integer, "1".toList⟩ : Symbol) ∈
        (Analysis.ofText "" "total: 1\nprint total".toList .default none).symbols.all ∧
      (⟨"total".toList, 1, 6⟩ : WordSpan) ∈
        (Analysis.ofText "" "total: 1\nprint total".toList .default none).occurrences "total".toList ∧
      (⟨"total".toList, 1, 6⟩ : WordSpan).before? "print total".toList ≠ some '?' := by decide +kernel
  have opening (text : List Char) : (⟨"total".toList, 0, 0⟩ : WordSpan).before? text = none := if_pos rfl
  obtain ⟨own, back⟩ := definition_of_uses facts.1
  refine ⟨_, facts.1, own fun c first => ?_, back _ facts.2.1 facts.2.2 8 (by decide) (by decide)⟩
  exact absurd ((opening _).symm.trans first) (by simp)

end ArturoInsight
