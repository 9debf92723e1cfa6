import ArturoInsight.Proofs.Cursor.Looked
import ArturoInsight.Proofs.Lint.Undefined

/-! A word given another name in a document where every word is defined. Every word stays defined, if the edits
reach the uses of the word that are looked up and one of the places that bind it. -/

namespace ArturoInsight

open Text Lexical Pattern

namespace Undefined

/-- The uses on a line that are looked up, or would be if they were spelled with a word. -/
def lookedUp (source : Source) (scan : Scan) (word : List Char) : List (Found Use) :=
  if Source.skips scan then []
  else (finds use scan.uncommented).filter fun found => !isExempt source scan (respelled word found)

theorem mem_lookedUp {source : Source} {scan : Scan} {word : List Char} {found : Found Use} :
    found ∈ lookedUp source scan word ↔ Source.skips scan = false ∧ found ∈ finds use scan.uncommented ∧
      isExempt source scan (respelled word found) = false := by
  unfold lookedUp
  split_ifs with skips
  · simp [skips]
  · simp [skips]

theorem isPlain_of_mem {text : List Char} {found : Found Use} (member : found ∈ finds use text) :
    IsPlain found.value.word := by
  obtain ⟨front, back, -, -, after, reads⟩ := exists_of_mem_findsFrom member
  rw [use_eq] at reads
  obtain ⟨-, reads⟩ := Option.ite_none_left_eq_some.1 reads
  obtain ⟨⟨name, tail⟩, token, same⟩ := Option.map_eq_some_iff.1 reads
  obtain ⟨-, taken, -⟩ := Name.token?_eq_some.1 token
  rw [← (Prod.mk.inj same).1]
  exact taken.before (by simp)

end Undefined

/-- What a renaming has to reach in a document, and how the two words have to be spelled. -/
structure Reached (source : Source) (old new : List Char) : Prop where
  isName : Name.isName old = true
  /-- Behind a hyphen the readers of names would take a keyword for itself. -/
  apart : ∀ keyword ∈ keywords, ¬ '-' :: keyword <:+ old ∧ ¬ '-' :: keyword <:+ new
  alike : ∀ scan ∈ source.scans, Alike old new scan
  /-- Every use of the word that is looked up is one that the edits cover. -/
  uses : ∀ scan ∈ source.scans, ∀ found ∈ Undefined.lookedUp source scan old, found.value.word = old →
    found.start ∈ columnsOf old scan
  /-- Where a use that the edits cover would be looked up, they cover what binds the word in some line as well. -/
  binding : (∃ scan ∈ source.scans, ∃ found ∈ Undefined.lookedUp source scan new, found.start ∈ columnsOf old scan) →
    Literal.holds new = true ∨ ∃ scan ∈ source.scans, ∃ form : BindingForm,
      old ∈ form.names scan ∧ old ∉ form.names (reworded old new scan)

/-- A renaming to a new word that leaves a word undefined in a document where every word was defined. Every clause of
`Reached` keeps some of these out. -/
def Strands (text : List Char) (position : Position) (newName edited : List Char) : Prop :=
  (Source.ofScans (scanText text) "" Catalog.shipped).Defined ∧
    (Name.isName newName = true ∧ ¬ newName <:+: text ∧ Catalog.shipped.isBuiltin newName = false) ∧
    (∃ renamed ∈ ((Analysis.ofText "" text .default none).rename position newName).toOption.join,
      Text.lines edited = Edit.applyAll renamed.edits (Text.lines text)) ∧
    ¬ (Source.ofScans (scanText edited) "" Catalog.shipped).Defined

instance (source : Source) : Decidable source.Defined := decidable_of_iff' _ Undefined.defined_iff

instance (text : List Char) (position : Position) (newName edited : List Char) :
    Decidable (Strands text position newName edited) := inferInstanceAs (Decidable (_ ∧ _ ∧ _ ∧ _))

theorem strands_of_digit : Strands "2foo: qux:1\nqux".toList ⟨0, 0⟩ "entry".toList
    "entry: qux:1\nqux".toList := by
  decide +kernel

theorem strands_of_minus : Strands "foo: 1\nqux: -foo".toList ⟨0, 0⟩ "zz".toList "zz: 1\nqux: -foo".toList := by
  decide +kernel

theorem strands_of_keyword_renamed : ∀ kept ∈ [("function", " [foo]"), ("method", " [foo]"), ("loop", " [] 'foo"),
      ("define", " :foo")],
    let word := ("a-" ++ kept.1).toList
    let use := kept.2.toList ++ "\nfoo".toList
    Strands (word ++ ": 1\n".toList ++ word ++ use) ⟨0, 0⟩ "entry".toList ("entry: 1\nentry".toList ++ use) := by
  decide +kernel

theorem strands_of_keyword_given : ∀ given ∈ [("function", " [1] function [foo]"), ("method", " [1] method [foo]"),
      ("loop", " 'loop 'bar 'foo"), ("define", " :define :foo")],
    let word := ("q-" ++ given.1).toList
    let use := given.2.toList ++ "\nfoo".toList
    Strands ("q: 1\nq".toList ++ use) ⟨0, 0⟩ word (word ++ ": 1\n".toList ++ word ++ use) := by
  decide +kernel

theorem strands_of_type :
    Strands "define :w\nw".toList ⟨1, 0⟩ "an-entry".toList "define :an-entry\nan-entry".toList ∧
    Strands "foo-b: 1\ndefine :foo-b\nfoo".toList ⟨0, 0⟩ "zz".toList "zz: 1\ndefine :zz\nfoo".toList ∧
    Strands "w: 1\nfoo: 2\nfoo :w qux:1\nqux".toList ⟨0, 0⟩ "_zz".toList
      "_zz: 1\nfoo: 2\nfoo :_zz qux:1\nqux".toList ∧
    Strands "_w: 1\nfoo :_w\nfoo".toList ⟨0, 0⟩ "zz".toList "zz: 1\nfoo :zz\nfoo".toList := by
  decide +kernel

theorem strands_of_annotation :
    Strands "w: 1\nf: function [foo:w]\nfoo".toList ⟨0, 0⟩ "zz2".toList
      "zz2: 1\nf: function [foo:zz2]\nfoo".toList ∧
    Strands "w2: 1\nf: function [foo:w2]\nfoo2".toList ⟨0, 0⟩ "zz".toList
      "zz: 1\nf: function [foo:zz]\nfoo2".toList ∧
    Strands "w: 1\nf: function [w:a2]\nw2".toList ⟨0, 0⟩ "zz".toList
      "zz: 1\nf: function [zz:a2]\nw2".toList := by
  decide +kernel

section Defined

variable {old new : List Char} {scans : List Scan} {file : String} {catalog : Catalog}
  (old_spelling : IsSpelling old) (new_spelling : IsSpelling new)
  (lines : ∀ scan ∈ scans, ∃ carry text, carry.Sound ∧ scan = scanLine carry text)

include old_spelling new_spelling lines

theorem defined_reworded (defined : (Source.ofScans scans file catalog).Defined)
    (reached : Reached (.ofScans scans file catalog) old new) :
    (Source.ofScans (scans.map (reworded old new)) file catalog).Defined := by
  rw [Undefined.defined_iff] at defined ⊢
  intro scan member skips found there
  obtain ⟨scan, inside, rfl⟩ := List.mem_map.1 member
  by_cases exempt : Undefined.isExempt (.ofScans (scans.map (reworded old new)) file catalog) (reworded old new scan)
      found = true
  · exact .inr exempt
  have moves {name : List Char} {scan : Scan} {form : BindingForm} (inside : scan ∈ scans)
      (bound : name ∈ form.names (reworded old new scan)) : Binds (scans.map (reworded old new)) name :=
    ⟨_, List.mem_map_of_mem inside, form, bound⟩
  have exchanges {scan : Scan} (inside : scan ∈ scans) (form : BindingForm) :
      Exchanges old new (form.names scan) (form.names (reworded old new scan)) := by
    obtain ⟨carry, text, sound, rfl⟩ := lines scan inside
    exact exchanges_names old_spelling new_spelling sound (reached.alike _ inside) form
  obtain ⟨carry, text, sound, rfl⟩ := lines scan inside
  obtain ⟨other, before, place, exempts⟩ := exists_looked_reworded old_spelling new_spelling sound there
  have named := (exempts (.ofScans scans file catalog) (.ofScans (scans.map (reworded old new)) file catalog) rfl).trans
    (by simpa using exempt)
  have read : Source.skips (scanLine carry text) = false := by
    obtain ⟨slots, opened⟩ := @exists_opened old old_spelling.plain carry sound text
    rwa [opened.skips_eq new_spelling.plain old_spelling.plain, reworded_self old_spelling.plain sound] at skips
  rw [Undefined.isKnown_ofScans]
  left
  obtain ⟨column, word, same⟩ | ⟨column, same⟩ := place
  · rw [same] at named ⊢
    obtain literal | ⟨scan, there, form, bound, unbound⟩ := reached.binding
        ⟨_, inside, other, Undefined.mem_lookedUp.2 ⟨read, before, named⟩, column⟩
    · exact .inl literal
    · obtain kept | ⟨-, gained⟩ := exchanges there form old old_spelling.plain bound
      · exact absurd kept unbound
      · exact .inr (.inr (moves there gained))
  · rw [← same] at named ⊢
    have itself : Undefined.respelled other.value.word other = other := rfl
    have differs : other.value.word ≠ old := fun equal => by
      rw [equal] at named
      exact column (reached.uses _ inside other (Undefined.mem_lookedUp.2 ⟨read, before, named⟩) equal)
    rw [itself] at named
    obtain known | excused := defined _ inside read other before
    · obtain literal | builtin | ⟨scan, there, form, bound⟩ := Undefined.isKnown_ofScans.1 known
      · exact .inl literal
      · exact .inr (.inl builtin)
      · obtain kept | ⟨equal, -⟩ := exchanges there form _ (Undefined.isPlain_of_mem before) bound
        · exact .inr (.inr (moves there kept))
        · exact absurd equal differs
    · rw [named] at excused
      contradiction

end Defined

theorem isBuiltin_keywords : ∀ keyword ∈ keywords, Catalog.shipped.isBuiltin keyword = true := by decide +kernel

/-- In a document where every word is defined, every word still is after a renaming that reaches the uses of the
word that are looked up and one of the places that bind it. -/
theorem rename_defined {uri : String} {text newName : List Char} {linter : Linter} {version : Option Int}
    {position : Position} {span : WordSpan}
    (found : (Analysis.ofText uri text linter version).renamable? position = some span)
    (valid : Name.isName newName = true) (free : Catalog.shipped.isBuiltin newName = false)
    (defined : (Source.ofScans (scanText text) uri Catalog.shipped).Defined)
    (reached : Reached (.ofScans (scanText text) uri Catalog.shipped) span.word newName) :
    ∃ renamed, (Analysis.ofText uri text linter version).rename position newName = .ok (some renamed) ∧
      let changed := Edit.applyAll renamed.edits (Text.lines text)
      Text.lines (joinLines changed) = changed ∧ ∀ edited, Text.lines edited = changed →
        (Source.ofScans (scanText edited) uri Catalog.shipped).Defined := by
  have spells {word : List Char} (valid : Name.isName word = true) (free : Catalog.shipped.isBuiltin word = false)
      (apart : ∀ keyword ∈ keywords, ¬ '-' :: keyword <:+ word) : IsSpelling word := by
    refine ⟨valid, fun keyword member => ⟨?_, apart keyword member⟩⟩
    rintro rfl
    rw [isBuiltin_keywords word member] at free
    contradiction
  have old_spelling := spells reached.isName (renamable?_eq_some.1 found).2.2.1 fun keyword member =>
    (reached.apart keyword member).1
  have new_spelling := spells valid free fun keyword member => (reached.apart keyword member).2
  have lines : ∀ scan ∈ scanText text, ∃ carry text, carry.Sound ∧ scan = scanLine carry text := by
    intro scan member
    obtain ⟨carry, line, sound, -, same⟩ := exists_sound_scanLine Carry.sound_none member
    exact ⟨carry, line, sound, same⟩
  obtain ⟨renamed, given, edits, whole, scans⟩ := exists_rename found valid
  refine ⟨renamed, given, whole, fun edited changed => ?_⟩
  rw [scans edited changed]
  exact defined_reworded old_spelling new_spelling lines defined reached

theorem rename_defined_total : ∃ renamed,
    (Analysis.ofText "" "total: 1\nprint total".toList .default none).rename ⟨1, 7⟩ "sum-up?".toList =
      .ok (some renamed) ∧
    let changed := Edit.applyAll renamed.edits ["total: 1".toList, "print total".toList]
    Text.lines (joinLines changed) = changed ∧ ∀ edited, Text.lines edited = changed →
      (Source.ofScans (scanText edited) "" Catalog.shipped).Defined := by
  have unparametrised : ∀ scan ∈ scanText "total: 1\nprint total".toList, parameterWords scan.blanked = [] := by
    decide +kernel
  have untyped : ∀ scan ∈ scanText "total: 1\nprint total".toList, ¬ StandsForType "total".toList scan := by
    decide +kernel
  have bound : ∃ scan ∈ scanText "total: 1\nprint total".toList, "total".toList ∈ BindingForm.label.names scan ∧
      "total".toList ∉ BindingForm.label.names (reworded "total".toList "sum-up?".toList scan) := by
    decide +kernel
  refine @rename_defined "" "total: 1\nprint total".toList "sum-up?".toList .default none ⟨1, 7⟩
    ⟨"total".toList, 1, 6⟩ (by decide +kernel) (by decide +kernel) (by decide +kernel)
    (Undefined.defined_iff.2 (by decide +kernel)) ⟨by decide +kernel, by decide +kernel, ?_, by decide +kernel, ?_⟩
  · intro scan member
    have none := unparametrised scan member
    refine ⟨fun stands => absurd stands (untyped scan member), ?_, ?_⟩
    · rw [none]
      exact List.forall_mem_nil _
    · rw [none]
      exact List.forall_mem_nil _
  · obtain ⟨scan, member, given, taken⟩ := bound
    exact fun _ => .inr ⟨scan, member, .label, given, taken⟩

/-- A quoted loop variable keeps its old name, so that the uses of the variable lose what binds them. -/
theorem rename_of_quoted_variable : ¬ ∀ (text newName edited : List Char) (position : Position) (renamed : Renaming),
    (Source.ofScans (scanText text) "" Catalog.shipped).Defined →
    (Analysis.ofText "" text .default none).rename position newName = .ok (some renamed) →
    Name.isName newName = true → ¬ newName <:+: text → Catalog.shipped.isBuiltin newName = false →
    Text.lines edited = Edit.applyAll renamed.edits (Text.lines text) →
    (Source.ofScans (scanText edited) "" Catalog.shipped).Defined := by
  intro kept
  have defined := kept "loop [1 2] 'x [\n    print x\n]".toList "entry".toList
    "loop [1 2] 'x [\n    print entry\n]".toList ⟨1, 10⟩ ⟨"", [⟨.onLine 1 10 11, "entry".toList⟩], []⟩
    (Undefined.defined_iff.2 (by decide +kernel)) (by decide +kernel) (by decide +kernel) (by decide +kernel)
    (by decide +kernel) (by decide +kernel)
  rw [Undefined.defined_iff] at defined
  revert defined
  decide +kernel

end ArturoInsight
