import ArturoInsight.Proofs.Layout.Bindings
import ArturoInsight.Proofs.Layout.Strict
import ArturoInsight.Proofs.Symbol.Gathered

/-! What a document defines once it is laid out. The layout joins a name to its colon over blanks that it
makes one space, and moves a character that is an operator away from its backtick; all else stays. -/

namespace ArturoInsight.Layout

open Text Lexical Binding

/-- The symbol of a line, where blanks that the layout makes one space may stand before the colon. -/
def joinedSymbol? (line : Nat) (scan : Scan) : Option Symbol :=
  if isKept scan then Symbols.read? line scan
  else (ofGap? joins scan scan.uncommented).map (Symbol.ofBinding line)

def retype (scan : Scan) (symbol : Symbol) : Symbol :=
  if !isKept scan && isSignCharacter symbol.value then { symbol with type := .any } else symbol

def laidSymbol? (line : Nat) (scan : Scan) : Option Symbol := (joinedSymbol? line scan).map (retype scan)

/-- The symbols of a document with its names joined to their colons. -/
def joined (content : List Char) : Symbols := Symbols.empty.gather joinedSymbol? 0 (scanText content)

def laidOut (content : List Char) : Symbols := Symbols.empty.gather laidSymbol? 0 (scanText content)

section Retype

variable (scan : Scan) (symbol : Symbol)

theorem name_retype : (retype scan symbol).name = symbol.name := by
  unfold retype
  split_ifs <;> rfl

theorem definition_retype : (retype scan symbol).definition = ⟨symbol.line, symbol.kind,
    if !isKept scan && isSignCharacter symbol.value then .any else symbol.type⟩ := by
  unfold retype
  split_ifs <;> rfl

end Retype

theorem agree_laidLine (size : Int) (depth : Nat) (carry : Carry) (text : List Char) :
    Symbols.Agree laidSymbol? Symbols.read? (scanLine carry text)
      (scanLine carry (laidLine { size := size } depth (scanLine carry text))) := by
  cases kept : isKept (scanLine carry text) with
  | true =>
    have same : laidLine { size := size } depth (scanLine carry text) = text := if_pos kept
    rw [same]
    refine ⟨rfl, fun line => ?_⟩
    rw [laidSymbol?, joinedSymbol?, if_pos kept]
    cases Symbols.read? line (scanLine carry text) with
    | none => exact .none
    | some symbol => exact .some (by simp [retype, kept])
  | false =>
    refine ⟨definedTypes_line size depth kept rfl, fun place => ?_⟩
    have bound := laidBinding_line size depth kept rfl
    rw [laidSymbol?, joinedSymbol?, if_neg (by simp [kept]), Symbols.read?]
    generalize ofGap? joins (scanLine carry text) (scanLine carry text).uncommented = old at bound ⊢
    generalize ofLine? _ _ = new at bound ⊢
    cases old with
    | none =>
      cases new with
      | none => exact .none
      | some found => cases bound
    | some binding =>
      cases new with
      | none => cases bound
      | some found =>
        cases bound with
        | some told =>
          refine .some ⟨?_, ?_⟩
          · rw [name_retype]
            exact told.name
          · rw [definition_retype, kept]
            simp only [Symbol.definition, Symbol.ofBinding, told.function, told.type, Bool.not_false, Bool.true_and]

theorem agree_laidLinesFrom (size : Int) (depth : Nat) (carry : Carry) (texts : List (List Char)) :
    List.Forall₂ (Symbols.Agree laidSymbol? Symbols.read?) (scanFrom carry texts)
      (scanFrom carry (laidLinesFrom { size := size } depth (scanFrom carry texts))) := by
  induction texts generalizing depth carry with
  | nil => exact .nil
  | cons text rest ih =>
    have carried := (faithful_laidLine size depth carry text).carryOut
    refine .cons (agree_laidLine size depth carry text) ?_
    rw [carried]
    exact ih _ _

theorem definitions_text {size : Int} {content result : List Char}
    (laid : Layout.text { size := size } content = .ok result) :
    (Symbols.ofText result).definitions = (laidOut content).definitions := by
  cases written : lines { size := size } (Text.lines content) with
  | error excess => simp [Layout.text, written, Except.map] at laid
  | ok news =>
    obtain rfl : joinLines news = result := by simpa [Layout.text, written, Except.map] using laid
    rw [Symbols.ofText, Symbols.ofScans, Symbols.addFrom_eq, scanText, lines_joinLines_lines written]
    obtain ⟨-, rfl⟩ := lines_eq_ok.1 written
    exact (Symbols.definitions_gather (agree_laidLinesFrom size 0 .none (Text.lines content)) rfl 0).symm

/-- A symbol whose type the layout changes: a character that is an operator, on a line that is laid out. -/
def Retyped (content : List Char) (symbol : Symbol) : Prop :=
  isSignCharacter symbol.value = true ∧ ∃ scan, (scanText content)[symbol.line]? = some scan ∧ isKept scan = false

def retypeIn (content : List Char) (symbol : Symbol) : Symbol :=
  match (scanText content)[symbol.line]? with
  | some scan => retype scan symbol
  | none => symbol

theorem line_joinedSymbol? {line : Nat} {scan : Scan} {symbol : Symbol}
    (read : joinedSymbol? line scan = some symbol) : symbol.line = line := by
  unfold joinedSymbol? Symbols.read? at read
  split_ifs at read
  · obtain ⟨binding, -, rfl⟩ := Option.map_eq_some_iff.1 read
    rfl
  · obtain ⟨binding, -, rfl⟩ := Option.map_eq_some_iff.1 read
    rfl

theorem change_joined (content : List Char) : (joined content).change (retypeIn content) = laidOut content := by
  have name (symbol : Symbol) : (retypeIn content symbol).name = symbol.name := by
    unfold retypeIn
    split
    · exact name_retype _ _
    · rfl
  have kind (symbol : Symbol) : (retypeIn content symbol).kind = symbol.kind := by
    unfold retypeIn
    split
    · exact congrArg Definition.kind (definition_retype _ _)
    · rfl
  refine Symbols.change_gather name kind ?_ Symbols.empty
  intro index scan found
  rw [laidSymbol?]
  cases read : joinedSymbol? (0 + index) scan with
  | none => rfl
  | some symbol =>
    have line := line_joinedSymbol? read
    rw [Nat.zero_add] at line
    simp [retypeIn, line, found]

theorem retypeIn_of_not_retyped {content : List Char} {symbol : Symbol} (stays : ¬ Retyped content symbol) :
    retypeIn content symbol = symbol := by
  unfold retypeIn retype
  split
  next scan found =>
    rw [if_neg]
    intro changes
    rw [Bool.and_eq_true, Bool.not_eq_true'] at changes
    exact stays ⟨changes.2, scan, found, changes.1⟩
  next => rfl

theorem definition_retypeIn {content : List Char} {symbol : Symbol} (changes : Retyped content symbol) :
    (retypeIn content symbol).definition = ⟨symbol.line, symbol.kind, .any⟩ := by
  obtain ⟨character, scan, found, moves⟩ := changes
  simp [retypeIn, found, definition_retype, moves, character]

theorem exists_scanLine {carry : Carry} {texts : List (List Char)} {scan : Scan}
    (member : scan ∈ scanFrom carry texts) : ∃ carry text, scan = scanLine carry text := by
  induction texts generalizing carry with
  | nil => contradiction
  | cons text rest ih =>
    obtain rfl | later := List.mem_cons.1 member
    · exact ⟨carry, text, rfl⟩
    · exact ih later

theorem value_of_character {content : List Char} {line : Nat} {scan : Scan} {loose strict : Symbol}
    (found : (scanText content)[line]? = some scan) (moves : isKept scan = false)
    (joins : joinedSymbol? line scan = some loose) (reads : Symbols.read? line scan = some strict)
    (character : isSignCharacter loose.value = true) : strict.value = loose.value := by
  obtain ⟨carry, text, rfl⟩ := exists_scanLine (List.mem_of_getElem? found)
  have started := scans_of_not_isKept moves
  rw [joinedSymbol?, if_neg (by simp [moves])] at joins
  obtain ⟨bound, here, rfl⟩ := Option.map_eq_some_iff.1 joins
  obtain ⟨other, there, rfl⟩ := Option.map_eq_some_iff.1 reads
  rw [ofLine?_eq] at there
  have looseLine := @ofGap?_spaced Layout.joins carry text started
  have strictLine := @ofGap?_spaced isJoined carry text started
  rw [here, Option.map_some, eq_comm, Option.map_eq_some_iff] at looseLine
  rw [there, Option.map_some, eq_comm, Option.map_eq_some_iff] at strictLine
  obtain ⟨first, boundFirst, same⟩ := looseLine
  obtain ⟨second, boundSecond, same'⟩ := strictLine
  have value : trim (written first.2) = bound.value := congrArg Prod.snd same
  have value' : trim (written second.2) = other.value := congrArg Prod.snd same'
  have equal := boundFrom_strict boundFirst boundSecond (value ▸ character)
  change other.value = bound.value
  rw [← value, ← value', equal]

theorem type_of_character {line : Nat} {scan : Scan} {symbol : Symbol}
    (reads : Symbols.read? line scan = some symbol) (character : isSignCharacter symbol.value = true) :
    symbol.type = .char := by
  obtain ⟨binding, -, rfl⟩ := Option.map_eq_some_iff.1 reads
  obtain ⟨c, sign, value⟩ := exists_of_isSignCharacter character
  have all : ∀ c ∈ ['+', '*', '/', '=', '<', '>'], ValueType.infer ['\x60', c] = .char := by decide
  have value : binding.value = ['\x60', c] := value
  change ValueType.infer binding.value = .char
  rw [value]
  exact all c (List.contains_iff_mem.1 sign)

theorem not_retyped_of_definitions {content : List Char}
    (same : (laidOut content).definitions = (Symbols.ofText content).definitions) :
    ∀ entry ∈ (joined content).entries, ¬ Retyped content entry.2 := by
  intro entry member changes
  rw [← change_joined] at same
  obtain ⟨other, inside, -, told⟩ := Symbols.exists_of_definitions_change same member
  rw [definition_retypeIn changes] at told
  obtain nothing | ⟨line, scan, found, joins⟩ := Symbols.mem_gather member
  · contradiction
  rw [Symbols.ofText, Symbols.ofScans, Symbols.addFrom_eq] at inside
  obtain nothing | ⟨line', scan', found', reads⟩ := Symbols.mem_gather inside
  · contradiction
  rw [Nat.zero_add] at joins reads
  have place := line_joinedSymbol? joins
  have place' : other.2.line = line' := Symbols.line_read? reads
  have sameLine : other.2.line = entry.2.line := congrArg Definition.line told
  obtain rfl : line' = line := place'.symm.trans (sameLine.trans place)
  obtain rfl : scan' = scan := Option.some.inj (found'.symm.trans found)
  obtain ⟨character, known, here, moves⟩ := changes
  obtain rfl : known = scan' := by
    rw [place, found] at here
    exact (Option.some.inj here).symm
  have value := value_of_character found moves joins reads character
  have type := type_of_character reads (value ▸ character)
  have any : other.2.type = .any := congrArg Definition.type told
  rw [type] at any
  contradiction

/-- Laying out a document keeps what it defines exactly when no name is joined to its colon over blanks
that are not all ASCII and no line that is laid out binds a character that is an operator. -/
theorem definitions_text_iff {size : Int} {content result : List Char}
    (laid : Layout.text { size := size } content = .ok result) :
    (Symbols.ofText result).definitions = (Symbols.ofText content).definitions ↔
      (joined content).definitions = (Symbols.ofText content).definitions ∧
        ∀ entry ∈ (joined content).entries, ¬ Retyped content entry.2 := by
  rw [definitions_text laid]
  have unchanged (stays : ∀ entry ∈ (joined content).entries, ¬ Retyped content entry.2) :
      laidOut content = joined content := by
    rw [← change_joined]
    exact Symbols.change_eq_self fun entry member => retypeIn_of_not_retyped (stays entry member)
  constructor
  · intro same
    have stays := not_retyped_of_definitions same
    rw [unchanged stays] at same
    exact ⟨same, stays⟩
  · rintro ⟨same, stays⟩
    rw [unchanged stays, same]

theorem definitions_text_iff_block :
    let content := "f:$[a][\na+1\n]\nx: `a".toList
    let result := "f: $[a][\n    a + 1\n]\nx: `a".toList
    Layout.text {} content = .ok result ∧
      ((Symbols.ofText result).definitions = (Symbols.ofText content).definitions ↔
        (joined content).definitions = (Symbols.ofText content).definitions ∧
          ∀ entry ∈ (joined content).entries, ¬ Retyped content entry.2) := by
  intro content result
  have laid : Layout.text {} content = .ok result := by decide +kernel
  exact ⟨laid, definitions_text_iff laid⟩

/-- A character that is an operator is moved away from its backtick, and is no character then. -/
theorem definitions_text_ne :
    Layout.text {} "x: `+".toList = .ok "x: ` +".toList ∧
      (Symbols.ofText "x: ` +".toList).definitions ≠ (Symbols.ofText "x: `+".toList).definitions := by
  decide

end ArturoInsight.Layout
