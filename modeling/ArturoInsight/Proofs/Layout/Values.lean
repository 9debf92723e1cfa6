import ArturoInsight.Proofs.Layout.Words
import ArturoInsight.Proofs.ValueType

/-! Which values a layout may write anew without a change of their type. Most types are those of values without
blanks and operators; for the others only the start of a value counts, or two points somewhere in it. -/

namespace ArturoInsight.Layout

open Text ValueType

section Marks

variable {c d : Char}

def isMark (c : Char) : Bool := isSign c || c == '-'

theorem ne_of_isMark (mark : isMark c = true) (other : isMark d = false) : c ≠ d := by
  rintro rfl
  rw [other] at mark
  contradiction

theorem isMark_of_isSign (sign : isSign c = true) : isMark c = true := by simp [isMark, sign]

theorem not_isNameStart_of_isMark (mark : isMark c = true) : isNameStart c = false := by
  have all : ∀ c ∈ ['+', '*', '/', '=', '<', '>', '-'], isNameStart c = false := by decide
  exact all c (by simpa [isMark, isSign, or_assoc] using mark)

theorem not_isWord_of_isMark (mark : isMark c = true) : isWord c = false := by
  have all : ∀ c ∈ ['+', '*', '/', '=', '<', '>', '-'], isWord c = false := by decide
  exact all c (by simpa [isMark, isSign, or_assoc] using mark)

theorem not_isBlank_of_isMark (mark : isMark c = true) : isBlank c = false := by
  have all : ∀ c ∈ ['+', '*', '/', '=', '<', '>', '-'], isBlank c = false := by decide
  exact all c (by simpa [isMark, isSign, or_assoc] using mark)

theorem not_isLetter_of_isMark (mark : isMark c = true) : isLetter c = false := by
  by_contra letter
  have word := isWord_of_isLetter (by simpa using letter)
  rw [not_isWord_of_isMark mark] at word
  contradiction

theorem isMark_of_single {apart : Prop} (sign : isSign c = true ∨ c = '-' ∧ apart) : isMark c = true := by
  obtain sign | ⟨rfl, -⟩ := sign
  · simp [isMark, sign]
  · rfl

theorem isMark_of_double (firm : [c, d] ∈ firmOperators) : isMark c = true ∧ isSign d = true := by
  have all : ∀ sign ∈ firmOperators, sign.head?.all isMark = true := by decide
  refine ⟨all _ firm, ?_⟩
  obtain ⟨_, _, same⟩ | ⟨_, _, sign, same, -⟩ := firmOperators_cases firm
  · simp at same
  · obtain ⟨rfl, rfl⟩ : c = _ ∧ d = _ := by simpa using same
    exact sign

end Marks

def Compact (text : List Char) : Prop := ∀ c ∈ text, isBlank c = false ∧ isSign c = false

instance (text : List Char) : Decidable (Compact text) := by unfold Compact; infer_instance

section Compact

variable {text : List Char}

theorem compact_of_all {holds : Char → Bool} (words : ∀ c, holds c = true → isWord c = true)
    (all : text.all holds = true) : Compact text := by
  intro c member
  have word := words c (List.all_eq_true.1 all c member)
  constructor
  · by_contra blank
    rw [not_isWord_of_isBlank (by simpa using blank)] at word
    contradiction
  · by_contra sign
    rw [not_isWord_of_isMark (by simp [isMark, sign])] at word
    contradiction

theorem compact_of_isDigits (digits : Literal.isDigits text = true) : Compact text := by
  rw [Literal.isDigits, Bool.and_eq_true] at digits
  exact compact_of_all (fun c => isWord_of_isDigit) digits.2

theorem compact_of_unsigned (compact : Compact (Literal.unsigned text)) : Compact text := by
  unfold Literal.unsigned at compact
  split at compact
  · exact List.forall_mem_cons.2 ⟨by decide, compact⟩
  · exact compact

theorem compact_of_isSplitDigits {mark : Char} (other : Compact [mark])
    (split : Literal.isSplitDigits mark text = true) : Compact text := by
  unfold Literal.isSplitDigits upTo? at split
  split at split
  · rename_i whole rest found
    cases tail : text.dropWhile (· != mark) with
    | nil => simp [tail] at found
    | cons c more =>
      obtain ⟨rfl, rfl⟩ : text.takeWhile (· != mark) = whole ∧ more = rest := by simpa [tail] using found
      have stops := List.head?_dropWhile_not (· != mark) text
      rw [tail] at stops
      obtain rfl : c = mark := by simpa using stops
      rw [Bool.and_eq_true] at split
      rw [← List.takeWhile_append_dropWhile (p := (· != c)) (l := text), tail]
      exact List.forall_mem_append.2 ⟨compact_of_isDigits split.1,
        List.forall_mem_cons.2 ⟨other c List.mem_cons_self, compact_of_isDigits split.2⟩⟩
  · contradiction

theorem compact_of_isColor (color : isColor text = true) : Compact text := by
  unfold isColor at color
  split at color
  · rename_i name
    rw [Bool.or_eq_true, Bool.and_eq_true, Bool.and_eq_true] at color
    refine List.forall_mem_cons.2 ⟨by decide, ?_⟩
    obtain ⟨-, digits⟩ | ⟨-, letters⟩ := color
    · exact compact_of_all (fun c => isWord_of_isHexDigit) digits
    · exact compact_of_all (fun c => isWord_of_isLower) letters
  · contradiction

end Compact

def Whole (word : List Char) : Prop := word ≠ [] ∧ ∀ c ∈ word, isMark c = false ∧ isBlank c = false

instance (word : List Char) : Decidable (Whole word) := by unfold Whole; infer_instance

/-- Two values that are the same but for blanks around operators. -/
structure Alike (old new : List Char) : Prop where
  compact : Compact old ∨ Compact new → old = new
  head : old.head? = new.head?
  starts : ∀ word : List Char, Whole word → word.isPrefixOf old = word.isPrefixOf new
  words : ∀ word : String, Whole word.toList → startsWithWord word old = startsWithWord word new
  points : occursIn "..".toList old = occursIn "..".toList new

namespace Alike

variable {old new : List Char} (alike : Alike old new)

include alike

/-- Nothing that holds of compact values alone tells the two apart. -/
theorem congr (holds : List Char → Bool) (compact : ∀ text, holds text = true → Compact text) :
    holds old = holds new := by
  cases first : holds old with
  | true => rw [← alike.compact (.inl (compact old first)), first]
  | false =>
    cases second : holds new with
    | true => rw [← first, alike.compact (.inr (compact new second)), second]
    | false => rfl

theorem startsFunction_eq : startsFunction old = startsFunction new := by
  unfold startsFunction
  rw [alike.words "function" (by decide), alike.words "method" (by decide), alike.head]

theorem ofTrimmed_eq (character : isCharacter old = isCharacter new) : ofTrimmed old = ofTrimmed new := by
  have integer : Literal.isInteger old = Literal.isInteger new :=
    alike.congr _ fun text integer => compact_of_unsigned (compact_of_isDigits integer)
  have floating : Literal.isFloating old = Literal.isFloating new :=
    alike.congr _ fun text floating =>
      compact_of_unsigned (compact_of_isSplitDigits (by decide : Compact ['.']) floating)
  have rational : Literal.isSplitDigits ':' old = Literal.isSplitDigits ':' new :=
    alike.congr _ fun text => compact_of_isSplitDigits (by decide)
  have logical : ["true", "false", "maybe"].contains (String.ofList old) =
      ["true", "false", "maybe"].contains (String.ofList new) := by
    apply alike.congr fun text => ["true", "false", "maybe"].contains (String.ofList text)
    intro text word
    have words : ∀ word ∈ ["true", "false", "maybe"], Compact word.toList := by decide
    simpa using words _ (List.contains_iff_mem.1 word)
  have null : (old == "null".toList) = (new == "null".toList) := by
    apply alike.congr fun text => text == "null".toList
    intro text word
    rw [beq_iff_eq.1 word]
    decide
  have color : isColor old = isColor new := alike.congr _ fun text => compact_of_isColor
  have function := alike.startsFunction_eq
  have method := alike.words "method" (by decide)
  have dictionary := alike.starts "#[".toList (by decide)
  simp only [ofTrimmed, integer, floating, rational, logical, null, color, function, method, dictionary, character,
    alike.head, alike.points]

end Alike

end ArturoInsight.Layout
