import ArturoInsight.Overlay.Tokens
import ArturoInsight.Proofs.Lexical.WellFormed
import ArturoInsight.Proofs.Symbol.Name
import ArturoInsight.Proofs.Text.Lines
import Mathlib.Data.List.Sort

/-! The semantic tokens of a document: each lies within its line, they come in order without an overlap, and
decoding the numbers that they are written as gives them back. -/

namespace ArturoInsight

open Text Lexical

namespace Token

/-- Five numbers a token, read back from where the token before it was. -/
def decodeFrom (line start : Int) : List Int → Option (List Token)
  | [] => some []
  | lines :: columns :: length :: kind :: modifiers :: rest =>
    let token : Token := ⟨line + lines, if lines = 0 then start + columns else columns, length, kind, modifiers⟩
    (decodeFrom token.line token.start rest).map (token :: ·)
  | _ => none

def decode (numbers : List Int) : Option (List Token) := decodeFrom 0 0 numbers

theorem decodeFrom_encodeFrom (line start : Int) (tokens : List Token) :
    decodeFrom line start (encodeFrom line start tokens) = some tokens := by
  induction tokens generalizing line start with
  | nil => rfl
  | cons token rest ih =>
    have place : line + (token.line - line) = token.line := by omega
    have column : (if token.line - line = 0 then start + (if token.line = line then token.start - start
        else token.start) else if token.line = line then token.start - start else token.start) = token.start := by
      by_cases same : token.line = line
      · rw [if_pos (by omega), if_pos same]
        omega
      · rw [if_neg (by omega), if_neg same]
    simp only [encodeFrom, List.cons_append, List.nil_append, decodeFrom, place, column, ih, Option.map_some]

/-- A token comes after another one, and on the same line where that one has ended. -/
def Precedes (left right : Token) : Prop :=
  left.line < right.line ∨
    left.line = right.line ∧ left.start < right.start ∧ left.start + left.length ≤ right.start

def Apart (left right : Token) : Prop :=
  left.line = right.line → left.start + left.length ≤ right.start ∨ right.start + right.length ≤ left.start

theorem Apart.symm {left right : Token} (apart : Apart left right) : Apart right left :=
  fun same => (apart same.symm).symm

/-- A token on columns of a line, with a kind and modifiers that can be written. -/
structure Within (line width : Nat) (token : Token) : Prop where
  line : token.line = line
  start : 0 ≤ token.start
  length : 0 < token.length
  stop : token.start + token.length ≤ width
  kind : 0 ≤ token.kind
  modifiers : 0 ≤ token.modifiers

theorem within_make {line start length width : Nat} (kind : TokenKind) (modifiers : Nat) (positive : 0 < length)
    (inside : start + length ≤ width) : Within line width (make line start length kind modifiers) where
  line := rfl
  start := Int.natCast_nonneg start
  length := Int.ofNat_lt.2 positive
  stop := Int.ofNat_le.2 inside
  kind := Int.natCast_nonneg _
  modifiers := Int.natCast_nonneg modifiers

section Order

theorem inOrder_total : ∀ {lefts rights : List Int}, lefts.length = rights.length →
    (inOrder lefts rights || inOrder rights lefts) = true
  | [], [], _ => rfl
  | left :: lefts, right :: rights, same => by
    have later := inOrder_total (Nat.succ.inj same)
    simp only [inOrder, Bool.or_eq_true, Bool.and_eq_true, decide_eq_true_eq, beq_iff_eq] at later ⊢
    obtain less | rfl | greater := lt_trichotomy left right
    · exact .inl (.inl less)
    · exact later.imp (fun ordered => .inr ⟨rfl, ordered⟩) fun ordered => .inr ⟨rfl, ordered⟩
    · exact .inr (.inl greater)

theorem inOrder_trans : ∀ {lefts middles rights : List Int}, lefts.length = middles.length →
    middles.length = rights.length → inOrder lefts middles = true → inOrder middles rights = true →
    inOrder lefts rights = true
  | [], _, _, _, _, _, _ => by simp [inOrder]
  | left :: lefts, middle :: middles, right :: rights, first, second, before, after => by
    simp only [inOrder, Bool.or_eq_true, Bool.and_eq_true, decide_eq_true_eq, beq_iff_eq] at before after ⊢
    obtain less | ⟨rfl, before⟩ := before
    · omega
    · obtain less | ⟨rfl, after⟩ := after
      · exact .inl less
      · exact .inr ⟨rfl, inOrder_trans (Nat.succ.inj first) (Nat.succ.inj second) before after⟩

theorem pairwise_mergeSort_before (tokens : List Token) :
    (tokens.mergeSort before).Pairwise fun left right => before left right = true := by
  apply List.pairwise_mergeSort
  · exact fun _ _ _ => inOrder_trans rfl rfl
  · exact fun _ _ => inOrder_total rfl

theorem precedes_of_before {left right : Token} (ordered : before left right = true) (apart : Apart left right)
    (first : 0 < left.length) (second : 0 < right.length) : Precedes left right := by
  simp only [before, fields, inOrder, Bool.or_eq_true, Bool.and_eq_true, decide_eq_true_eq, beq_iff_eq] at ordered
  unfold Precedes
  obtain less | ⟨same, ordered⟩ := ordered
  · exact .inl less
  · have ends := apart same
    omega

end Order

theorem word_eq_some {before : Option Char} {text tail : List Char} {value : Option Char × List Char}
    (reads : word before text = some (value, tail)) :
    text = value.2 ++ tail ∧ value.2 ≠ [] ∧ ∀ c ∈ value.2, isWordy c = true := by
  unfold word at reads
  obtain ⟨-, reads⟩ := Option.ite_none_left_eq_some.1 reads
  obtain ⟨⟨name, rest⟩, token, same⟩ := Option.map_eq_some_iff.1 reads
  obtain ⟨rfl, rfl⟩ := Prod.mk.inj same
  obtain ⟨whole, taken, -⟩ := Name.token?_eq_some.1 token
  refine ⟨whole, taken.ne_nil, fun c member => ?_⟩
  obtain part | rfl := taken.part member
  · exact isWordy_of_isNamePart part
  · decide

section Line

variable {scan : Scan} (formed : WellFormed scan) {line : Nat}

/-- The columns of a token. -/
def Covers (token : Token) (column : Nat) : Prop := token.start ≤ column ∧ column < token.start + token.length

def ofSpan? (line : Nat) (span : Span) : Option Token :=
  if span.tag = .comment then some (make line span.start.toNat (span.stop - span.start).toNat .comment 0)
  else if span.tag.isString then some (make line span.start.toNat (span.stop - span.start).toNat .string 0)
  else none

def ofWord? (analysis : Analysis) (line : Nat) (scan : Scan) (found : Found (Option Char × List Char)) :
    Option Token :=
  if scan.codeAt found.start then
    (meaning? analysis line found.start found.value.1 found.value.2).map fun (kind, modifiers) =>
      make line found.start found.value.2.length kind modifiers
  else none

theorem ofSpans_eq (line : Nat) (scan : Scan) : ofSpans line scan = scan.spans.filterMap (ofSpan? line) := rfl

theorem ofWords_eq (analysis : Analysis) (line : Nat) (scan : Scan) :
    ofWords analysis line scan = (finds word scan.text).filterMap (ofWord? analysis line scan) := rfl

theorem exists_kind_of_span {span : Span} {token : Token} (made : ofSpan? line span = some token) :
    span.tag.isCode = false ∧ ∃ kind, token = make line span.start.toNat (span.stop - span.start).toNat kind 0 := by
  unfold ofSpan? at made
  split_ifs at made with comment string
  · exact ⟨by rw [comment]; rfl, .comment, (Option.some.inj made).symm⟩
  · exact ⟨Tag.isCode_eq_false_of_isString string, .string, (Option.some.inj made).symm⟩

theorem exists_kind_of_word {analysis : Analysis} {found : Found (Option Char × List Char)} {token : Token}
    (made : ofWord? analysis line scan found = some token) : scan.codeAt found.start = true ∧
      ∃ kind modifiers, token = make line found.start found.value.2.length kind modifiers := by
  obtain ⟨code, made⟩ := Option.ite_none_right_eq_some.1 made
  obtain ⟨meaning, -, rfl⟩ := Option.map_eq_some_iff.1 made
  exact ⟨code, meaning.1, meaning.2, rfl⟩

theorem pairwise_ofWords (analysis : Analysis) (line : Nat) (scan : Scan) :
    (ofWords analysis line scan).Pairwise Apart := by
  have takes (before : Option Char) (text : List Char) (value : Option Char × List Char) (after : List Char)
      (reads : word before text = some (value, after)) : value.2.length + after.length = text.length := by
    rw [(word_eq_some reads).1, List.length_append]
  rw [ofWords_eq]
  refine (pairwise_findsFrom_apart takes 0 0 none scan.text).1.filterMap _ ?_
  intro left right ends first made second other
  obtain ⟨-, kind, modifiers, rfl⟩ := exists_kind_of_word made
  obtain ⟨-, kind', modifiers', rfl⟩ := exists_kind_of_word other
  exact fun _ => .inl (Int.ofNat_le.2 ends)

include formed

theorem within_ofSpans {token : Token} (member : token ∈ ofSpans line scan) :
    Within line scan.text.length token ∧ ∀ column, token.Covers column → scan.codeAt column = false := by
  obtain ⟨span, inside, made⟩ := List.mem_filterMap.1 member
  obtain ⟨other, kind, rfl⟩ := exists_kind_of_span made
  have nonempty := formed.tiled.nonempty span inside
  obtain ⟨low, high⟩ := formed.tiled.within span inside
  rw [formed.length] at high
  refine ⟨within_make kind 0 (by omega) (by omega), fun column covers => ?_⟩
  have contains : span.contains column = true := by
    have first : (span.start.toNat : Int) ≤ column := covers.1
    have last : (column : Int) < (span.start.toNat : Int) + ((span.stop - span.start).toNat : Int) := covers.2
    simp only [Span.contains, Bool.and_eq_true, decide_eq_true_eq]
    omega
  rw [← other, ← formed.tiled.tagged span inside column contains]
  rfl

theorem pairwise_ofSpans (line : Nat) : (ofSpans line scan).Pairwise Apart := by
  have joined := Span.pairwise_of_joins formed.tiled.nonempty formed.tiled.joined
  rw [ofSpans_eq, List.pairwise_filterMap]
  apply joined.imp_of_mem
  intro left right inside _ ends first made second other
  obtain ⟨-, kind, rfl⟩ := exists_kind_of_span made
  obtain ⟨-, kind', rfl⟩ := exists_kind_of_span other
  have nonempty := formed.tiled.nonempty left inside
  obtain ⟨low, high⟩ := formed.tiled.within left inside
  intro _
  left
  change (left.start.toNat : Int) + ((left.stop - left.start).toNat : Int) ≤ (right.start.toNat : Int)
  omega

theorem within_ofWords {analysis : Analysis} {token : Token} (member : token ∈ ofWords analysis line scan) :
    Within line scan.text.length token ∧ ∀ column, token.Covers column → scan.codeAt column = true := by
  obtain ⟨found, inside, made⟩ := List.mem_filterMap.1 member
  obtain ⟨code, kind, modifiers, rfl⟩ := exists_kind_of_word made
  obtain ⟨front, back, text, start, tail, reads⟩ := exists_of_mem_findsFrom inside
  obtain ⟨rfl, some_, wordy⟩ := word_eq_some reads
  rw [Nat.zero_add] at start
  have positive := List.length_pos_iff.2 some_
  rw [start] at code ⊢
  refine ⟨within_make kind modifiers positive ?_, fun column covers => ?_⟩
  · rw [text, List.length_append, List.length_append]
    omega
  · rw [← List.append_assoc] at text
    exact formed.codeAt_word text wordy code (Int.ofNat_le.1 covers.1) (Int.ofNat_lt.1 covers.2)

theorem pairwise_line (analysis : Analysis) :
    (ofSpans line scan ++ ofWords analysis line scan).Pairwise Apart := by
  refine List.pairwise_append.2 ⟨pairwise_ofSpans formed line, pairwise_ofWords analysis line scan, ?_⟩
  intro left first right second
  obtain ⟨within, outside⟩ := within_ofSpans formed first
  obtain ⟨within', inside⟩ := within_ofWords formed second
  intro _
  by_contra overlap
  obtain ⟨column, here⟩ : ∃ column : Nat, (column : Int) = max left.start right.start :=
    ⟨(max left.start right.start).toNat, Int.toNat_of_nonneg (within.start.trans (Int.le_max_left _ _))⟩
  have positive := within.length
  have positive' := within'.length
  have other := outside column ⟨by omega, by omega⟩
  rw [inside column ⟨by omega, by omega⟩] at other
  contradiction

theorem within_line {analysis : Analysis} {token : Token}
    (member : token ∈ ofSpans line scan ++ ofWords analysis line scan) : Within line scan.text.length token := by
  obtain span | word := List.mem_append.1 member
  · exact (within_ofSpans formed span).1
  · exact (within_ofWords formed word).1

end Line

section Document

variable {analysis : Analysis} (formed : ∀ scan ∈ analysis.scans, WellFormed scan)

include formed

theorem exists_line {token : Token} (member : token ∈ analysis.tokens) :
    ∃ line scan, analysis.scans[line]? = some scan ∧ Within line scan.text.length token := by
  rw [Analysis.tokens, List.mem_mergeSort] at member
  obtain ⟨⟨scan, line⟩, place, inside⟩ := List.mem_flatMap.1 member
  have found := List.mem_zipIdx_iff_getElem?.1 place
  exact ⟨line, scan, found, within_line (formed scan (List.mem_of_getElem? found)) inside⟩

theorem pairwise_apart : (analysis.scans.zipIdx.flatMap fun (scan, line) =>
    ofSpans line scan ++ ofWords analysis line scan).Pairwise Apart := by
  have within {entry : Scan × Nat} (member : entry ∈ analysis.scans.zipIdx) : WellFormed entry.1 :=
    formed _ (List.mem_of_getElem? (List.mem_zipIdx_iff_getElem?.1 member))
  refine List.pairwise_flatMap.2 ⟨fun entry member => pairwise_line (within member) analysis, ?_⟩
  apply (pairwise_zipIdx analysis.scans).imp_of_mem
  intro left right first second less token inside other there same
  have here := (within_line (within first) inside).line
  have further := (within_line (within second) there).line
  omega

theorem pairwise_tokens : analysis.tokens.Pairwise Precedes := by
  have positive {token : Token} (member : token ∈ analysis.tokens) : 0 < token.length := by
    obtain ⟨line, scan, -, within⟩ := exists_line formed member
    exact within.length
  have apart : analysis.tokens.Pairwise Apart :=
    (pairwise_apart formed).perm (List.mergeSort_perm _ _).symm Apart.symm
  apply ((pairwise_mergeSort_before _).and apart).imp_of_mem
  intro left right first second both
  exact precedes_of_before both.1 both.2 (positive first) (positive second)

end Document

theorem nonneg_of_mem_encodeFrom {tokens : List Token} (ordered : tokens.Pairwise Precedes)
    (within : ∀ token ∈ tokens, ∃ line width, Within line width token) {line start : Int}
    (first : ∀ token ∈ tokens, line < token.line ∨ line = token.line ∧ start ≤ token.start) :
    ∀ number ∈ encodeFrom line start tokens, 0 ≤ number := by
  induction tokens generalizing line start with
  | nil => exact List.forall_mem_nil _
  | cons token rest ih =>
    obtain ⟨before, later⟩ := List.pairwise_cons.1 ordered
    obtain ⟨⟨place, width, fits⟩, others⟩ := List.forall_mem_cons.1 within
    have here := first token List.mem_cons_self
    have further : ∀ other ∈ rest, token.line < other.line ∨ token.line = other.line ∧ token.start ≤ other.start :=
      fun other member => (before other member).imp_right fun same => ⟨same.1, same.2.1.le⟩
    have column : 0 ≤ if token.line = line then token.start - start else token.start := by
      have sign := fits.start
      split_ifs <;> omega
    rw [encodeFrom]
    refine List.forall_mem_append.2 ⟨?_, ih later others further⟩
    simp only [List.forall_mem_cons]
    exact ⟨by omega, column, fits.length.le, fits.kind, fits.modifiers, List.forall_mem_nil _⟩

end Token

/-- The tokens of a document lie within its lines and follow each other without an overlap; they are written as
numbers none of which is negative, and read back from those. -/
theorem tokens_decodable (uri : String) (text : List Char) (linter : Linter) (version : Option Int) :
    let analysis := Analysis.ofText uri text linter version
    (∀ token ∈ analysis.tokens, ∃ line scan, analysis.scans[line]? = some scan ∧
      Token.Within line scan.text.length token) ∧
    analysis.tokens.Pairwise Token.Precedes ∧
    Token.decode (Token.encode analysis.tokens) = some analysis.tokens ∧
    ∀ number ∈ Token.encode analysis.tokens, 0 ≤ number := by
  intro analysis
  have formed : ∀ scan ∈ analysis.scans, WellFormed scan := (wellFormed_scanLines (Text.lines text)).2.1
  have ordered := Token.pairwise_tokens formed
  have within (token : Token) (member : token ∈ analysis.tokens) := Token.exists_line formed member
  refine ⟨within, ordered, Token.decodeFrom_encodeFrom 0 0 _, ?_⟩
  apply Token.nonneg_of_mem_encodeFrom ordered
  · intro token member
    obtain ⟨line, scan, -, fits⟩ := within token member
    exact ⟨line, _, fits⟩
  · intro token member
    obtain ⟨line, scan, -, fits⟩ := within token member
    have place := fits.line
    have sign := fits.start
    omega

end ArturoInsight
