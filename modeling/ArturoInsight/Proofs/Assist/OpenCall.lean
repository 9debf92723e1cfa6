import ArturoInsight.Assist.SignatureHelp
import ArturoInsight.Proofs.Lexical.Balance
import ArturoInsight.Proofs.Text.Classes
import ArturoInsight.Proofs.Text.Readers

/-! Help with the call that the cursor is in. Only the last bracket before the cursor is looked at, and the word before
it is read without a question mark. So the innermost open call is found as long as none of the blocks in it is closed
yet and the name of the function does not end in a question mark. -/

namespace ArturoInsight

open Text Lexical

namespace Lexical

/-- A character of code, or a blank in place of one of a string or a comment. -/
def codeChar (cell : Cell) : Char := if cell.2.isCode then cell.1 else ' '

theorem blanked_eq_map (scan : Scan) : scan.blanked = scan.cells.map codeChar := by
  rw [Scan.blanked, Scan.codeText, ← List.flatMap_singleton' (scan.cells.map codeChar), List.flatMap_map]
  refine List.flatMap_congr fun cell _ => ?_
  cases code : cell.2.isCode <;> simp [codeChar, code]

def isSquare (c : Char) : Bool := c == '[' || c == ']'

theorem isSquare_codeChar (cell : Cell) : isSquare (codeChar cell) = isBracket cell := by
  cases code : cell.2.isCode <;> simp [codeChar, isSquare, isBracket, code]

theorem bracketsIn_eq_nil {cells : List Cell} :
    bracketsIn cells = [] ↔ ∀ c ∈ cells.map codeChar, isSquare c = false := by
  rw [bracketsIn, List.map_eq_nil_iff, List.filter_eq_nil_iff, List.forall_mem_map]
  simp only [isSquare_codeChar, Bool.not_eq_true]

end Lexical

namespace SignatureHelp

section Brackets

variable {before after : List Char} (plain : ∀ c ∈ after, isSquare c = false)

include plain

theorem dropWhile_reverse {sign : Char} (square : isSquare sign = true) :
    (before ++ sign :: after).reverse.dropWhile (fun c => !(c == '[' || c == ']')) = sign :: before.reverse ∧
      (before ++ sign :: after).reverse.takeWhile (fun c => !(c == '[' || c == ']')) = after.reverse := by
  have all : ∀ c ∈ after.reverse, (!(c == '[' || c == ']')) = true := fun c member => by
    rw [List.mem_reverse] at member
    exact congrArg not (plain c member)
  have stops : ∀ c ∈ (sign :: before.reverse).head?, (!(c == '[' || c == ']')) = false := fun c member => by
    obtain rfl : sign = c := Option.some.inj member
    exact congrArg not square
  rw [List.reverse_append, List.reverse_cons, List.append_assoc, List.singleton_append]
  exact ⟨dropWhile_run all stops, takeWhile_run all stops⟩

theorem openCall?_append : openCall? (before ++ '[' :: after) =
    (chainHead? (before.reverse.dropWhile isBlank)).map fun name => ⟨name, after⟩ := by
  obtain ⟨dropped, taken⟩ := @dropWhile_reverse before after plain '[' rfl
  rw [openCall?, dropped, taken, List.reverse_reverse]
  rfl

theorem openCall?_closed : openCall? (before ++ ']' :: after) = none := by
  obtain ⟨dropped, -⟩ := @dropWhile_reverse before after plain ']' rfl
  rw [openCall?, dropped]
  rfl

end Brackets

def attributed (attributes : List (List Char)) : List Char := attributes.flatMap ('.' :: ·)

def Fresh (front : List Char) : Prop :=
  (∀ c ∈ front.getLast?, isWord c = false) ∧ ∀ before c, front = before ++ [c, '.'] → isWord c = false

/-- The text ends in a name, perhaps with attributes behind it, and blanks. -/
def Called (text name : List Char) : Prop :=
  ∃ front attributes gap, text = front ++ (name ++ (attributed attributes ++ gap)) ∧ Fresh front ∧
    (∀ part ∈ attributes, part ≠ [] ∧ ∀ c ∈ part, isWord c = true) ∧ Blanks gap

def inChain (c : Char) : Bool := isWord c || c == '.'

def Pointed (reversed : List Char) : Prop :=
  reversed = [] ∨ ∃ rest, reversed = '.' :: rest ∧ ∀ c ∈ rest.head?, c = '.'

theorem Fresh.pointed {front : List Char} (fresh : Fresh front) : Pointed (front.reverse.takeWhile inChain) := by
  obtain rfl | ⟨before, c, rfl⟩ := List.eq_nil_or_concat' front
  · exact .inl rfl
  · have other : isWord c = false := fresh.1 c (by simp)
    rw [List.reverse_concat]
    by_cases point : c = '.'
    · subst point
      refine .inr ⟨before.reverse.takeWhile inChain, List.takeWhile_cons_of_pos rfl, fun d first => ?_⟩
      obtain rfl | ⟨early, e, rfl⟩ := List.eq_nil_or_concat' before
      · contradiction
      · have last : isWord e = false := fresh.2 early e (by simp)
        rw [List.reverse_concat, List.takeWhile_cons] at first
        split_ifs at first with inside
        · obtain rfl : e = d := Option.some.inj first
          simpa [inChain, last] using inside
        · contradiction
    · exact .inl (List.takeWhile_cons_of_neg (by simp [inChain, other, point]))

theorem not_isBlank_of_inChain {c : Char} (chain : inChain c = true) : isBlank c = false := by
  obtain word | point := Bool.or_eq_true_iff.1 chain
  · exact not_isBlank_of_isWord word
  · obtain rfl : c = '.' := by simpa using point
    decide

theorem ne_point {text : List Char} (words : ∀ c ∈ text, isWord c = true) :
    ∀ c ∈ text.reverse, (c == '.') = false := by
  intro c member
  refine beq_false_of_ne ?_
  rintro rfl
  exact absurd (words _ (List.mem_reverse.1 member)) (by decide)

section Chain

variable {name : List Char} (nonempty : name ≠ []) (words : ∀ c ∈ name, isWord c = true)

include nonempty words

theorem takeWhile_pieces {more : List Char} (pointed : Pointed more) :
    ((pieces (· == '.') (name.reverse ++ more)).takeWhile fun part => !part.isEmpty) = [name.reverse] := by
  obtain rfl | ⟨rest, rfl, ends⟩ := pointed
  · rw [List.append_nil, pieces_of_forall_not_cut (ne_point words)]
    simp [nonempty]
  · rw [pieces_append_cut rfl (ne_point words), List.takeWhile_cons_of_pos (by simpa using nonempty)]
    cases rest with
    | nil => rfl
    | cons c rest =>
      obtain rfl : c = '.' := ends c rfl
      rw [pieces_cons_of_cut rfl]
      rfl

variable {attributes : List (List Char)} (parts : ∀ part ∈ attributes, part ≠ [] ∧ ∀ c ∈ part, isWord c = true)

include parts

theorem getLast?_parts {more : List Char} (pointed : Pointed more) :
    ((pieces (· == '.') ((name ++ attributed attributes).reverse ++ more)).takeWhile
      fun part => !part.isEmpty).getLast? = some name.reverse := by
  induction attributes using List.reverseRecOn with
  | nil =>
    rw [attributed, List.flatMap_nil, List.append_nil, takeWhile_pieces nonempty words pointed]
    rfl
  | append_singleton attributes part ih =>
    obtain ⟨some, inside⟩ := parts part (by simp)
    have whole : (name ++ attributed (attributes ++ [part])).reverse ++ more =
        part.reverse ++ '.' :: ((name ++ attributed attributes).reverse ++ more) := by
      simp [attributed]
    rw [whole, pieces_append_cut rfl (ne_point inside), List.takeWhile_cons_of_pos (by simpa using some),
      List.getLast?_cons, ih fun other member => parts other (List.mem_append_left _ member)]
    rfl

omit nonempty in
theorem inChain_of_mem : ∀ c ∈ name ++ attributed attributes, inChain c = true := by
  intro c member
  obtain inName | behind := List.mem_append.1 member
  · simp [inChain, words c inName]
  · obtain ⟨part, inside, within⟩ := List.mem_flatMap.1 behind
    obtain rfl | later := List.mem_cons.1 within
    · rfl
    · simp [inChain, (parts part inside).2 c later]

end Chain

theorem chainHead?_called {text name : List Char} (nonempty : name ≠ []) (words : ∀ c ∈ name, isWord c = true)
    (called : Called text name) : chainHead? (text.reverse.dropWhile isBlank) = some name := by
  obtain ⟨front, attributes, gap, rfl, fresh, parts, blanks⟩ := called
  have whole : (front ++ (name ++ (attributed attributes ++ gap))).reverse =
      gap.reverse ++ ((name ++ attributed attributes).reverse ++ front.reverse) := by simp
  have chain : ∀ c ∈ (name ++ attributed attributes).reverse, inChain c = true := fun c member =>
    inChain_of_mem words parts c (List.mem_reverse.1 member)
  have solid : ∀ c ∈ ((name ++ attributed attributes).reverse ++ front.reverse).head?, isBlank c = false := by
    intro c first
    rw [List.head?_append_of_ne_nil _ (by simp [nonempty])] at first
    exact not_isBlank_of_inChain (chain c (List.mem_of_head? first))
  have blanks : ∀ c ∈ gap.reverse, isBlank c = true := fun c member => blanks c (List.mem_reverse.1 member)
  have taken : ((name ++ attributed attributes).reverse ++ front.reverse).takeWhile (fun c => isWord c || c == '.') =
      (name ++ attributed attributes).reverse ++ front.reverse.takeWhile inChain :=
    List.takeWhile_append_of_pos chain
  rw [whole, dropWhile_run blanks solid, chainHead?, taken, getLast?_parts nonempty words parts fresh.pointed,
    Option.map_some, List.reverse_reverse]

theorem mem_of_mem_pieces {cut : Char → Bool} {text piece : List Char} {c : Char} (member : piece ∈ pieces cut text)
    (inside : c ∈ piece) : c ∈ text := by
  induction text generalizing piece with
  | nil => simp_all [pieces]
  | cons d rest ih =>
    cases cuts : cut d with
    | true =>
      rw [pieces_cons_of_cut cuts] at member
      obtain rfl | later := List.mem_cons.1 member
      · contradiction
      · exact List.mem_cons_of_mem d (ih later inside)
    | false =>
      obtain ⟨first, more, split⟩ := List.exists_cons_of_ne_nil (pieces_ne_nil cut rest)
      rw [pieces_cons_of_not_cut cuts split] at member
      obtain rfl | later := List.mem_cons.1 member
      · obtain rfl | further := List.mem_cons.1 inside
        · exact List.mem_cons_self
        · exact List.mem_cons_of_mem d (ih (split ▸ List.mem_cons_self) further)
      · exact List.mem_cons_of_mem d (ih (split ▸ List.mem_cons_of_mem first later) inside)

theorem isWord_of_chainHead? {reversed name : List Char} (found : chainHead? reversed = some name) :
    ∀ c ∈ name, isWord c = true := by
  intro c member
  obtain ⟨part, last, rfl⟩ := Option.map_eq_some_iff.1 found
  have inside : part ∈ pieces (· == '.') (reversed.takeWhile fun c => isWord c || c == '.') :=
    (List.takeWhile_prefix _).mem (List.mem_of_getLast? last)
  have within : c ∈ part := List.mem_reverse.1 member
  have chain := List.mem_takeWhile_imp (mem_of_mem_pieces inside within)
  rwa [not_cut_of_mem_pieces inside within, Bool.or_false] at chain

theorem isWord_of_openCall? {text : List Char} {call : OpenCall} (found : openCall? text = some call) :
    ∀ c ∈ call.name, isWord c = true := by
  unfold openCall? at found
  dsimp only at found
  split at found
  · obtain ⟨name, head, rfl⟩ := Option.map_eq_some_iff.1 found
    exact isWord_of_chainHead? head
  · contradiction

/-- The help that a signature gives for a call by a name. -/
structure Shows (help : SignatureHelp) (name : List Char) (signature : Signature) : Prop where
  label : help.label = String.ofList name ++ " " ++ " ".intercalate (signature.params.map (·.name))
  documentation : help.documentation = signature.description
  params : help.params = signature.params
  active : help.active < help.params.length

theorem Shows.name_eq {help : SignatureHelp} {first second : List Char} {left right : Signature}
    (shows : help.Shows first left) (other : help.Shows second right) (one : ' ' ∉ first) (two : ' ' ∉ second) :
    first = second := by
  have upTo {name : List Char} (whole : ' ' ∉ name) (rest : String) :
      ((String.ofList name ++ " " ++ rest).toList).takeWhile (· != ' ') = name := by
    rw [String.toList_append, String.toList_append, String.toList_ofList, List.append_assoc]
    exact takeWhile_run (fun c member => by simpa using ne_of_mem_of_not_mem member whole) (by simp)
  rw [← upTo one, ← shows.label, other.label, upTo two]

theorem shows_ofSignature (name : List Char) {signature : Signature} (params : signature.params ≠ [])
    (arguments : Nat) : (ofSignature (String.ofList name) signature arguments).Shows name signature := by
  have some := List.length_pos_of_ne_nil params
  refine ⟨rfl, rfl, rfl, ?_⟩
  change min arguments (signature.params.length - 1) < signature.params.length
  omega

end SignatureHelp

theorem spelled_of_function? {name : List Char} {signature : Signature}
    (known : Catalog.shipped.function? name = some signature) :
    name ≠ [] ∧ ∀ c ∈ name, isWord c = true ∨ c = '?' ∧ name.getLast? = some '?' := by
  have spelled : ∀ entry ∈ Catalog.shipped.functions, entry.1.toList ≠ [] ∧
      ∀ c ∈ entry.1.toList, isWord c = true ∨ c = '?' ∧ entry.1.toList.getLast? = some '?' := by decide +kernel
  obtain ⟨front, back, whole, -⟩ := List.lookup_eq_some_iff.1 known
  simpa using spelled (String.ofList name, signature) (by rw [whole]; simp)

theorem joinLines_concat (lines : List (List Char)) (last : List Char) :
    joinLines (lines ++ [last]) = lines.flatMap (· ++ ['\n']) ++ last := by
  induction lines with
  | nil => simp [joinLines]
  | cons line rest ih =>
    rw [joinLines] at ih ⊢
    rw [List.cons_append, List.flatMap_cons, List.intercalate_cons_of_ne_nil (by simp), ih]
    simp

namespace Analysis

variable (analysis : Analysis) (position : Position)

/-- The cells of the document up to a position, the line breaks taken for code. -/
def cellsBefore : List Cell :=
  ((analysis.scans.take position.line).flatMap fun scan => scan.cells ++ [('\n', .code)]) ++
    (((analysis.scans[position.line]?).map (·.cells)).getD []).take position.character

theorem codeBefore_eq : analysis.codeBefore position = (analysis.cellsBefore position).map codeChar := by
  have current : ((analysis.scans[position.line]?).map (·.blanked)).getD [] =
      (((analysis.scans[position.line]?).map (·.cells)).getD []).map codeChar := by
    cases analysis.scans[position.line]? with
    | none => rfl
    | some scan => exact blanked_eq_map scan
  rw [codeBefore, cellsBefore, joinLines_concat, current, List.map_append]
  refine congrArg₂ (· ++ ·) ?_ List.map_take.symm
  rw [List.flatMap_map, List.map_flatMap]
  refine List.flatMap_congr fun scan _ => ?_
  rw [blanked_eq_map, List.map_append]
  rfl

variable {analysis position}

theorem signatureHelp?_eq_some {help : SignatureHelp} : analysis.signatureHelp? position = some help ↔
    (analysis.line? position.line).isSome = true ∧ ∃ call signature,
      SignatureHelp.openCall? (analysis.codeBefore position) = some call ∧
      Catalog.shipped.function? call.name = some signature ∧ signature.params ≠ [] ∧
      help = .ofSignature (String.ofList call.name) signature (words call.arguments).length := by
  simp only [signatureHelp?, Option.bind_eq_bind, Option.bind_eq_some_iff, Option.isSome_iff_exists]
  constructor
  · rintro ⟨line, held, call, found, signature, known, given⟩
    split_ifs at given with empty
    exact ⟨⟨line, held⟩, call, signature, found, known, by simpa using empty, (Option.some.inj given).symm⟩
  · rintro ⟨⟨line, held⟩, call, signature, found, known, params, rfl⟩
    exact ⟨line, held, call, found, signature, known, by simp [params]⟩

end Analysis

section Innermost

variable {analysis : Analysis} {position : Position} {front inside : List Cell}
  (open_ : InnermostOpen (analysis.cellsBefore position) front inside)

include open_

theorem openCall?_of_closed (some : bracketsIn inside ≠ []) :
    SignatureHelp.openCall? (analysis.codeBefore position) = none := by
  obtain ⟨before, tag, after, last, code, none⟩ := open_.exists_last some
  rw [analysis.codeBefore_eq, last, List.map_append, List.map_cons, codeChar, if_pos code]
  exact SignatureHelp.openCall?_closed (bracketsIn_eq_nil.1 none)

theorem openCall?_of_called {name : List Char} (none : bracketsIn inside = []) (nonempty : name ≠ [])
    (words : ∀ c ∈ name, isWord c = true) (called : SignatureHelp.Called (front.map codeChar) name) :
    SignatureHelp.openCall? (analysis.codeBefore position) = some ⟨name, inside.map codeChar⟩ := by
  obtain ⟨tag, whole, code⟩ := open_.opens
  rw [analysis.codeBefore_eq, whole, List.map_append, List.map_cons, codeChar, if_pos code,
    SignatureHelp.openCall?_append (bracketsIn_eq_nil.1 none),
    SignatureHelp.chainHead?_called nonempty words called]
  rfl

end Innermost

/-- Help with the innermost open call is given exactly if no block in it is closed before the cursor and its name does
not end in a question mark. -/
theorem signatureHelp_iff (analysis : Analysis) (position : Position) {name : List Char} {signature : Signature}
    {front inside : List Cell} (held : position.line < analysis.scans.length)
    (open_ : InnermostOpen (analysis.cellsBefore position) front inside)
    (called : SignatureHelp.Called (front.map codeChar) name)
    (known : Catalog.shipped.function? name = some signature) (params : signature.params ≠ []) :
    (∃ help, analysis.signatureHelp? position = some help ∧ help.Shows name signature) ↔
      bracketsIn inside = [] ∧ name.getLast? ≠ some '?' := by
  obtain ⟨nonempty, spelled⟩ := spelled_of_function? known
  constructor
  · rintro ⟨help, given, shows⟩
    obtain ⟨-, call, other, found, theirs, some, rfl⟩ := Analysis.signatureHelp?_eq_some.1 given
    have words := SignatureHelp.isWord_of_openCall? found
    refine ⟨?_, fun question => ?_⟩
    · by_contra closed
      rw [openCall?_of_closed open_ closed] at found
      contradiction
    · have same := (SignatureHelp.shows_ofSignature call.name some _).name_eq shows ?_ ?_
      · rw [same] at words
        exact absurd (words '?' (List.mem_of_getLast? question)) (by decide)
      · exact fun blank => absurd (words ' ' blank) (by decide)
      · intro blank
        obtain word | ⟨mark, -⟩ := spelled ' ' blank
        · exact absurd word (by decide)
        · exact absurd mark (by decide)
  · rintro ⟨none, plain⟩
    have words : ∀ c ∈ name, isWord c = true := fun c member =>
      (spelled c member).resolve_right fun question => plain question.2
    have found := openCall?_of_called open_ none nonempty words called
    refine ⟨_, Analysis.signatureHelp?_eq_some.2 ⟨?_, _, signature, found, known, params, rfl⟩,
      SignatureHelp.shows_ofSignature name params _⟩
    rw [Analysis.line?, List.getElem?_eq_getElem held]
    rfl

theorem SignatureHelp.fresh_blank (front : List Char) : Fresh (front ++ [' ']) := by
  refine ⟨fun c last => ?_, fun before c same => ?_⟩
  · obtain rfl : ' ' = c := by simpa using last
    decide
  · have last := congrArg List.getLast? same
    simp at last

theorem exists_signature_add :
    ∃ signature, Catalog.shipped.function? "add".toList = some signature ∧ signature.params ≠ [] := by
  obtain ⟨signature, known⟩ := Option.isSome_iff_exists.1
    (by decide +kernel : (Catalog.shipped.function? "add".toList).isSome = true)
  have params : ∀ signature ∈ Catalog.shipped.function? "add".toList, signature.params ≠ [] := by decide +kernel
  exact ⟨signature, known, params signature known⟩

/-- The bracket of the call is on the line below its name; one in a comment comes before it, one in a string after. -/
theorem signatureHelp_iff_below :
    let analysis := Analysis.ofText "" "print add ; sum [\n [1 \x22]\x22 ".toList .default none
    let cells := analysis.cellsBefore ⟨1, 8⟩
    ∃ signature, InnermostOpen cells (cells.take 19) (cells.drop 20) ∧
      SignatureHelp.Called ((cells.take 19).map codeChar) "add".toList ∧
      Catalog.shipped.function? "add".toList = some signature ∧ signature.params ≠ [] ∧
      ∃ help, analysis.signatureHelp? ⟨1, 8⟩ = some help ∧ help.Shows "add".toList signature := by
  intro analysis cells
  obtain ⟨signature, known, params⟩ := exists_signature_add
  have none : bracketsIn (cells.drop 20) = [] := by decide +kernel
  have open_ : InnermostOpen cells (cells.take 19) (cells.drop 20) :=
    @InnermostOpen.of_balanced _ _ _ .block (by decide +kernel) rfl (none ▸ .nil)
  have called : SignatureHelp.Called ((cells.take 19).map codeChar) "add".toList :=
    ⟨"print".toList ++ [' '], [], "        \n ".toList, by decide +kernel, SignatureHelp.fresh_blank _, by simp,
      by decide⟩
  exact ⟨signature, open_, called, known, params,
    (signatureHelp_iff analysis ⟨1, 8⟩ (by decide +kernel) open_ called known params).2 ⟨none, by decide⟩⟩

/-- A block that is closed within the call hides it. -/
theorem signatureHelp_none_of_closed :
    let analysis := Analysis.ofText "" "add [first [1 2] ".toList .default none
    let cells := analysis.cellsBefore ⟨0, 17⟩
    ∃ signature, InnermostOpen cells (cells.take 4) (cells.drop 5) ∧
      SignatureHelp.Called ((cells.take 4).map codeChar) "add".toList ∧
      Catalog.shipped.function? "add".toList = some signature ∧ signature.params ≠ [] ∧
      analysis.signatureHelp? ⟨0, 17⟩ = none := by
  intro analysis cells
  obtain ⟨signature, known, params⟩ := exists_signature_add
  have balanced : Balanced (bracketsIn (cells.drop 5)) := by
    have closed : bracketsIn (cells.drop 5) = '[' :: ([] ++ [']']) := by decide +kernel
    exact closed ▸ .wrap .nil
  have open_ : InnermostOpen cells (cells.take 4) (cells.drop 5) :=
    @InnermostOpen.of_balanced _ _ _ .block (by decide +kernel) rfl balanced
  have called : SignatureHelp.Called ((cells.take 4).map codeChar) "add".toList :=
    ⟨[], [], [' '], by decide +kernel, ⟨by simp, by simp⟩, by simp, blanks_one⟩
  exact ⟨signature, open_, called, known, params, by decide +kernel⟩

end ArturoInsight
