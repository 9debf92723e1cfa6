import ArturoInsight.Document.Position
import ArturoInsight.Proofs.Lexical.Balance
import ArturoInsight.Proofs.Lexical.Cells
import ArturoInsight.Proofs.Overview.Folding
import ArturoInsight.Proofs.Text.Lines

/-! Matched pairs of brackets. Read from left to right, the last opening bracket that is still open is the one before
balanced brackets, so that keeping the open ones on a stack finds the pairs with balanced brackets between them and no
others. -/

namespace ArturoInsight

open Text Lexical

/-- A square bracket in code and where it stands. -/
structure Bracket where
  sign : Char
  place : Position
deriving DecidableEq, Repr

namespace Bracket

def ofLine (line : Nat) (scan : Scan) : List Bracket :=
  scan.cells.zipIdx.filterMap fun (cell, column) => if isBracket cell then some ⟨cell.1, ⟨line, column⟩⟩ else none

def ofLines (line : Nat) : List Scan → List Bracket
  | [] => []
  | scan :: rest => ofLine line scan ++ ofLines (line + 1) rest

/-- The brackets in the code of a document, in order. -/
def ofScans (scans : List Scan) : List Bracket := ofLines 0 scans

def Before (first second : Bracket) : Prop :=
  first.place.line < second.place.line ∨
    first.place.line = second.place.line ∧ first.place.character < second.place.character

/-- An opening bracket and the closing one behind it with balanced brackets between them. -/
def Matched (brackets : List Bracket) (opener closer : Bracket) : Prop :=
  ∃ front inner back, brackets = front ++ opener :: (inner ++ closer :: back) ∧ opener.sign = '[' ∧
    closer.sign = ']' ∧ Balanced (inner.map sign)

theorem Before.asymm {first second : Bracket} (before : Before first second) : ¬ Before second first := by
  unfold Before at *
  omega

theorem Before.irrefl {bracket : Bracket} (before : Before bracket bracket) : False := before.asymm before

section Places

variable {line : Nat} {scan : Scan} {scans : List Scan} {bracket : Bracket}

theorem mem_ofLine : bracket ∈ ofLine line scan ↔ ∃ cell column, scan.cells[column]? = some cell ∧
    isBracket cell = true ∧ bracket = ⟨cell.1, ⟨line, column⟩⟩ := by
  simp only [ofLine, List.mem_filterMap, Option.ite_none_right_eq_some, Option.some.injEq]
  constructor
  · rintro ⟨⟨cell, column⟩, member, shown, rfl⟩
    exact ⟨cell, column, List.mk_mem_zipIdx_iff_getElem?.1 member, shown, rfl⟩
  · rintro ⟨cell, column, found, shown, rfl⟩
    exact ⟨(cell, column), List.mk_mem_zipIdx_iff_getElem?.2 found, shown, rfl⟩

theorem line_of_mem_ofLine (member : bracket ∈ ofLine line scan) : bracket.place.line = line := by
  obtain ⟨_, _, -, -, rfl⟩ := mem_ofLine.1 member
  rfl

theorem le_line_of_mem (member : bracket ∈ ofLines line scans) : line ≤ bracket.place.line := by
  induction scans generalizing line with
  | nil => contradiction
  | cons scan rest ih =>
    obtain here | later := List.mem_append.1 member
    · exact (line_of_mem_ofLine here).ge
    · exact Nat.le_of_succ_le (ih later)

theorem sign_of_mem (member : bracket ∈ ofLines line scans) : bracket.sign = '[' ∨ bracket.sign = ']' := by
  induction scans generalizing line with
  | nil => contradiction
  | cons scan rest ih =>
    obtain here | later := List.mem_append.1 member
    · obtain ⟨cell, column, -, shown, rfl⟩ := mem_ofLine.1 here
      simpa using (Bool.and_eq_true_iff.1 shown).2
    · exact ih later

theorem pairwise_ofLines (line : Nat) (scans : List Scan) : (ofLines line scans).Pairwise Before := by
  induction scans generalizing line with
  | nil => exact .nil
  | cons scan rest ih =>
    refine List.pairwise_append.2 ⟨?_, ih (line + 1), fun first here second later => .inl ?_⟩
    · refine List.pairwise_filterMap.2 ((pairwise_zipIdx scan.cells).imp fun rises first one second two => ?_)
      have one := (Option.ite_none_right_eq_some.1 one).2
      have two := (Option.ite_none_right_eq_some.1 two).2
      rw [← Option.some.inj one, ← Option.some.inj two]
      exact .inr ⟨rfl, rises⟩
    · rw [line_of_mem_ofLine here]
      exact le_line_of_mem later

theorem nodup_ofLines (line : Nat) (scans : List Scan) : (ofLines line scans).Nodup := by
  refine (pairwise_ofLines line scans).imp fun before => ?_
  rintro rfl
  exact before.irrefl

theorem map_sign_ofLine (line : Nat) (scan : Scan) : (ofLine line scan).map sign = scan.brackets := by
  change _ = (scan.cells.filter isBracket).map (·.1)
  rw [ofLine, List.map_filterMap, ← List.filterMap_eq_map, List.filterMap_filter]
  conv_rhs => rw [← List.zipIdx_map_fst 0 scan.cells, List.filterMap_map]
  refine List.filterMap_congr fun cell _ => ?_
  by_cases shown : isBracket cell.1 <;> simp [shown]

end Places

/-- What has been read as the brackets that are still open see it: each is followed by balanced brackets, and before
them all nothing is open. -/
inductive Open : List Bracket → List Bracket → Prop where
  | nothing {done : List Bracket}
      (closed : ∀ back, back <:+ done → (back.map sign).count '[' ≤ (back.map sign).count ']') : Open done []
  | behind {done openers inner : List Bracket} {opener : Bracket} (outer : Open done openers)
      (opens : opener.sign = '[') (balanced : Balanced (inner.map sign)) :
      Open (done ++ opener :: inner) (opener :: openers)

theorem not_closed_of_balanced {opener : Bracket} {inner : List Bracket} (opens : opener.sign = '[')
    (balanced : Balanced (inner.map sign)) :
    ¬ ((opener :: inner).map sign).count '[' ≤ ((opener :: inner).map sign).count ']' := by
  have even := balanced.even
  simp [opens]
  omega

namespace Open

variable {done openers : List Bracket} {bracket opener : Bracket}

theorem append (open_ : Open done openers) {more : List Bracket} (balanced : Balanced (more.map sign)) :
    Open (done ++ more) openers := by
  cases open_ with
  | nothing closed =>
    refine .nothing fun back last => ?_
    obtain ⟨front, whole⟩ := last
    obtain ⟨rest, rfl, rfl⟩ | ⟨rest, rfl, rfl⟩ := List.append_eq_append_iff.1 whole
    · have closes := closed rest (List.suffix_append front rest)
      rw [List.map_append, List.count_append, List.count_append, balanced.even]
      omega
    · exact balanced.closed ((List.suffix_append rest back).map sign)
  | behind outer opens inner =>
    rw [List.append_assoc, List.cons_append]
    refine .behind outer opens ?_
    rw [List.map_append]
    exact inner.append balanced

theorem stray (open_ : Open done []) (closes : bracket.sign = ']') : Open (done ++ [bracket]) [] := by
  cases open_ with
  | nothing closed =>
    refine .nothing fun back last => ?_
    obtain rfl | ⟨front, rfl, within⟩ := List.suffix_concat_iff.1 last
    · exact le_rfl
    · have before := closed front within
      simp [closes]
      omega

theorem close (open_ : Open done (opener :: openers)) (closes : bracket.sign = ']') :
    Open (done ++ [bracket]) openers := by
  cases open_ with
  | @behind done _ inner _ outer opens balanced =>
    rw [List.append_assoc, List.cons_append]
    refine outer.append ?_
    simpa [opens, closes] using balanced.wrap

theorem mem_head? (open_ : Open done openers) : opener ∈ openers.head? ↔
    ∃ front inner, done = front ++ opener :: inner ∧ opener.sign = '[' ∧ Balanced (inner.map sign) := by
  cases open_ with
  | nothing closed =>
    refine ⟨fun none => by contradiction, fun ⟨front, inner, whole, opens, balanced⟩ => ?_⟩
    exact absurd (closed _ ⟨front, whole.symm⟩) (not_closed_of_balanced opens balanced)
  | @behind done _ inner last outer opens balanced =>
    constructor
    · rintro ⟨⟩
      exact ⟨done, inner, rfl, opens, balanced⟩
    · rintro ⟨front, other, whole, starts, even⟩
      obtain ⟨more, -, same⟩ | ⟨more, -, same⟩ := List.append_eq_append_iff.1 whole
      · cases more with
        | nil => exact congrArg some (List.cons.inj same).1
        | cons first more =>
          have later : opener :: other <:+ inner := ⟨more, (List.cons.inj same).2.symm⟩
          exact absurd (balanced.closed (later.map sign)) (not_closed_of_balanced starts even)
      · cases more with
        | nil => exact congrArg some (List.cons.inj same).1.symm
        | cons first more =>
          have later : last :: inner <:+ other := ⟨more, (List.cons.inj same).2.symm⟩
          exact absurd (even.closed (later.map sign)) (not_closed_of_balanced opens balanced)

end Open

theorem matched_concat {done : List Bracket} {last opener closer : Bracket} :
    Matched (done ++ [last]) opener closer ↔ Matched done opener closer ∨ closer = last ∧ last.sign = ']' ∧
      ∃ front inner, done = front ++ opener :: inner ∧ opener.sign = '[' ∧ Balanced (inner.map sign) := by
  constructor
  · rintro ⟨front, inner, back, whole, opens, closes, balanced⟩
    obtain rfl | ⟨back, bracket, rfl⟩ := List.eq_nil_or_concat' back
    · have split : done ++ [last] = (front ++ opener :: inner) ++ [closer] := by simp [whole]
      obtain ⟨rfl, same⟩ := List.append_inj' split rfl
      obtain rfl := List.cons.inj same |>.1
      exact .inr ⟨rfl, closes, front, inner, rfl, opens, balanced⟩
    · have split : done ++ [last] = (front ++ opener :: (inner ++ closer :: back)) ++ [bracket] := by simp [whole]
      exact .inl ⟨front, inner, back, (List.append_inj' split rfl).1, opens, closes, balanced⟩
  · rintro (⟨front, inner, back, rfl, opens, closes, balanced⟩ | ⟨rfl, closes, front, inner, rfl, opens, balanced⟩)
    · exact ⟨front, inner, back ++ [last], by simp, opens, closes, balanced⟩
    · exact ⟨front, inner, [], by simp, opens, closes, balanced⟩

theorem mem_between {front inner back : List Bracket} {opener closer bracket : Bracket}
    (ordered : (front ++ opener :: (inner ++ closer :: back)).Pairwise Before)
    (member : bracket ∈ front ++ opener :: (inner ++ closer :: back)) (after : opener.Before bracket)
    (before : bracket.Before closer) : bracket ∈ inner := by
  obtain ⟨-, behind, front⟩ := List.pairwise_append.1 ordered
  obtain ⟨-, later⟩ := List.pairwise_cons.1 behind
  obtain ⟨-, later, inside⟩ := List.pairwise_append.1 later
  have last := (List.pairwise_cons.1 later).1
  simp only [List.mem_append, List.mem_cons] at member
  obtain early | rfl | here | rfl | late := member
  · exact absurd after (front bracket early opener List.mem_cons_self).asymm
  · exact absurd after after.asymm
  · exact here
  · exact absurd before before.asymm
  · exact absurd before (last bracket late).asymm

theorem split_unique {front other back rest : List Bracket} {bracket : Bracket}
    (ordered : (front ++ bracket :: back).Pairwise Before)
    (same : front ++ bracket :: back = other ++ bracket :: rest) : front = other ∧ back = rest := by
  obtain ⟨-, behind, early⟩ := List.pairwise_append.1 ordered
  have ahead : bracket ∉ front := fun member => (early bracket member bracket List.mem_cons_self).irrefl
  have after : bracket ∉ back := fun member => ((List.pairwise_cons.1 behind).1 bracket member).irrefl
  obtain ⟨fronts, -, backs⟩ := (List.append_cons_inj_of_notMem ahead after).1 same
  exact ⟨fronts, backs⟩

theorem Matched.not_crossing {brackets : List Bracket} (ordered : brackets.Pairwise Before)
    {first last opener closer : Bracket} (outer : Matched brackets first last) (inner : Matched brackets opener closer)
    (starts : first.Before opener) (inside : opener.Before last) : ¬ last.Before closer := by
  intro ends
  obtain ⟨front, within, back, whole, -, -, outer⟩ := outer
  obtain ⟨ahead, between, rest, same, opens, -, inner⟩ := inner
  obtain ⟨left, right, rfl⟩ := List.append_of_mem
    (mem_between (whole ▸ ordered) (whole ▸ same ▸ by simp) starts inside)
  obtain ⟨other, more, rfl⟩ := List.append_of_mem
    (mem_between (same ▸ ordered) (same ▸ whole ▸ by simp) inside ends)
  have split : (front ++ first :: (left ++ opener :: right)) ++ last :: back =
      (ahead ++ opener :: other) ++ last :: (more ++ closer :: rest) := by
    simpa using whole.symm.trans same
  have order : ((front ++ first :: (left ++ opener :: right)) ++ last :: back).Pairwise Before := by
    simpa [whole] using ordered
  obtain ⟨before, -⟩ := split_unique order split
  have start : ((front ++ first :: left) ++ opener :: right).Pairwise Before := by
    simpa using (List.pairwise_append.1 order).1
  obtain ⟨-, rfl⟩ := split_unique start (by simpa using before)
  have closed := outer.closed ((List.suffix_append left (opener :: right)).map sign)
  have opened := inner.opened (right.map sign) ((List.prefix_append right (last :: more)).map sign)
  simp [opens] at closed
  omega

end Bracket

/-- The brackets still open, the last one first, and the pairs so far. -/
structure Pairing where
  openers : List Bracket
  pairs : List (Bracket × Bracket)

namespace Pairing

open ArturoInsight.Bracket

def add (pairing : Pairing) (bracket : Bracket) : Pairing :=
  if bracket.sign = '[' then { pairing with openers := bracket :: pairing.openers }
  else match pairing.openers with
    | [] => pairing
    | opener :: rest => ⟨rest, (opener, bracket) :: pairing.pairs⟩

def ofBrackets (brackets : List Bracket) : Pairing := brackets.foldl add ⟨[], []⟩

structure Finds (brackets : List Bracket) (pairing : Pairing) : Prop where
  opens : Open brackets pairing.openers
  nodup : pairing.pairs.Nodup
  mem : ∀ opener closer, (opener, closer) ∈ pairing.pairs ↔ Matched brackets opener closer

theorem Finds.add {done : List Bracket} {pairing : Pairing} (finds : Finds done pairing) {bracket : Bracket}
    (fresh : bracket ∉ done) (sign : bracket.sign = '[' ∨ bracket.sign = ']') :
    Finds (done ++ [bracket]) (pairing.add bracket) := by
  obtain ⟨openers, pairs⟩ := pairing
  obtain ⟨open_, nodup, mem⟩ := finds
  unfold Pairing.add
  obtain opens | closes := sign
  · rw [if_pos opens]
    refine ⟨.behind open_ opens .nil, nodup, fun opener closer => ?_⟩
    rw [matched_concat, mem]
    simp [opens]
  · rw [if_neg (by simp [closes])]
    cases openers with
    | nil =>
      refine ⟨open_.stray closes, nodup, fun opener closer => ?_⟩
      rw [matched_concat, mem, ← open_.mem_head?]
      simp
    | cons last rest =>
      refine ⟨open_.close closes, List.nodup_cons.2 ⟨fun found => ?_, nodup⟩, fun opener closer => ?_⟩
      · obtain ⟨front, inner, back, rfl, -⟩ := (mem _ _).1 found
        exact fresh (by simp)
      · rw [List.mem_cons, mem, matched_concat, ← open_.mem_head?]
        simp [closes, and_comm, or_comm, eq_comm]

theorem finds_ofBrackets {brackets : List Bracket} (nodup : brackets.Nodup)
    (signs : ∀ bracket ∈ brackets, bracket.sign = '[' ∨ bracket.sign = ']') : Finds brackets (ofBrackets brackets) := by
  induction brackets using List.reverseRecOn with
  | nil =>
    refine ⟨.nothing fun back last => ?_, .nil, fun opener closer => ⟨fun none => by contradiction, ?_⟩⟩
    · rw [List.suffix_nil.1 last]
      exact le_rfl
    · rintro ⟨front, inner, back, whole, -⟩
      simp at whole
  | append_singleton brackets bracket ih =>
    obtain ⟨first, -, apart⟩ := List.nodup_append'.1 nodup
    rw [ofBrackets, List.foldl_concat]
    refine (ih first fun other member => signs other (List.mem_append_left _ member)).add ?_ (signs bracket (by simp))
    exact fun member => apart member List.mem_cons_self

end Pairing

end ArturoInsight
