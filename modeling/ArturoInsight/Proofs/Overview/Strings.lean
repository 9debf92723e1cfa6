import ArturoInsight.Proofs.Lexical.Carried
import ArturoInsight.Proofs.Overview.Brackets
import Mathlib.Logic.Relation

/-! The folds of strings. Only the borders of lines are seen, so that strings that share lines, one ending where the
next one opens, fold together as one: from the line of the first one, on which nothing ends, to that of the last one,
on which nothing opens. -/

namespace ArturoInsight

open Lexical

/-- A string that opens on the first line and is still open at the end of the last one. -/
structure StaysOpen (scans : List Scan) (form : Tag) (first last : Nat) : Prop where
  order : first ≤ last
  opens : ∃ scan, scans[first]? = some scan ∧ scan.Opens form
  unclosed : ∀ line, first < line → line ≤ last → ∀ scan, scans[line]? = some scan → ¬ form.closing <:+: scan.text

/-- A string with its opening mark on the first line and its closing mark on the last one, a later line. -/
def StringOver (scans : List Scan) (first last : Nat) : Prop :=
  ∃ form middle scan, form.isMultiline = true ∧ last = middle + 1 ∧ StaysOpen scans form first middle ∧
    scans[last]? = some scan ∧ form.closing <:+: scan.text

/-- Strings each of which ends on the line that the next one opens on, with no more of them on either side. -/
structure StringChain (scans : List Scan) (first last : Nat) : Prop where
  chain : Relation.TransGen (StringOver scans) first last
  starts : ∀ line, ¬ StringOver scans line first
  ends : ∀ form scan, form.isMultiline = true → scans[last]? = some scan → ¬ scan.Opens form

namespace StaysOpen

variable {scans : List Scan} {scan : Scan} {form : Tag} {first line last : Nat}

theorem here (found : scans[line]? = some scan) (opens : scan.Opens form) : StaysOpen scans form line line :=
  ⟨le_rfl, ⟨scan, found, opens⟩, fun between low high => absurd high (by omega)⟩

theorem upTo (open_ : StaysOpen scans form first last) (start : first ≤ line) (stop : line ≤ last) :
    StaysOpen scans form first line :=
  ⟨start, open_.opens, fun between low high => open_.unclosed between low (high.trans stop)⟩

theorem succ (open_ : StaysOpen scans form first line) (found : scans[line + 1]? = some scan)
    (unclosed : ¬ form.closing <:+: scan.text) : StaysOpen scans form first (line + 1) := by
  refine ⟨open_.order.trans (Nat.le_succ line), open_.opens, fun between low high other there => ?_⟩
  obtain rfl | before := Nat.eq_or_lt_of_le high
  · obtain rfl := Option.some.inj (found.symm.trans there)
    exact unclosed
  · exact open_.unclosed between low (Nat.le_of_lt_succ before) other there

theorem opens_or_unclosed (open_ : StaysOpen scans form first last) (found : scans[last]? = some scan) :
    scan.Opens form ∨ first < last ∧ ¬ form.closing <:+: scan.text := by
  obtain rfl | before := Nat.eq_or_lt_of_le open_.order
  · obtain ⟨other, there, opens⟩ := open_.opens
    obtain rfl := Option.some.inj (found.symm.trans there)
    exact .inl opens
  · exact .inr ⟨before, open_.unclosed last before le_rfl scan found⟩

end StaysOpen

namespace Fold

/-- The first line starts outside of strings, and all lines behind it, up to the last one, start inside. -/
structure OpenFrom (inside : Nat → Bool) (first last : Nat) : Prop where
  outside : inside first = false
  within : ∀ line, first < line → line ≤ last → inside line = true

/-- What the first lines say about strings: where one is open since, and where each one before was. -/
structure Progress.Follows (inside : Nat → Bool) (count : Nat) (progress : Progress) : Prop where
  string : ∀ first, progress.string = some first ↔ first < count ∧ OpenFrom inside first count
  folds : ∀ fold, fold ∈ progress.folds ↔ (fold.first < fold.last ∧ fold.last < count) ∧
    OpenFrom inside fold.first fold.last ∧ inside (fold.last + 1) = false

variable {inside : Nat → Bool} {first count : Nat} {progress : Progress}

namespace Progress.Follows

variable (follows : progress.Follows inside count)

include follows

theorem string_succ (first : Nat) : first < count + 1 ∧ OpenFrom inside first (count + 1) ↔
    inside (count + 1) = true ∧ (progress.string = some first ∨ first = count ∧ inside count = false) := by
  rw [follows.string]
  constructor
  · rintro ⟨before, outside, within⟩
    refine ⟨within _ before le_rfl, ?_⟩
    obtain rfl | earlier := Nat.eq_or_lt_of_le (Nat.le_of_lt_succ before)
    · exact .inr ⟨rfl, outside⟩
    · exact .inl ⟨earlier, outside, fun line above below => within line above (by omega)⟩
  · rintro ⟨last, ⟨earlier, outside, within⟩ | ⟨rfl, outside⟩⟩
    · refine ⟨by omega, outside, fun line above below => ?_⟩
      obtain rfl | before := Nat.eq_or_lt_of_le below
      · exact last
      · exact within line above (by omega)
    · refine ⟨Nat.lt_succ_self first, outside, fun line above below => ?_⟩
      rwa [show line = first + 1 by omega]

theorem folds_succ (fold : Fold) : ((fold.first < fold.last ∧ fold.last < count + 1) ∧
      OpenFrom inside fold.first fold.last ∧ inside (fold.last + 1) = false) ↔
    fold ∈ progress.folds ∨
      fold.last = count ∧ progress.string = some fold.first ∧ inside (count + 1) = false := by
  rw [follows.folds, follows.string]
  constructor
  · rintro ⟨⟨order, before⟩, open_, closed⟩
    obtain same | earlier := Nat.eq_or_lt_of_le (Nat.le_of_lt_succ before)
    · rw [same] at order open_ closed
      exact .inr ⟨same, ⟨order, open_⟩, closed⟩
    · exact .inl ⟨⟨order, earlier⟩, open_, closed⟩
  · rintro (⟨⟨order, earlier⟩, rest⟩ | ⟨same, ⟨order, open_⟩, closed⟩)
    · exact ⟨⟨order, by omega⟩, rest⟩
    · rw [same]
      exact ⟨⟨order, Nat.lt_succ_self count⟩, open_, closed⟩

theorem string_eq_none (outside : inside count = false) : progress.string = none := by
  refine Option.eq_none_iff_forall_ne_some.2 fun first open_ => ?_
  obtain ⟨before, -, within⟩ := (follows.string first).1 open_
  rw [within count before le_rfl] at outside
  contradiction

theorem addString {scan : Scan} (starts : scan.carryIn.inString = inside count)
    (ends : scan.carryOut.inString = inside (count + 1)) :
    (progress.addString count scan).Follows inside (count + 1) := by
  unfold Progress.addString
  rw [starts, ends]
  cases here : inside count <;> cases there : inside (count + 1)
  case false.false =>
    have none := follows.string_eq_none here
    exact ⟨fun first => by rw [follows.string_succ]; simp [none, there],
      fun fold => by rw [follows.folds_succ]; simp [none]⟩
  case false.true =>
    have none := follows.string_eq_none here
    exact ⟨fun first => by rw [follows.string_succ]; simp [none, here, there, eq_comm],
      fun fold => by rw [follows.folds_succ]; simp [there]⟩
  case true.false =>
    refine ⟨fun first => by rw [follows.string_succ]; simp [there], fun fold => ?_⟩
    rw [follows.folds_succ]
    cases open_ : progress.string with
    | none => simp
    | some opener =>
      have before := ((follows.string opener).1 open_).1
      obtain ⟨first, last⟩ := fold
      simp [before, there, or_comm, and_comm, eq_comm]
  case true.true =>
    exact ⟨fun first => by rw [follows.string_succ]; simp [here, there],
      fun fold => by rw [follows.folds_succ]; simp [there]⟩

end Progress.Follows

theorem Progress.Follows.stringsFrom (follows : progress.Follows inside count) (scans : List Scan)
    (flags : ∀ place scan, scans[place]? = some scan → scan.carryIn.inString = inside (count + place) ∧
      scan.carryOut.inString = inside (count + place + 1)) :
    (progress.stringsFrom count scans).Follows inside (count + scans.length) := by
  induction scans generalizing progress count with
  | nil => exact follows
  | cons scan rest ih =>
    obtain ⟨starts, ends⟩ := flags 0 scan rfl
    rw [List.length_cons, ← Nat.add_assoc, Nat.add_right_comm]
    refine ih (follows.addString starts ends) fun place other found => ?_
    rw [Nat.add_right_comm count 1 place]
    exact flags (place + 1) other found

end Fold

def startsInside (texts : List (List Char)) (line : Nat) : Bool := (carryBefore texts line).inString

section Borders

variable {texts : List (List Char)} {form other : Tag} {first line last : Nat}

theorem exists_form_of_startsInside (inside : startsInside texts line = true) :
    ∃ form, form.isMultiline = true ∧ carryBefore texts line = .within form := by
  obtain none | within := carryBefore_cases texts line
  · rw [startsInside, none] at inside
    contradiction
  · exact within

theorem startsInside_of_within (within : carryBefore texts line = .within form) : startsInside texts line = true := by
  rw [startsInside, within]
  rfl

theorem Fold.mem_ofStrings {fold : Fold} : fold ∈ Fold.ofStrings (scanLines texts) ↔
    (fold.first < fold.last ∧ fold.last < texts.length) ∧ Fold.OpenFrom (startsInside texts) fold.first fold.last ∧
      startsInside texts (fold.last + 1) = false := by
  have start : (Fold.Progress.mk [] none []).Follows (startsInside texts) 0 := ⟨by simp, by simp⟩
  have follows := start.stringsFrom (scanLines texts) fun place scan found => by
    rw [getElem?_scanLines] at found
    obtain ⟨text, here, rfl⟩ := Option.map_eq_some_iff.1 found
    rw [Nat.zero_add, startsInside, startsInside, carryBefore_succ here]
    exact ⟨rfl, rfl⟩
  have size : (scanLines texts).length = texts.length := length_scanFrom .none texts
  rw [Fold.ofStrings, List.mem_mergeSort, follows.folds, Nat.zero_add, size]

theorem carryBefore_succ_iff (multiline : form.isMultiline = true) {scan : Scan}
    (found : (scanLines texts)[line]? = some scan) : carryBefore texts (line + 1) = .within form ↔
      scan.Opens form ∨ carryBefore texts line = .within form ∧ ¬ form.closing <:+: scan.text := by
  rw [getElem?_scanLines] at found
  obtain ⟨text, here, rfl⟩ := Option.map_eq_some_iff.1 found
  rw [carryBefore_succ here]
  exact carryOut_eq_within_iff multiline

theorem exists_getElem?_scanLines (inside : line < texts.length) : ∃ scan, (scanLines texts)[line]? = some scan := by
  rw [getElem?_scanLines, List.getElem?_eq_getElem inside]
  exact ⟨_, rfl⟩

theorem carryBefore_eq_within_iff (multiline : form.isMultiline = true) (inside : line < texts.length) :
    carryBefore texts (line + 1) = .within form ↔ ∃ first, StaysOpen (scanLines texts) form first line := by
  induction line with
  | zero =>
    obtain ⟨scan, found⟩ := exists_getElem?_scanLines inside
    rw [carryBefore_succ_iff multiline found]
    constructor
    · rintro (opens | ⟨before, -⟩)
      · exact ⟨0, .here found opens⟩
      · exact absurd before (by simp [carryBefore, carryAfter])
    · rintro ⟨first, open_⟩
      exact .inl ((open_.opens_or_unclosed found).resolve_right fun later => absurd later.1 (Nat.not_lt_zero first))
  | succ line ih =>
    obtain ⟨scan, found⟩ := exists_getElem?_scanLines inside
    rw [carryBefore_succ_iff multiline found, ih (by omega)]
    constructor
    · rintro (opens | ⟨⟨first, open_⟩, unclosed⟩)
      · exact ⟨line + 1, .here found opens⟩
      · exact ⟨first, open_.succ found unclosed⟩
    · rintro ⟨first, open_⟩
      obtain opens | ⟨before, unclosed⟩ := open_.opens_or_unclosed found
      · exact .inl opens
      · exact .inr ⟨⟨first, open_.upTo (Nat.le_of_lt_succ before) (Nat.le_succ line)⟩, unclosed⟩

theorem StaysOpen.within (multiline : form.isMultiline = true) (open_ : StaysOpen (scanLines texts) form first line)
    (inside : line < texts.length) : carryBefore texts (line + 1) = .within form :=
  (carryBefore_eq_within_iff multiline inside).2 ⟨first, open_⟩

theorem lt_of_getElem?_scanLines {scan : Scan} (found : (scanLines texts)[line]? = some scan) :
    line < texts.length := by
  obtain ⟨inside, -⟩ := List.getElem?_eq_some_iff.1 found
  rwa [scanLines, length_scanFrom] at inside

theorem carryIn_of_getElem?_scanLines {scan : Scan} (found : (scanLines texts)[line]? = some scan) :
    scan.carryIn = carryBefore texts line := by
  rw [getElem?_scanLines] at found
  obtain ⟨text, -, rfl⟩ := Option.map_eq_some_iff.1 found
  rfl

theorem StringOver.open_before (string : StringOver (scanLines texts) first last) : first < last ∧ last < texts.length ∧
    ∀ line, first < line → line ≤ last → startsInside texts line = true := by
  obtain ⟨form, middle, scan, multiline, rfl, open_, found, -⟩ := string
  have inside := lt_of_getElem?_scanLines found
  refine ⟨Nat.lt_succ_of_le open_.order, inside, fun line low high => ?_⟩
  obtain ⟨before, rfl⟩ := Nat.exists_eq_add_of_lt low
  exact startsInside_of_within ((open_.upTo (Nat.le_add_right _ _) (by omega)).within multiline (by omega))

theorem open_before_of_transGen (chain : Relation.TransGen (StringOver (scanLines texts)) first last) :
    first < last ∧ last < texts.length ∧ ∀ line, first < line → line ≤ last → startsInside texts line = true := by
  induction chain with
  | single string => exact string.open_before
  | tail chain string ih =>
    obtain ⟨order, inside, within⟩ := string.open_before
    refine ⟨ih.1.trans order, inside, fun line low high => ?_⟩
    obtain before | behind := le_or_gt line _
    · exact ih.2.2 line low before
    · exact within line behind high

theorem StaysOpen.stringOver (multiline : form.isMultiline = true) (open_ : StaysOpen (scanLines texts) form first line)
    {scan : Scan} (found : (scanLines texts)[line + 1]? = some scan) (opens : scan.Opens other) :
    StringOver (scanLines texts) first (line + 1) := by
  have before := open_.within multiline (Nat.lt_of_succ_lt (lt_of_getElem?_scanLines found))
  have closing := opens.closing_infix ((carryIn_of_getElem?_scanLines found).trans before) multiline
  exact ⟨form, line, scan, multiline, rfl, open_, found, closing⟩

namespace StringChain

variable (chain : StringChain (scanLines texts) first last)

include chain

/-- A string that is open before a chain would be closed on its first line, where another one opens. -/
theorem outside : startsInside texts first = false := by
  by_contra open_
  obtain ⟨form, multiline, before⟩ := exists_form_of_startsInside (by simpa using open_)
  obtain ⟨next, ⟨other, middle, -, -, -, stays, -, -⟩, -⟩ := Relation.TransGen.head'_iff.1 chain.chain
  obtain ⟨scan, found, opens⟩ := stays.opens
  cases first with
  | zero => exact absurd before (by simp [carryBefore, carryAfter])
  | succ line =>
    have inside : line < texts.length := Nat.lt_of_succ_lt (lt_of_getElem?_scanLines found)
    obtain ⟨earlier, open_⟩ := (carryBefore_eq_within_iff multiline inside).1 before
    exact chain.starts earlier (open_.stringOver multiline found opens)

/-- Behind a chain no string is open: the last one is closed on its last line, and none opens there. -/
theorem closed : startsInside texts (last + 1) = false := by
  by_contra open_
  obtain ⟨form, multiline, behind⟩ := exists_form_of_startsInside (by simpa using open_)
  obtain ⟨start, -, other, middle, scan, many, rfl, stays, found, closing⟩ :=
    Relation.TransGen.tail'_iff.1 chain.chain
  obtain opens | ⟨before, unclosed⟩ := (carryBefore_succ_iff multiline found).1 behind
  · exact chain.ends form scan multiline found opens
  · have inside : middle < texts.length := Nat.lt_of_succ_lt (lt_of_getElem?_scanLines found)
    have same := (stays.within many inside).symm.trans before
    rw [Carry.within_eq_within] at same
    exact unclosed (same ▸ closing)

theorem openFrom : (first < last ∧ last < texts.length) ∧ Fold.OpenFrom (startsInside texts) first last ∧
    startsInside texts (last + 1) = false := by
  obtain ⟨order, inside, within⟩ := open_before_of_transGen chain.chain
  exact ⟨⟨order, inside⟩, ⟨chain.outside, within⟩, chain.closed⟩

end StringChain

theorem exists_staysOpen (open_ : Fold.OpenFrom (startsInside texts) first last) (inside : last ≤ texts.length)
    (start : first ≤ line) (stop : line < last) :
    ∃ opener form, Relation.ReflTransGen (StringOver (scanLines texts)) first opener ∧ form.isMultiline = true ∧
      StaysOpen (scanLines texts) form opener line := by
  induction line, start using Nat.le_induction with
  | base =>
    obtain ⟨scan, found⟩ := exists_getElem?_scanLines (by omega : first < texts.length)
    obtain ⟨form, multiline, behind⟩ := exists_form_of_startsInside (open_.within (first + 1) (by omega) stop)
    obtain opens | ⟨before, -⟩ := (carryBefore_succ_iff multiline found).1 behind
    · exact ⟨first, form, .refl, multiline, .here found opens⟩
    · exact absurd open_.outside (by simp [startsInside_of_within before])
  | succ line start ih =>
    obtain ⟨opener, form, chain, multiline, stays⟩ := ih (by omega)
    obtain ⟨scan, found⟩ := exists_getElem?_scanLines (by omega : line + 1 < texts.length)
    obtain ⟨other, many, behind⟩ := exists_form_of_startsInside (open_.within (line + 1 + 1) (by omega) stop)
    obtain opens | ⟨before, unclosed⟩ := (carryBefore_succ_iff many found).1 behind
    · exact ⟨line + 1, other, chain.tail (stays.stringOver multiline found opens), many, .here found opens⟩
    · have same := (stays.within multiline (by omega)).symm.trans before
      rw [Carry.within_eq_within] at same
      exact ⟨opener, form, chain, multiline, stays.succ found (same ▸ unclosed)⟩

theorem stringChain_of_openFrom (order : first < last) (inside : last < texts.length)
    (open_ : Fold.OpenFrom (startsInside texts) first last) (closed : startsInside texts (last + 1) = false) :
    StringChain (scanLines texts) first last := by
  obtain ⟨line, rfl⟩ := Nat.exists_eq_add_of_lt order
  obtain ⟨scan, found⟩ := exists_getElem?_scanLines inside
  obtain ⟨opener, form, chain, multiline, stays⟩ :=
    exists_staysOpen open_ inside.le (Nat.le_add_right first line) (Nat.lt_succ_self _)
  have before := stays.within multiline (by omega)
  have shut {other : Tag} (behind : carryBefore texts (first + line + 1 + 1) = .within other) : False := by
    rw [startsInside_of_within behind] at closed
    contradiction
  have closing : form.closing <:+: scan.text := by
    by_contra unclosed
    exact shut ((carryBefore_succ_iff multiline found).2 (.inr ⟨before, unclosed⟩))
  refine ⟨.tail' chain ⟨form, first + line, scan, multiline, rfl, stays, found, closing⟩, fun earlier string => ?_,
    fun other there many here opens => shut ((carryBefore_succ_iff many here).2 (.inl opens))⟩
  have starts := string.open_before.2.2 first string.open_before.1 le_rfl
  rw [open_.outside] at starts
  contradiction

theorem mem_ofStrings_iff_chain {fold : Fold} :
    fold ∈ Fold.ofStrings (scanLines texts) ↔ StringChain (scanLines texts) fold.first fold.last := by
  rw [Fold.mem_ofStrings]
  constructor
  · rintro ⟨⟨order, inside⟩, open_, closed⟩
    exact stringChain_of_openFrom order inside open_ closed
  · exact StringChain.openFrom

end Borders

/-- The folds of a document are the matched pairs of brackets on two lines and the chains of strings. -/
theorem mem_folds_iff (uri : String) (text : List Char) (linter : Linter) (version : Option Int) (fold : Fold) :
    let analysis := Analysis.ofText uri text linter version
    fold ∈ analysis.folds ↔
      (∃ opener closer, Bracket.Matched (Bracket.ofScans analysis.scans) opener closer ∧
        opener.place.line ≠ closer.place.line ∧ fold = ⟨opener.place.line, closer.place.line⟩) ∨
      StringChain analysis.scans fold.first fold.last := by
  intro analysis
  have strings : fold ∈ Fold.ofStrings analysis.scans ↔ StringChain analysis.scans fold.first fold.last :=
    mem_ofStrings_iff_chain
  rw [Analysis.folds, Fold.ofScans_eq, List.mem_mergeSort, List.mem_append, Fold.mem_ofBrackets, strings]
  rfl

/-- Two strings over two lines each, with no brackets around, fold all three lines as one. -/
theorem folds_of_meeting_strings :
    let analysis := Analysis.ofText "" "s: \x7b:a\n:\x7d t: \x7b:b\n:\x7d".toList .default none
    StringOver analysis.scans 0 1 ∧ StringOver analysis.scans 1 2 ∧ ¬ StringOver analysis.scans 0 2 ∧
      Bracket.ofScans analysis.scans = [] ∧ analysis.folds = [⟨0, 2⟩] := by
  intro analysis
  let texts := ["s: \x7b:a".toList, ":\x7d t: \x7b:b".toList, ":\x7d".toList]
  have scans : analysis.scans = scanLines texts := by decide +kernel
  have found : ((Fold.Progress.mk [] none []).addFrom 0 analysis.scans).folds = [⟨0, 2⟩] := by decide +kernel
  rw [Analysis.folds, Fold.ofScans, found, List.mergeSort_singleton, scans]
  refine ⟨?_, ?_, fun string => ?_, by decide +kernel, rfl⟩
  · have opens : StaysOpen (scanLines texts) .verbatim 0 0 :=
      .here rfl ⟨"s: ".toList, "a".toList, rfl, rfl, by decide⟩
    exact ⟨.verbatim, 0, _, rfl, rfl, opens, rfl, by decide⟩
  · have opens : StaysOpen (scanLines texts) .verbatim 1 1 :=
      .here rfl ⟨":\x7d t: ".toList, "b".toList, rfl, rfl, by decide⟩
    exact ⟨.verbatim, 1, _, rfl, rfl, opens, rfl, by decide⟩
  · obtain ⟨form, middle, -, multiline, same, stays, -⟩ := string
    obtain rfl : middle = 1 := by omega
    have ends : carryBefore texts 2 = .within .verbatim := by decide +kernel
    obtain rfl : .verbatim = form := by simpa using ends.symm.trans (stays.within multiline (by decide))
    exact stays.unclosed 1 (by omega) le_rfl _ rfl (by decide)

end ArturoInsight
