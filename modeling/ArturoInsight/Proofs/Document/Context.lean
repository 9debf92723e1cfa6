import ArturoInsight.Document.Analysis
import ArturoInsight.Proofs.Lexical.Carried

/-! The string state at a position. An analysis keeps the scan of each line, made in one pass with the state carried
from line to line; for one position the state can also be found from the first line on. Both ways agree at every
position, and no line below the position counts. -/

namespace ArturoInsight

open Text Lexical

section Lines

variable {texts others : List (List Char)} {line : Int}

theorem contextAt_eq (texts : List (List Char)) (line character : Int) : Lexical.contextAt texts line character =
    if line < 0 then .none else
      ((scanLines texts)[line.toNat]?).elim .none fun scan => .ofTag (scan.tagAt character) := by
  rw [Lexical.contextAt, getElem?_scanLines, carryBefore]
  cases texts[line.toNat]? <;> rfl

theorem carryBefore_congr {place : Nat} (same : ∀ index ≤ place, others[index]? = texts[index]?) :
    carryBefore others place = carryBefore texts place := by
  rw [carryBefore, carryBefore]
  congr 1
  refine List.ext_getElem? fun index => ?_
  rw [List.getElem?_take, List.getElem?_take]
  split_ifs with above
  · exact same index (Nat.le_of_lt above)
  · rfl

theorem contextAt_congr (same : ∀ index : Nat, (index : Int) ≤ line → others[index]? = texts[index]?)
    (character : Int) : Lexical.contextAt others line character = Lexical.contextAt texts line character := by
  rw [contextAt_eq, contextAt_eq]
  split_ifs with outside
  · rfl
  · have same : ∀ index ≤ line.toNat, others[index]? = texts[index]? := fun index bound => same index (by omega)
    rw [getElem?_scanLines, getElem?_scanLines, same _ le_rfl, carryBefore_congr same]

end Lines

namespace Analysis

variable (uri : String) (text : List Char) (linter : Linter) (version : Option Int)

theorem scan?_ofText (line : Int) : (ofText uri text linter version).scan? line =
    if line < 0 then none else (scanLines (Text.lines text))[line.toNat]? := rfl

/-- At every position, also at one outside the document or beside a line, the scans at hand say of strings what
scanning from the first line on finds. Other lines that are the same down to the position's give the same. -/
theorem contextAt_ofText (line character : Int) :
    (ofText uri text linter version).contextAt line character = Lexical.contextAt (Text.lines text) line character ∧
      ∀ others : List (List Char),
        (∀ index : Nat, (index : Int) ≤ line → others[index]? = (Text.lines text)[index]?) →
          Lexical.contextAt others line character = (ofText uri text linter version).contextAt line character := by
  have kept : (ofText uri text linter version).contextAt line character =
      Lexical.contextAt (Text.lines text) line character := by
    rw [contextAt_eq, contextAt, scan?_ofText]
    split_ifs
    · rfl
    · cases (scanLines (Text.lines text))[line.toNat]? <;> rfl
  refine ⟨kept, fun others same => ?_⟩
  rw [kept]
  exact contextAt_congr same character

/-- Behind the end of a line in a string, which is closed on another line of each document. -/
theorem contextAt_ofText_open :
    (ofText "" "s: \x7b:\nabc\n:\x7d".toList .default none).contextAt 1 7 = .within .verbatim ∧
      Lexical.contextAt ["s: \x7b:".toList, "abc".toList, "d".toList, ":\x7d".toList] 1 7 = .within .verbatim := by
  obtain ⟨kept, alike⟩ := contextAt_ofText "" "s: \x7b:\nabc\n:\x7d".toList .default none 1 7
  have found : Lexical.contextAt (Text.lines "s: \x7b:\nabc\n:\x7d".toList) 1 7 = .within .verbatim := by decide
  have said := kept.trans found
  refine ⟨said, (alike _ fun index above => ?_).trans said⟩
  obtain rfl | rfl : index = 0 ∨ index = 1 := by omega
  · rfl
  · rfl

end Analysis

end ArturoInsight
