import ArturoInsight.Proofs.Layout.Inferred
import ArturoInsight.Proofs.Layout.Relabelled
import ArturoInsight.Proofs.Layout.Stability

/-! What a line binds and what types it defines once it is laid out. -/

namespace ArturoInsight.Layout

open Text Lexical Binding

/-- A name and its value before and after the layout of their line. -/
structure LaidBinding (old new : List Char × List Char) : Prop where
  name : new.1 = old.1
  type : ValueType.infer new.2 = if isSignCharacter old.2 then .any else ValueType.infer old.2
  function : isFunctionValue new.2 = isFunctionValue old.2

section Content

variable {depth : Nat} {scan : Scan} (scans : Scans ⟨.code, depth⟩ scan.cells scan.last)

include scans

theorem respaced_laidCells : Respaced none (spaced (labelCells scan.cells)) (spaced (laidCells scan.cells)) := by
  refine (relaid_laidCells scan.cells).respaced (fits_code _ _) (scans_laidCells scans).1 ?_
  exact ⟨blanks_nil, blanks_nil, .inl rfl, by simp, .inl ⟨rfl, rfl, by simp⟩, by simp⟩

theorem bare_lineCells (size : Int) (nested : Nat) :
    bare (spaced (lineCells size nested scan)) = bare (spaced (laidCells scan.cells)) := by
  obtain ⟨-, laid, -⟩ := scans_laidCells scans
  have blanks := blanks_padding size (nested - leadingClosers scan.cells)
  rw [lineCells, spaced, spacedFrom_gap rfl blanks, bare_spacedFrom _ [], ← spaced, contentCells_eq]
  split_ifs with trimmed
  · have ends := ends_of_trimmed (scans.fits_last (fits_code _ _)) trimmed
    rw [spaced_rdropWhile (fits_code _ _) ends (scans_dropWhile laid), bare_spaced_dropWhile laid]
  · rw [bare_spaced_dropWhile laid]

theorem definedFrom_lineCells (size : Int) (nested : Nat) :
    definedFrom false (spaced (lineCells size nested scan)) = definedFrom false (spaced scan.cells) :=
  calc definedFrom false (spaced (lineCells size nested scan))
      = definedFrom false (spaced (laidCells scan.cells)) := by
        rw [← definedFrom_bare, bare_lineCells scans, definedFrom_bare]
    _ = definedFrom false (spaced (labelCells scan.cells)) := (definedFrom_respaced (respaced_laidCells scans)).symm
    _ = definedFrom false (spaced scan.cells) := by
        rw [labelCells, definedFrom_labelFirst, unstretch_stretches, ← definedFrom_bare, bare_spaced_dropWhile scans,
          definedFrom_bare]

theorem boundFrom_lineCells (size : Int) (nested : Nat) : Option.Rel LaidBinding
    ((boundFrom joins false (spaced scan.cells)).map fun found => (found.1, trim (written found.2)))
    ((boundFrom isJoined false (spaced (lineCells size nested scan))).map
      fun found => (found.1, trim (written found.2))) := by
  have label := boundFrom_labelFirst (stretches (scan.cells.dropWhile isBlankCell))
  have laid : Option.Rel AfterColon (boundFrom joins false (spaced (labelCells scan.cells)))
      (boundFrom isJoined false (spaced (laidCells scan.cells))) := boundFrom_respaced (respaced_laidCells scans)
  rw [← labelCells, unstretch_stretches, ← boundFrom_bare (spaced (scan.cells.dropWhile isBlankCell)),
    bare_spaced_dropWhile scans, boundFrom_bare] at label
  rw [← boundFrom_bare (spaced (lineCells size nested scan)), bare_lineCells scans, boundFrom_bare]
  obtain ⟨old, middle⟩ | ⟨x, y, old, middle, sameName, sameValue⟩ := rel_cases label
  · obtain ⟨-, new⟩ | ⟨y, z, found, -⟩ := rel_cases laid
    · rw [old, new]
      exact .none
    · rw [middle] at found
      contradiction
  · obtain ⟨found, -⟩ | ⟨y', z, found, new, nameZ, rest⟩ := rel_cases laid
    · rw [middle] at found
      contradiction
    · obtain rfl : y = y' := Option.some.inj (middle.symm.trans found)
      rw [old, new, Option.map_some, Option.map_some, sameValue]
      exact .some ⟨nameZ.symm.trans sameName.symm, infer_respaced rfl rest, isFunctionValue_respaced rfl rest⟩

end Content

section Line

variable {carry : Carry} {text : List Char} (size : Int) (depth : Nat)
  (moves : isKept (scanLine carry text) = false) {new : Scan}
  (isNew : new = scanLine carry (laidLine { size := size } depth (scanLine carry text)))

include moves isNew

theorem definedTypes_line : definedTypes new new.uncommented =
    definedTypes (scanLine carry text) (scanLine carry text).uncommented := by
  have started := scans_of_not_isKept moves
  have scans := scans_cells_scanLine carry text
  rw [started] at scans
  rw [isNew, definedTypes_spaced started, definedTypes_spaced started, cells_again size depth moves,
    definedFrom_lineCells scans]

theorem laidBinding_line : Option.Rel LaidBinding
    ((ofGap? joins (scanLine carry text) (scanLine carry text).uncommented).map
      fun found => (found.name, found.value))
    ((ofLine? new new.uncommented).map fun found => (found.name, found.value)) := by
  have started := scans_of_not_isKept moves
  have scans := scans_cells_scanLine carry text
  rw [started] at scans
  rw [isNew, ofLine?_eq, ofGap?_spaced joins started, ofGap?_spaced isJoined started, cells_again size depth moves]
  exact boundFrom_lineCells scans size depth

end Line

end ArturoInsight.Layout
