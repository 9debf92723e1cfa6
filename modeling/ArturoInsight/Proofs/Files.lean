import ArturoInsight.Files

/-! Reading a file against looking for it. -/

namespace ArturoInsight.Files

variable {files : Files} {path : String}

theorem read_of_find_error {error : FileError} (found : files.find path = .error error) :
    files.read path = .error error := by
  rw [read, found]
  rfl

theorem find_of_read {bytes : ByteArray} (whole : files.read path = .ok bytes) :
    files.find path = .ok (.file bytes) := by
  cases found : files.find path with
  | error error =>
    rw [read_of_find_error found] at whole
    nomatch whole
  | ok entry =>
    rw [read, found] at whole
    cases entry with
    | file held => rw [Except.ok.inj whole]
    | _ => nomatch whole

theorem read_ne_unnameable {entry : Entry} (found : files.find path = .ok entry) :
    files.read path ≠ .error .unnameable := by
  rw [read, found]
  cases entry <;> exact fun same => nomatch same

end ArturoInsight.Files
