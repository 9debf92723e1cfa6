/-! Tables in order of insertion. A key that is put again keeps its place, one that is removed and put
again goes to the end, and no operation touches the value of another key. -/

namespace ArturoInsight

abbrev Table (κ α : Type) := List (κ × α)

namespace Table

variable {κ α : Type} [BEq κ]

def keys (table : Table κ α) : List κ := table.map (·.1)

def get? (table : Table κ α) (key : κ) : Option α := (table.find? fun entry => entry.1 == key).map (·.2)

def has (table : Table κ α) (key : κ) : Bool := table.any fun entry => entry.1 == key

def put (key : κ) (value : α) : Table κ α → Table κ α
  | [] => [(key, value)]
  | entry :: rest => if entry.1 == key then (key, value) :: rest else entry :: put key value rest

def remove (table : Table κ α) (key : κ) : Table κ α := table.filter fun entry => !(entry.1 == key)

def collect (entries : List (κ × α)) : Table κ α :=
  entries.foldl (fun table entry => put entry.1 entry.2 table) []

theorem get?_cons (entry : κ × α) (rest : Table κ α) (key : κ) :
    get? (entry :: rest) key = if entry.1 == key then some entry.2 else get? rest key := by
  cases same : entry.1 == key <;> simp [get?, same]

theorem keys_remove (table : Table κ α) (key : κ) :
    (table.remove key).keys = table.keys.filter fun other => !(other == key) := by
  simp [remove, keys, List.filter_map, Function.comp_def]

variable [LawfulBEq κ]

theorem has_iff_mem_keys {table : Table κ α} {key : κ} : table.has key = true ↔ key ∈ table.keys := by
  simp [has, keys]

theorem get?_put_self (table : Table κ α) (key : κ) (value : α) :
    (put key value table).get? key = some value := by
  induction table with
  | nil => simp [put, get?_cons]
  | cons entry rest ih => cases same : entry.1 == key <;> simp [put, get?_cons, same, ih]

theorem get?_put_of_ne {key other : κ} (differs : key ≠ other) (value : α) (table : Table κ α) :
    (put key value table).get? other = table.get? other := by
  induction table with
  | nil => simp [put, get?_cons, differs]
  | cons entry rest ih =>
    by_cases same : entry.1 = key
    · simp [put, get?_cons, same, differs]
    · simp [put, get?_cons, same, ih]

theorem keys_put (table : Table κ α) (key : κ) (value : α) :
    (put key value table).keys = if key ∈ table.keys then table.keys else table.keys ++ [key] := by
  induction table with
  | nil => simp [put, keys]
  | cons entry rest ih =>
    by_cases same : entry.1 = key
    · simp [put, keys, same]
    · have unequal : key ≠ entry.1 := fun equal => same equal.symm
      simp only [keys] at ih
      by_cases member : key ∈ rest.map (·.1) <;>
        simp_all [put, keys]

theorem get?_remove_self (table : Table κ α) (key : κ) : (table.remove key).get? key = none := by
  simp [remove, get?, List.find?_filter]

theorem get?_remove_of_ne {key other : κ} (differs : key ≠ other) (table : Table κ α) :
    (table.remove key).get? other = table.get? other := by
  induction table with
  | nil => rfl
  | cons entry rest ih =>
    simp only [remove] at ih
    by_cases same : entry.1 = key
    · have left : entry.1 ≠ other := fun equal => differs (same ▸ equal)
      simp [remove, same, get?_cons, differs, ih]
    · simp [remove, same, get?_cons, ih]

end Table

end ArturoInsight
