import ArturoInsight.Proofs.Table
import ArturoInsight.Settings.Merge

/-! Lookups in raw data: in maps whose keys have been brought into one spelling, and in maps put over one another. -/

namespace ArturoInsight.Raw

section Lookup

theorem get?_cons (entry : Key × Raw) (rest : List (Key × Raw)) (name : String) :
    get? (entry :: rest) name = (get? rest name).or (if entry.1 == .text name then some entry.2 else none) := by
  rw [get?, get?, List.reverse_cons, List.find?_append, Option.map_or]
  cases same : entry.1 == .text name <;> simp [same]

theorem get?_eq_table {entries : Table Key Raw} (once : entries.keys.Nodup) (name : String) :
    get? entries name = entries.get? (.text name) := by
  induction entries with
  | nil => rfl
  | cons entry rest ih =>
    obtain ⟨fresh, later⟩ := List.nodup_cons.1 once
    rw [get?_cons, ih later, Table.get?_cons]
    by_cases same : entry.1 = .text name
    · have missing : .text name ∉ Table.keys rest := same ▸ fresh
      simp [same, Table.get?_eq_none missing]
    · simp [same]

end Lookup

section Normalise

theorem exists_of_mem_normaliseEntries {entries : List (Key × Raw)} {entry : Key × Raw}
    (member : entry ∈ normaliseEntries entries) : ∃ raw, entry.2 = normalise raw := by
  induction entries with
  | nil => simp [normaliseEntries] at member
  | cons first rest ih =>
    obtain ⟨key, raw⟩ := first
    rw [normaliseEntries] at member
    obtain rfl | later := List.mem_cons.1 member
    · exact ⟨raw, rfl⟩
    · exact ih later

theorem nodup_of_normalise {raw : Raw} {entries : Table Key Raw} (same : normalise raw = .map entries) :
    entries.keys.Nodup ∧ ∀ entry ∈ entries, ∃ raw, entry.2 = normalise raw := by
  cases raw with
  | map given =>
    rw [normalise] at same
    obtain rfl := Raw.map.inj same
    exact ⟨Table.nodup_keys_collect _, fun entry member =>
      exists_of_mem_normaliseEntries (Table.mem_of_mem_collect member)⟩
  | _ => simp [normalise] at same

end Normalise

section Merge

theorem combine_of_not_map {stands : Option Raw} (plain : ∀ entries, stands ≠ some (.map entries)) (raw : Raw) :
    combine stands raw = raw := by
  unfold combine
  split
  · exact absurd rfl (plain _)
  · rfl

variable {base entries : Table Key Raw}

theorem get?_merge (once : entries.keys.Nodup) (key : Key) :
    (merge base entries).get? key =
      (entries.get? key).elim (base.get? key) fun raw => some (combine (base.get? key) raw) := by
  induction entries generalizing base with
  | nil => rfl
  | cons entry rest ih =>
    obtain ⟨name, raw⟩ := entry
    obtain ⟨fresh, later⟩ := List.nodup_cons.1 once
    rw [merge, ih later, Table.get?_cons]
    by_cases same : name = key
    · subst same
      simp [Table.get?_eq_none fresh, Table.get?_put_self]
    · simp [same, Table.get?_put_of_ne same]

theorem nodup_keys_merge (once : base.keys.Nodup) (entries : Table Key Raw) : (merge base entries).keys.Nodup := by
  induction entries generalizing base with
  | nil => exact once
  | cons entry rest ih =>
    rw [merge]
    exact ih (Table.nodup_keys_put once _ _)

end Merge

end ArturoInsight.Raw
