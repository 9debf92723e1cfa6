import ArturoInsight.Table
import Mathlib.Data.List.Induction
import Mathlib.Data.List.Nodup
import Mathlib.Tactic.SplitIfs

/-! Tables with each key once, and tables with another value for every key. -/

namespace ArturoInsight

namespace Table

variable {κ α β : Type} [BEq κ] (change : α → β)

def mapValues (table : Table κ α) : Table κ β := table.map fun entry => (entry.1, change entry.2)

theorem mapValues_put (key : κ) (value : α) (table : Table κ α) :
    mapValues change (put key value table) = put key (change value) (mapValues change table) := by
  induction table with
  | nil => rfl
  | cons entry rest ih =>
    have cons : mapValues change (entry :: rest) = (entry.1, change entry.2) :: mapValues change rest := rfl
    rw [cons, put, put]
    split_ifs
    · rfl
    · rw [← ih]
      rfl

theorem mapValues_remove (table : Table κ α) (key : κ) :
    mapValues change (table.remove key) = (mapValues change table).remove key := by
  rw [mapValues, mapValues, remove, remove, List.filter_map]
  rfl

theorem mem_of_mem_put {key : κ} {value : α} {table : Table κ α} {entry : κ × α}
    (member : entry ∈ put key value table) : entry = (key, value) ∨ entry ∈ table := by
  induction table with
  | nil => exact .inl (List.mem_singleton.1 member)
  | cons first rest ih =>
    rw [put] at member
    split_ifs at member
    · exact (List.mem_cons.1 member).imp_right (List.mem_cons_of_mem first)
    · obtain rfl | later := List.mem_cons.1 member
      · exact .inr List.mem_cons_self
      · exact (ih later).imp_right (List.mem_cons_of_mem first)

omit [BEq κ] in
theorem keys_mapValues (table : Table κ α) : (mapValues change table).keys = table.keys := by
  simp [mapValues, keys, Function.comp_def]

theorem get?_mapValues (table : Table κ α) (key : κ) :
    (mapValues change table).get? key = (table.get? key).map change := by
  simp [mapValues, get?, List.find?_map, Function.comp_def]

theorem nodup_keys_remove {table : Table κ α} (once : table.keys.Nodup) (key : κ) : (table.remove key).keys.Nodup := by
  rw [keys_remove]
  exact once.filter _

theorem get?_eq_none [LawfulBEq κ] {table : Table κ α} {key : κ} (missing : key ∉ table.keys) :
    table.get? key = none := by
  rw [get?, Option.map_eq_none_iff, List.find?_eq_none]
  intro entry member same
  rw [beq_iff_eq] at same
  rw [← same] at missing
  exact missing (List.mem_map_of_mem member)

theorem mem_of_get? [LawfulBEq κ] {table : Table κ α} {key : κ} {value : α} (found : table.get? key = some value) :
    (key, value) ∈ table := by
  obtain ⟨entry, there, rfl⟩ := Option.map_eq_some_iff.1 found
  have same : entry.1 = key := by simpa using List.find?_some there
  rw [← same]
  exact List.mem_of_find?_eq_some there

theorem put_append_cons [LawfulBEq κ] {front : Table κ α} {key : κ} (fresh : key ∉ front.keys) (old value : α)
    (back : Table κ α) : put key value (front ++ (key, old) :: back) = front ++ (key, value) :: back := by
  induction front with
  | nil => simp [put]
  | cons entry front ih =>
    obtain ⟨other, later⟩ := not_or.1 (mt List.mem_cons.2 fresh)
    have differs : (entry.1 == key) = false := beq_eq_false_iff_ne.2 (Ne.symm other)
    simp [put, differs, ih later]

section Once

variable [LawfulBEq κ] {table : Table κ α}

theorem nodup_keys_put (once : table.keys.Nodup) (key : κ) (value : α) : (put key value table).keys.Nodup := by
  rw [keys_put]
  split_ifs with known
  · exact once
  · refine List.nodup_append.2 ⟨once, List.nodup_singleton key, ?_⟩
    rintro other member last same rfl
    rw [List.mem_singleton] at same
    exact known (same ▸ member)

theorem get?_of_mem (once : table.keys.Nodup) {entry : κ × α} (member : entry ∈ table) :
    table.get? entry.1 = some entry.2 := by
  induction table with
  | nil => contradiction
  | cons first rest ih =>
    obtain ⟨fresh, later⟩ := List.nodup_cons.1 once
    rw [get?_cons]
    obtain rfl | inside := List.mem_cons.1 member
    · simp
    · have known : entry.1 ∈ keys rest := List.mem_map_of_mem inside
      have differs : first.1 ≠ entry.1 := by
        intro same
        rw [← same] at known
        exact fresh known
      simp [differs, ih later inside]

theorem foldl_put (once : table.keys.Nodup) {owner : α → κ} (filed : ∀ entry ∈ table, owner entry.2 = entry.1)
    (change : α → α) :
    (table.map (·.2)).foldl (fun changed value => put (owner value) (change value) changed) table =
      mapValues change table := by
  suffices walk : ∀ front rest : Table κ α, (front ++ rest).keys.Nodup →
      (∀ entry ∈ rest, owner entry.2 = entry.1) →
        (rest.map (·.2)).foldl (fun changed value => put (owner value) (change value) changed) (front ++ rest) =
          front ++ mapValues change rest from walk [] table once filed
  intro front rest
  induction rest generalizing front with
  | nil => exact fun _ _ => rfl
  | cons entry rest ih =>
    intro once filed
    obtain ⟨owned, more⟩ := List.forall_mem_cons.1 filed
    have apart : (front.keys ++ entry.1 :: keys rest).Nodup := by simpa [keys] using once
    have fresh : entry.1 ∉ front.keys := fun member =>
      (List.nodup_append.1 apart).2.2 _ member _ List.mem_cons_self rfl
    have next : (front ++ [(entry.1, change entry.2)] ++ rest).keys.Nodup := by simpa [keys] using apart
    rw [List.map_cons, List.foldl_cons, owned, put_append_cons fresh, List.append_cons, ih _ next more,
      ← List.append_cons]
    rfl

end Once

section Collect

theorem collect_append_singleton (entries : List (κ × α)) (entry : κ × α) :
    collect (entries ++ [entry]) = put entry.1 entry.2 (collect entries) := by
  rw [collect, List.foldl_append]
  rfl

variable [LawfulBEq κ] (entries : List (κ × α))

theorem keys_collect : (collect entries).keys = (entries.map (·.1)).eraseDups := by
  induction entries using List.reverseRecOn with
  | nil => rfl
  | append_singleton entries entry ih =>
    have known : entry.1 ∈ (collect entries).keys ↔ entry.1 ∈ entries.map (·.1) := by rw [ih, List.mem_eraseDups]
    rw [collect_append_singleton, keys_put, List.map_append, List.eraseDups_append, ← ih]
    by_cases member : entry.1 ∈ entries.map (·.1)
    · rw [if_pos (known.2 member)]
      simp [List.removeAll, member]
    · rw [if_neg (mt known.1 member)]
      simp [List.removeAll, member, List.eraseDups_cons]

omit [LawfulBEq κ] in
theorem mem_of_mem_collect {entries : List (κ × α)} {entry : κ × α} (member : entry ∈ collect entries) :
    entry ∈ entries := by
  induction entries using List.reverseRecOn with
  | nil => exact member
  | append_singleton entries last ih =>
    rw [collect_append_singleton] at member
    obtain rfl | inside := mem_of_mem_put member
    · simp
    · exact List.mem_append_left _ (ih inside)

theorem nodup_keys_collect : (collect entries).keys.Nodup := by
  induction entries using List.reverseRecOn with
  | nil => exact List.nodup_nil
  | append_singleton entries entry ih =>
    rw [collect_append_singleton]
    exact nodup_keys_put ih _ _

end Collect

end Table

end ArturoInsight
