import ArturoInsight.Raw.Checked

/-! Values with the flaws found on the way: a reading in steps finds the flaws of its steps, one after the other. -/

namespace ArturoInsight.Checked

variable {α β : Type}

theorem findings_bind (checked : Checked α) (next : α → Checked β) :
    (checked >>= next).findings = checked.findings ++ (next checked.value).findings := rfl

theorem value_bind (checked : Checked α) (next : α → Checked β) :
    (checked >>= next).value = (next checked.value).value := rfl

@[simp] theorem findings_pure (value : α) : (pure value : Checked α).findings = [] := rfl

@[simp] theorem value_pure (value : α) : (pure value : Checked α).value = value := rfl

@[simp] theorem findings_flawed (path : List String) (flaw : Flaw) (stand : α) :
    (flawed path flaw stand).findings = [⟨path, flaw⟩] := rfl

instance : LawfulMonad Checked :=
  LawfulMonad.mk' Checked
    (fun checked => congrArg (Checked.mk · checked.value) (List.append_nil checked.findings))
    (fun _ _ => rfl)
    (fun checked _ _ => congrArg (Checked.mk · _) (List.append_assoc checked.findings _ _))

@[simp] theorem findings_map (change : α → β) (checked : Checked α) :
    (change <$> checked).findings = checked.findings := List.append_nil _

section Read

variable (path : List String) (stands : α) (how : Raw → Except Flaw α)

theorem findings_read (raw : Raw) : (read path stands how raw).findings = [] ↔ ∃ value, how raw = .ok value := by
  unfold read
  cases how raw <;> simp [findings_pure, flawed]

theorem value_read (raw : Raw) : (read path stands how raw).value = (how raw).toOption.getD stands := by
  unfold read
  cases how raw <;> rfl

end Read

theorem findings_mapM (items : List α) (check : α → Checked β) :
    (items.mapM check).findings = items.flatMap fun item => (check item).findings := by
  induction items with
  | nil => rfl
  | cons item rest ih =>
    rw [List.mapM_cons, findings_bind, findings_bind, findings_pure, ih, List.append_nil, List.flatMap_cons]

theorem value_mapM (items : List α) (check : α → Checked β) :
    (items.mapM check).value = items.map fun item => (check item).value := by
  induction items with
  | nil => rfl
  | cons item rest ih => rw [List.mapM_cons, value_bind, value_bind, value_pure, ih, List.map_cons]

theorem result_of_sound {checked : Checked α} (sound : checked.findings = []) :
    checked.result = .ok checked.value :=
  if_pos (List.isEmpty_iff.2 sound)

theorem result_of_flaws {checked : Checked α} (flaws : checked.findings ≠ []) :
    checked.result = .error checked.findings :=
  if_neg (mt List.isEmpty_iff.1 flaws)

end ArturoInsight.Checked
