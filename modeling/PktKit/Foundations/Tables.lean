import Mathlib

/-! # Tables

Finite maps as lists with at most one entry for a key, on Mathlib's `AList`: what an update of a
table leaves at every key.
-/

namespace PktKit.Foundations

abbrev Table (κ ν : Type*) := AList fun _ : κ => ν

namespace Table

variable {κ ν : Type*} [DecidableEq κ] {t : Table κ ν} {k k' : κ} {v v' : ν} {p : κ → ν → Bool}

def retain (t : Table κ ν) (p : κ → ν → Bool) : Table κ ν where
  entries := t.entries.filter fun e => p e.1 e.2
  nodupKeys := t.nodupKeys.sublist List.filter_sublist

/-- Change the value at a key, if there is one. -/
def modify (t : Table κ ν) (k : κ) (f : ν → ν) : Table κ ν :=
  match t.lookup k with
  | some v => t.insert k (f v)
  | none => t

def mapValues {ν' : Type*} (t : Table κ ν) (f : ν → ν') : Table κ ν' where
  entries := t.entries.map fun e => ⟨e.1, f e.2⟩
  nodupKeys := by
    have h := t.nodupKeys
    simpa [List.NodupKeys, List.keys, Function.comp_def] using h

def mapEntries {ν' : Type*} (t : Table κ ν) (f : κ → ν → ν') : Table κ ν' where
  entries := t.entries.map fun e => ⟨e.1, f e.1 e.2⟩
  nodupKeys := by
    have h := t.nodupKeys
    simpa [List.NodupKeys, List.keys, Function.comp_def] using h

def values (t : Table κ ν) : List ν := t.entries.map fun e => e.2

theorem lookup_eq_some : t.lookup k = some v ↔ (⟨k, v⟩ : Sigma fun _ : κ => ν) ∈ t.entries :=
  List.mem_dlookup_iff t.nodupKeys

theorem lookup_insert_eq : (t.insert k v).lookup k' = if k' = k then some v else t.lookup k' := by
  split
  · next h => rw [h, AList.lookup_insert]
  · next h => rw [AList.lookup_insert_ne h]

theorem bind_lookup_insert {α : Type*} {f : ν → Option α} : ((t.insert k v).lookup k).bind f = f v := by
  rw [AList.lookup_insert]
  rfl

theorem lookup_erase_eq : (t.erase k).lookup k' = if k' = k then none else t.lookup k' := by
  split
  · next h => rw [h, AList.lookup_erase]
  · next h => rw [AList.lookup_erase_ne h]

theorem lookup_modify {f : ν → ν} :
    (t.modify k f).lookup k' = if k' = k then (t.lookup k).map f else t.lookup k' := by
  unfold modify
  split
  · next u hu => rw [lookup_insert_eq, hu]; rfl
  · next hu =>
    split
    · next h => rw [h, hu]; rfl
    · rfl

/-- What a change to a value leaves of it is left of it in the table. -/
theorem map_lookup_modify {α : Type*} {g : ν → α} {f : ν → ν} (hf : ∀ v, g (f v) = g v) :
    ((t.modify k f).lookup k').map g = (t.lookup k').map g := by
  rw [lookup_modify]
  split
  · next he =>
    rw [he, Option.map_map]
    exact congrArg (Option.map · _) (funext hf)
  · rfl

theorem map_lookup_insert {α : Type*} {g : ν → α} (hv : t.lookup k = some v) (hg : g v' = g v) :
    ((t.insert k v').lookup k').map g = (t.lookup k').map g := by
  rw [lookup_insert_eq]
  split
  · next he => rw [he, hv, Option.map_some, Option.map_some, hg]
  · rfl

theorem lookup_retain : (t.retain p).lookup k = (t.lookup k).filter (p k) := by
  apply Option.ext
  intro v
  simp [lookup_eq_some, retain, Option.filter_eq_some_iff]

theorem lookup_mapEntries {ν' : Type*} {f : κ → ν → ν'} : (t.mapEntries f).lookup k = (t.lookup k).map (f k) := by
  apply Option.ext
  intro v
  simp only [lookup_eq_some, mapEntries, List.mem_map, Option.map_eq_some_iff]
  constructor
  · rintro ⟨⟨k', u⟩, hu, he⟩
    cases he
    exact ⟨u, hu, rfl⟩
  · rintro ⟨u, hu, rfl⟩
    exact ⟨⟨k, u⟩, hu, rfl⟩

theorem lookup_mapValues {ν' : Type*} {f : ν → ν'} : (t.mapValues f).lookup k = (t.lookup k).map f :=
  lookup_mapEntries (f := fun _ => f)

theorem mem_values : v ∈ t.values ↔ ∃ k, t.lookup k = some v := by
  simp [values, lookup_eq_some]

/-! ## A list of the keys kept beside a table -/

theorem perm_keys_insert {l : List κ} (h : l.Perm t.keys) (hk : k ∉ l) : (l ++ [k]).Perm (t.insert k v).keys := by
  rw [AList.keys_insert, List.erase_of_not_mem (mt h.mem_iff.mpr hk)]
  exact (List.perm_append_singleton k l).trans (h.cons k)

theorem perm_keys_insert_of_mem {l : List κ} (h : l.Perm t.keys) (hk : k ∈ l) : l.Perm (t.insert k v).keys := by
  rw [AList.keys_insert]
  exact h.trans (List.perm_cons_erase (h.mem_iff.mp hk))

theorem perm_keys_erase {l : List κ} (h : (k :: l).Perm t.keys) : l.Perm (t.erase k).keys := by
  have herase := h.erase k
  rwa [List.erase_cons_head, ← AList.keys_erase] at herase

theorem lookup_eq_none_iff {l : List κ} (h : l.Perm t.keys) : t.lookup k = none ↔ k ∉ l := by
  rw [AList.lookup_eq_none, AList.mem_keys, h.mem_iff]

omit [DecidableEq κ] in
theorem length_eq_of_perm {l : List κ} (h : l.Perm t.keys) : l.length = t.entries.length := by
  rw [h.length_eq, AList.keys, List.keys, List.length_map]

theorem entries_eq_nil (h : ∀ k, t.lookup k = none) : t.entries = [] := by
  rw [List.eq_nil_iff_forall_not_mem]
  intro e he
  have hsome := lookup_eq_some.mpr he
  rw [h] at hsome
  cases hsome

/-- An entry stands in one place of a table. -/
theorem entries_erase (h : t.lookup k = some v) :
    ∃ l₁ l₂, t.entries = l₁ ++ ⟨k, v⟩ :: l₂ ∧ (t.erase k).entries = l₁ ++ l₂ := by
  obtain ⟨l₁, l₂, hl⟩ := List.append_of_mem (lookup_eq_some.mp h)
  have hk : k ∉ l₁.keys := by
    have hnodup := t.nodupKeys
    rw [hl, List.NodupKeys, List.keys_append, List.keys_cons] at hnodup
    exact fun hmem => (List.nodup_append.mp hnodup).2.2 k hmem k List.mem_cons_self rfl
  refine ⟨l₁, l₂, hl, ?_⟩
  change t.entries.kerase k = _
  rw [hl, List.kerase_append_right hk, @List.kerase_cons_eq _ _ _ k ⟨k, v⟩ l₂ rfl]

theorem length_erase (h : (t.lookup k).isSome) : (t.erase k).entries.length + 1 = t.entries.length := by
  have hmem : k ∈ t.keys := AList.mem_keys.mp (AList.lookup_isSome.mp h)
  have hpos := List.length_pos_of_mem hmem
  rw [← length_eq_of_perm (.refl _), ← length_eq_of_perm (.refl _), AList.keys_erase,
    List.length_erase_of_mem hmem]
  omega

theorem length_insert_of_some (h : t.lookup k = some v) : (t.insert k v').entries.length = t.entries.length :=
  length_erase (by rw [h]; rfl)

theorem length_insert_of_none (h : t.lookup k = none) : (t.insert k v').entries.length = t.entries.length + 1 := by
  rw [AList.insert_of_notMem (AList.lookup_eq_none.mp h)]
  rfl

/-! ## Sums over a table -/

def total (t : Table κ ν) (f : ν → ℕ) : ℕ := (t.values.map f).sum

variable {f : ν → ℕ}

theorem total_erase (h : t.lookup k = some v) : total (t.erase k) f + f v = t.total f := by
  obtain ⟨l₁, l₂, hl, herase⟩ := entries_erase h
  simp only [total, values, hl, herase, List.map_append, List.map_cons, List.sum_append, List.sum_cons]
  omega

theorem total_insert_of_none (h : t.lookup k = none) : total (t.insert k v) f = f v + t.total f := by
  rw [AList.insert_of_notMem (AList.lookup_eq_none.mp h)]
  rfl

theorem total_insert_of_some (v' : ν) (f : ν → ℕ) (h : t.lookup k = some v) :
    total (t.insert k v') f + f v = f v' + t.total f := by
  have herase : total (t.insert k v') f = f v' + total (t.erase k) f := rfl
  have htotal := total_erase (f := f) h
  omega

theorem le_total (h : t.lookup k = some v) : f v ≤ t.total f := (total_erase h).symm ▸ Nat.le_add_left _ _

omit [DecidableEq κ] in
theorem total_retain : (t.retain p).total f + (t.retain fun k v => !p k v).total f = t.total f := by
  simp only [total, values, retain]
  induction t.entries with
  | nil => rfl
  | cons e es ih =>
    cases h : p e.1 e.2 <;> simp [h] at ih ⊢ <;> omega

omit [DecidableEq κ] in
theorem total_mapEntries_le {g : κ → ν → ν} (h : ∀ k v, f (g k v) ≤ f v) : (t.mapEntries g).total f ≤ t.total f := by
  simp only [total, values, mapEntries, List.map_map]
  exact List.sum_le_sum fun e _ => h e.1 e.2

omit [DecidableEq κ] in
theorem total_mapValues {g : ν → ν} (h : ∀ v, f (g v) = f v) : (t.mapValues g).total f = t.total f := by
  simp only [total, values, mapValues, List.map_map]
  exact congrArg List.sum (List.map_congr_left fun e _ => h e.2)

omit [DecidableEq κ] in
theorem length_retain_le : (t.retain p).entries.length ≤ t.entries.length := List.length_filter_le _ _

end Table

end PktKit.Foundations
