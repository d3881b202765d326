import PktKit.Foundations.Runs
import PktKit.Foundations.Tallies
import PktKit.L2.Hub

/-! # The addresses a switch has learned

Ports come and go and are configured anew while frames arrive. The counts kept for each port are those of
the table, the table and each port keep their limits, and nothing expires before the time the next sweep waits
for.
-/

namespace PktKit.L2
open Foundations

/-! ## Ports -/

namespace PortTable

/-- Attach a device under an id that no other has. -/
def connect (t : PortTable) (id : PortId) : PortTable :=
  if h : id ∈ t.list.map Port.id then t
  else
    { list := t.list ++ [{ id := id }]
      nodup := by
        rw [List.map_append, List.map_singleton, List.nodup_append]
        refine ⟨t.nodup, List.nodup_singleton _, ?_⟩
        rintro a ha b hb rfl
        obtain rfl : a = id := List.mem_singleton.mp hb
        exact h ha }

def disconnect (t : PortTable) (id : PortId) : PortTable where
  list := t.list.filter (·.id != id)
  nodup := t.nodup.sublist (List.filter_sublist.map _)

def reconfigure (t : PortTable) (id : PortId) (edit : Port → Port) : PortTable where
  list := t.list.map fun p => if p.id = id then { edit p with id := p.id } else p
  nodup := by
    have he : (t.list.map fun p => if p.id = id then { edit p with id := p.id } else p).map Port.id =
        t.list.map Port.id := by
      rw [List.map_map]
      refine List.map_congr_left fun p _ => ?_
      dsimp only [Function.comp]
      split <;> rfl
    rw [he]
    exact t.nodup

variable {t : PortTable} {id id' : PortId} {p : Port} {edit : Port → Port}

theorem get_eq_some : t.get id = some p ↔ p ∈ t.list ∧ p.id = id := by
  constructor
  · intro h
    exact ⟨List.mem_of_find?_eq_some h, id_of_get h⟩
  · rintro ⟨hp, rfl⟩
    exact get_id hp

theorem get_connect : (t.connect id).get id' = (t.get id').or (if id' = id then some { id := id } else none) := by
  unfold connect
  split
  · next h =>
    by_cases hid : id' = id
    · obtain ⟨p, hp, rfl⟩ := List.mem_map.mp h
      rw [hid, get_id hp]
      rfl
    · simp [hid]
  · simp only [get, List.find?_append, List.find?_singleton, beq_iff_eq]
    by_cases hid : id' = id
    · simp [hid]
    · simp [hid, Ne.symm hid]

theorem get_disconnect : (t.disconnect id).get id' = some p ↔ t.get id' = some p ∧ id' ≠ id := by
  rw [get_eq_some, get_eq_some, disconnect, List.mem_filter]
  constructor
  · rintro ⟨⟨hp, hid⟩, rfl⟩
    exact ⟨⟨hp, rfl⟩, by simpa using hid⟩
  · rintro ⟨⟨hp, rfl⟩, hid⟩
    exact ⟨⟨hp, by simpa using hid⟩, rfl⟩

theorem get_reconfigure : (t.reconfigure id edit).get id' =
    (t.get id').map fun p => if id' = id then { edit p with id := p.id } else p := by
  apply Option.ext
  intro p
  rw [get_eq_some, Option.map_eq_some_iff, reconfigure, List.mem_map]
  constructor
  · rintro ⟨⟨q, hq, rfl⟩, rfl⟩
    by_cases h : q.id = id
    · exact ⟨q, by rw [if_pos h]; exact get_id hq, by simp [h]⟩
    · exact ⟨q, by rw [if_neg h]; exact get_id hq, by simp [h]⟩
  · rintro ⟨q, hq, rfl⟩
    obtain ⟨hmem, rfl⟩ := get_eq_some.mp hq
    exact ⟨⟨q, hmem, rfl⟩, by split <;> rfl⟩

end PortTable

/-! ## The table -/

namespace MacTable

def learned (t : MacTable) (id : PortId) : ℕ := t.entries.tally (fun e => some e.portId) id

/-- The counts are those of the table, the table is not too large, and no entry expires before the next
sweep, nor later than one learned now. -/
structure Sound (t : MacTable) (now : Instant) : Prop where
  counts : Counters.Hold t.perPort t.learned
  size : t.entries.entries.length ≤ MAC_TABLE_MAX_SIZE
  prune : ∀ u ∈ t.pruneAfter, ∀ k e, t.entries.lookup k = some e → u ≤ e.expires
  young : ∀ k e, t.entries.lookup k = some e → e.expires ≤ now + MAC_AGING
  soon : ∀ u ∈ t.pruneAfter, u ≤ now + MAC_AGING

variable {t : MacTable} {key : MacKey} {entry old : MacEntry} {now now' : Instant} {id : PortId}

theorem hold_increment {c : Table PortId ℕ} {g : PortId → ℕ} (h : Counters.Hold c g) (id : PortId) :
    Counters.Hold (increment c id) fun a => g a + if id = a then 1 else 0 := by
  intro a
  rw [increment, h.getD, Table.lookup_insert_eq]
  by_cases ha : a = id
  · subst ha
    simp
  · simp [ha, Ne.symm ha, h a]

theorem hold_decrement {c : Table PortId ℕ} {g : PortId → ℕ} (h : Counters.Hold c g) (hpos : 0 < g id) :
    Counters.Hold (decrement c id) fun a => g a - if id = a then 1 else 0 := by
  have hid : c.lookup id = some (g id) := by rw [h id, if_neg (by omega)]
  intro a
  simp only [decrement, hid]
  by_cases ha : a = id
  · subst ha
    split
    · next hz => rw [AList.lookup_erase]; simp [hz]
    · next hz => rw [AList.lookup_insert]; simp [hz]
  · have hsame : g a - (if id = a then 1 else 0) = g a := by rw [if_neg (Ne.symm ha), Nat.sub_zero]
    rw [hsame, ← h a]
    split
    · rw [Table.lookup_erase_eq, if_neg ha]
    · rw [Table.lookup_insert_eq, if_neg ha]

theorem hold_foldl {c : Table PortId ℕ} {g : PortId → ℕ} (h : Counters.Hold c g) (es : List MacEntry) :
    Counters.Hold (es.foldl (fun counts e => increment counts e.portId) c) fun a =>
      g a + es.countP fun e => e.portId = a := by
  induction es generalizing c g with
  | nil => exact h
  | cons e es ih =>
    refine (ih (hold_increment h e.portId)).congr fun a => ?_
    rw [List.countP_cons]
    simp only [decide_eq_true_eq]
    omega

theorem portCount_eq (h : t.Sound now) : t.portCount id = t.learned id := h.counts.getD

theorem learned_pos (h : t.entries.lookup key = some old) : 0 < t.learned old.portId := by
  rw [learned, Table.tally_erase h, if_pos rfl]
  omega

/-- An entry more, and the one it takes the place of less. -/
theorem learned_insert (t : MacTable) (key : MacKey) (entry : MacEntry) (id : PortId) : (t.insert key entry).learned id + ((t.entries.lookup key).elim 0 fun old =>
    if old.portId = id then 1 else 0) = t.learned id + if entry.portId = id then 1 else 0 := by
  have hinsert : (t.insert key entry).learned id =
      Table.tally (t.entries.erase key) (fun e => some e.portId) id + if entry.portId = id then 1 else 0 := by
    rw [learned, insert, Table.tally_insert]
    simp
  cases hk : t.entries.lookup key with
  | none =>
    rw [hinsert, Table.tally_erase_of_none hk]
    rfl
  | some old =>
    have herase := Table.tally_erase (f := fun e => some e.portId) (a := id) hk
    simp only [Option.some.injEq] at herase
    rw [hinsert, learned, herase, Option.elim_some]
    omega

theorem hold_insert (h : Counters.Hold t.perPort t.learned) :
    Counters.Hold (t.insert key entry).perPort (t.insert key entry).learned := by
  have hl := learned_insert t key entry
  generalize hg : (t.insert key entry).learned = g at hl ⊢
  rw [MacTable.insert]
  dsimp only
  cases hk : t.entries.lookup key with
  | none =>
    refine (hold_increment h entry.portId).congr fun a => ?_
    have ha := hl a
    rw [hk] at ha
    exact ha.symm
  | some old =>
    refine (hold_increment (hold_decrement h (learned_pos hk)) entry.portId).congr fun a => ?_
    have ha := hl a
    have hpos : old.portId = a → 0 < t.learned a := fun he => he ▸ learned_pos hk
    rw [hk, Option.elim_some] at ha
    by_cases ho : old.portId = a
    · rw [if_pos ho] at ha ⊢
      have := hpos ho
      omega
    · rw [if_neg ho] at ha ⊢
      omega

theorem Sound.insert (h : t.Sound now) (hroom : (t.entries.lookup key).isSome ∨
    t.entries.entries.length < MAC_TABLE_MAX_SIZE) (id : PortId) :
    (t.insert key ⟨id, now + MAC_AGING⟩).Sound now := by
  refine ⟨?_, ?_, fun u hu k e hk => ?_, fun k e hk => ?_, h.soon⟩
  · exact hold_insert h.counts
  · change (t.entries.insert key _).entries.length ≤ _
    cases hk : t.entries.lookup key with
    | none =>
      rw [Table.length_insert_of_none hk]
      rw [hk] at hroom
      have := hroom.resolve_left (by simp)
      omega
    | some old =>
      rw [Table.length_insert_of_some hk]
      exact h.size
  · change (t.entries.insert key _).lookup k = some e at hk
    rw [Table.lookup_insert_eq] at hk
    split at hk
    · cases hk
      exact h.soon u hu
    · exact h.prune u hu k e hk
  · change (t.entries.insert key _).lookup k = some e at hk
    rw [Table.lookup_insert_eq] at hk
    split at hk
    · cases hk
      exact le_rfl
    · exact h.young k e hk

theorem Sound.mono (h : t.Sound now) (hle : now ≤ now') : t.Sound now' :=
  ⟨h.counts, h.size, h.prune, fun k e hk => (h.young k e hk).trans (Nat.add_le_add_right hle _),
    fun u hu => (h.soon u hu).trans (Nat.add_le_add_right hle _)⟩

/-! What only takes entries away -/

/-- The second table has some of the first one's entries. -/
def Shrinks (t t' : MacTable) : Prop := t'.entries.entries.Sublist t.entries.entries

theorem Shrinks.refl (t : MacTable) : Shrinks t t := List.Sublist.refl _

theorem Shrinks.lookup {t' : MacTable} (h : Shrinks t t') (hk : t'.entries.lookup key = some entry) :
    t.entries.lookup key = some entry :=
  Table.lookup_eq_some.mpr (h.subset (Table.lookup_eq_some.mp hk))

theorem Shrinks.learned_le {t' : MacTable} (h : Shrinks t t') : t'.learned id ≤ t.learned id := h.countP_le

theorem Shrinks.length_lt {t' : MacTable} (h : Shrinks t t') (hk : (t.entries.lookup key).isSome)
    (hk' : t'.entries.lookup key = none) : t'.entries.entries.length < t.entries.entries.length := by
  refine lt_of_le_of_ne (List.Sublist.length_le h) fun hlen => ?_
  obtain ⟨e, he⟩ := Option.isSome_iff_exists.mp hk
  have hmem := Table.lookup_eq_some.mp he
  rw [← List.Sublist.eq_of_length h hlen] at hmem
  rw [Table.lookup_eq_some.mpr hmem] at hk'
  cases hk'

theorem Sound.shrink {t' : MacTable} (h : t.Sound now) (hs : Shrinks t t') (hp : t'.pruneAfter = t.pruneAfter)
    (hc : Counters.Hold t'.perPort t'.learned) : t'.Sound now :=
  ⟨hc, hs.length_le.trans h.size, fun u hu k e hk => h.prune u (hp ▸ hu) k e (hs.lookup hk),
    fun k e hk => h.young k e (hs.lookup hk), fun u hu => h.soon u (hp ▸ hu)⟩

theorem shrinks_remove : Shrinks t (t.remove key) := by
  unfold remove
  split
  · exact List.kerase_sublist key t.entries.entries
  · exact .refl t

theorem shrinks_purgePort : Shrinks t (t.purgePort id) := List.filter_sublist

theorem shrinks_pruneExpired : Shrinks t (t.pruneExpired now) := by
  unfold pruneExpired
  split
  · exact .refl t
  · exact List.filter_sublist

theorem Sound.remove (h : t.Sound now) : (t.remove key).Sound now := by
  refine h.shrink shrinks_remove ?_ ?_
  · unfold MacTable.remove
    split <;> rfl
  · unfold MacTable.remove
    split
    · next old hk =>
      refine (hold_decrement h.counts (learned_pos hk)).congr fun a => ?_
      have herase := Table.tally_erase (f := fun e => some e.portId) (a := a) hk
      simp only [Option.some.injEq] at herase
      simp only [learned, herase]
      omega
    · exact h.counts

theorem learned_purgePort (a : PortId) : (t.purgePort id).learned a = if a = id then 0 else t.learned a := by
  simp only [learned, Table.tally, purgePort, Table.retain, List.countP_filter, Option.some.injEq]
  split
  · next ha =>
    rw [List.countP_eq_zero]
    intro e _ he
    simp_all
  · next ha =>
    refine List.countP_congr fun e _ => ?_
    simp only [Bool.and_eq_true, decide_eq_true_eq, bne_iff_ne, ne_eq, and_iff_left_iff_imp]
    rintro rfl
    exact ha

theorem Sound.purgePort (h : t.Sound now) (id : PortId) : (t.purgePort id).Sound now := by
  refine h.shrink shrinks_purgePort rfl fun a => ?_
  rw [learned_purgePort, MacTable.purgePort, Table.lookup_erase_eq]
  by_cases ha : a = id
  · simp [ha]
  · simp only [if_neg ha]
    exact h.counts a

theorem learned_eq_countP (a : PortId) : t.learned a = t.entries.values.countP fun e => e.portId = a := by
  simp only [learned, Table.tally, Table.values, List.countP_map, Option.some.injEq]
  rfl

theorem lookup_pruneExpired (h : ∀ u ∈ t.pruneAfter, ∀ k e, t.entries.lookup k = some e → u ≤ e.expires) :
    (t.pruneExpired now).entries.lookup key = (t.entries.lookup key).filter fun e => decide (now < e.expires) := by
  unfold pruneExpired
  split
  · next hearly =>
    cases hp : t.pruneAfter with
    | none => simp [hp] at hearly
    | some u =>
      have hnow : now < u := by simpa [hp] using hearly
      cases hk : t.entries.lookup key with
      | none => rfl
      | some e => simp [Option.filter, lt_of_lt_of_le hnow (h u hp key e hk)]
  · exact Table.lookup_retain

theorem Sound.pruneExpired (h : t.Sound now) : (t.pruneExpired now).Sound now := by
  unfold MacTable.pruneExpired
  split
  · exact h
  · have hs : Shrinks t { t with entries := t.entries.retain fun _ e => decide (now < e.expires) } :=
      List.filter_sublist
    have hmin {u : Instant} (hu : u ∈ ((t.entries.retain fun _ e => decide (now < e.expires)).values.map
        (·.expires)).min?) :
        (∃ e, (∃ k, (t.entries.retain fun _ e => decide (now < e.expires)).lookup k = some e) ∧ e.expires = u) ∧
          ∀ k e, (t.entries.retain fun _ e => decide (now < e.expires)).lookup k = some e → u ≤ e.expires := by
      obtain ⟨hmem, hle⟩ := List.min?_eq_some_iff.mp hu
      obtain ⟨e, he, hexp⟩ := List.mem_map.mp hmem
      exact ⟨⟨e, Table.mem_values.mp he, hexp⟩,
        fun k e' hk => hle _ (List.mem_map_of_mem (Table.mem_values.mpr ⟨k, hk⟩))⟩
    refine ⟨?_, hs.length_le.trans h.size, fun u hu => (hmin hu).2, fun k e hk => h.young k e (hs.lookup hk), ?_⟩
    · have hempty : Counters.Hold (∅ : Table PortId ℕ) fun _ => 0 := fun a => by simp
      refine (hold_foldl hempty _).congr fun a => ?_
      rw [learned_eq_countP, Nat.zero_add]
    · intro u hu
      obtain ⟨e, ⟨k, hk⟩, rfl⟩ := (hmin hu).1
      exact h.young k e (hs.lookup hk)

end MacTable

/-! ## Frames -/

namespace L2Hub

variable {h : L2Hub} {key : MacKey} {source : Port} {now now' : Instant}

inductive Learns (h : L2Hub) (key : MacKey) (source : Port) (now : Instant) : L2Hub × Bool → Prop
  | fresh {e : MacEntry} (he : h.macTable.entries.lookup key = some e) (hf : fresh source now e) :
      Learns h key source now (h, true)
  | held {e : MacEntry} (he : h.macTable.entries.lookup key = some e) (hh : h.held source now e) :
      Learns h key source now (h, false)
  | renew {e : MacEntry} (he : h.macTable.entries.lookup key = some e) (hs : e.portId = source.id) :
      Learns h key source now ({ h with macTable := h.macTable.insert key ⟨source.id, now + MAC_AGING⟩ }, true)
  | learn {t : MacTable} (ht : t = h.macTable ∨ t = h.macTable.pruneExpired now)
      (hfree : ∀ e ∈ h.macTable.entries.lookup key, h.held source now e = false ∧ e.portId ≠ source.id)
      (hroom : h.macTable.entries.lookup key = none → t.entries.entries.length < MAC_TABLE_MAX_SIZE)
      (hlimit : ∀ l ∈ source.macLimit, t.portCount source.id < l) :
      Learns h key source now ({ h with macTable := t.insert key ⟨source.id, now + MAC_AGING⟩ }, true)
  | refuse (hfree : ∀ e ∈ h.macTable.entries.lookup key, h.held source now e = false ∧ e.portId ≠ source.id) :
      Learns h key source now ({ h with macTable := (h.macTable.pruneExpired now).remove key }, !source.secure)

theorem full_eq_false {t : MacTable} {known : Option PortId} (hf : full t known source = false) :
    (known = none → t.entries.entries.length < MAC_TABLE_MAX_SIZE) ∧
      ∀ l ∈ source.macLimit, t.portCount source.id < l := by
  simp only [full, Bool.or_eq_false_iff, Bool.and_eq_false_imp, Option.isNone_iff_eq_none, decide_eq_false_iff_not,
    not_le] at hf
  refine ⟨hf.1, fun l hl => ?_⟩
  have hany := hf.2
  rw [Option.mem_def] at hl
  rw [hl] at hany
  simpa using hany

theorem learn_learns : Learns h key source now (h.learn key source now) := by
  unfold learn
  cases hk : h.macTable.entries.lookup key with
  | none =>
    simp only [Option.any_none, Bool.false_eq_true, if_false, Option.map_none, ne_eq, reduceCtorEq,
      not_false_eq_true, true_and]
    split
    · split
      · exact .refuse (by simp [hk])
      · next hfull =>
        obtain ⟨hroom, hlimit⟩ := full_eq_false (Bool.eq_false_iff.mpr hfull)
        exact .learn (.inr rfl) (by simp [hk]) (fun _ => hroom rfl) hlimit
    · next hfull =>
      obtain ⟨hroom, hlimit⟩ := full_eq_false (Bool.eq_false_iff.mpr hfull)
      exact .learn (.inl rfl) (by simp [hk]) (fun _ => hroom rfl) hlimit
  | some e =>
    simp only [Option.any_some, Option.map_some, ne_eq, Option.some.injEq]
    split
    · next hf => exact .fresh hk hf
    split
    · next hh => exact .held hk hh
    next hh =>
    have hfree (hne : e.portId ≠ source.id) : ∀ e' ∈ h.macTable.entries.lookup key,
        h.held source now e' = false ∧ e'.portId ≠ source.id := by
      intro e' he'
      obtain rfl : e = e' := Option.some.inj (hk.symm.trans he')
      exact ⟨Bool.eq_false_iff.mpr hh, hne⟩
    by_cases hs : e.portId = source.id
    · simp only [hs, not_true_eq_false, false_and, if_false]
      exact .renew hk hs
    · simp only [hs, not_false_eq_true, true_and]
      split
      · split
        · exact .refuse (hfree hs)
        · next hfull =>
          obtain ⟨-, hlimit⟩ := full_eq_false (Bool.eq_false_iff.mpr hfull)
          exact .learn (.inr rfl) (hfree hs) (by simp [hk]) hlimit
      · next hfull =>
        obtain ⟨-, hlimit⟩ := full_eq_false (Bool.eq_false_iff.mpr hfull)
        exact .learn (.inl rfl) (hfree hs) (by simp [hk]) hlimit

theorem sound_room {t : MacTable} (hs : h.macTable.Sound now)
    (ht : t = h.macTable ∨ t = h.macTable.pruneExpired now)
    (hroom : h.macTable.entries.lookup key = none → t.entries.entries.length < MAC_TABLE_MAX_SIZE) :
    t.Sound now ∧ ((t.entries.lookup key).isSome ∨ t.entries.entries.length < MAC_TABLE_MAX_SIZE) := by
  have hsub : t.Sound now ∧ h.macTable.Shrinks t := by
    rcases ht with rfl | rfl
    · exact ⟨hs, .refl _⟩
    · exact ⟨hs.pruneExpired, MacTable.shrinks_pruneExpired⟩
  refine ⟨hsub.1, ?_⟩
  cases hk : h.macTable.entries.lookup key with
  | none => exact .inr (hroom hk)
  | some e =>
    cases hk' : t.entries.lookup key with
    | some e' => exact .inl rfl
    | none => exact .inr ((hsub.2.length_lt (by rw [hk]; rfl) hk').trans_le hs.size)

/-- The table of a hub: sound, within every port's limit, and with no entry of a port that is not there. -/
structure Consistent (h : L2Hub) (now : Instant) : Prop where
  table : h.macTable.Sound now
  limits : ∀ id p, h.ports.get id = some p → ∀ l ∈ p.macLimit, h.macTable.learned id ≤ l
  connected : ∀ k e, h.macTable.entries.lookup k = some e → (h.ports.get e.portId).isSome

theorem Consistent.mono (hc : h.Consistent now) (hle : now ≤ now') : h.Consistent now' :=
  ⟨hc.table.mono hle, hc.limits, hc.connected⟩

theorem Consistent.shrink {t : MacTable} (hc : h.Consistent now) (ht : t.Sound now) (hs : h.macTable.Shrinks t) :
    Consistent { h with macTable := t } now :=
  ⟨ht, fun id p hp l hl => hs.learned_le.trans (hc.limits id p hp l hl), fun k e hk => hc.connected k e (hs.lookup hk)⟩

theorem Consistent.insert (hc : h.Consistent now) (hsource : h.ports.get source.id = some source)
    (hroom : (h.macTable.entries.lookup key).isSome ∨ h.macTable.entries.entries.length < MAC_TABLE_MAX_SIZE)
    (hlimit : (∃ e, h.macTable.entries.lookup key = some e ∧ e.portId = source.id) ∨
      ∀ l ∈ source.macLimit, h.macTable.portCount source.id < l) :
    Consistent { h with macTable := h.macTable.insert key ⟨source.id, now + MAC_AGING⟩ } now := by
  refine ⟨hc.table.insert hroom source.id, fun id p hp l hl => ?_, fun k e hk => ?_⟩
  · have hle := hc.limits id p hp l hl
    have hinsert := h.macTable.learned_insert key ⟨source.id, now + MAC_AGING⟩ id
    by_cases hid : source.id = id
    · subst hid
      obtain rfl : source = p := Option.some.inj (hsource.symm.trans hp)
      rw [if_pos rfl] at hinsert
      rcases hlimit with ⟨e, he, hes⟩ | hlimit
      · rw [he, Option.elim_some, if_pos hes] at hinsert
        exact (Nat.add_right_cancel hinsert).trans_le hle
      · have hlt := hlimit l hl
        rw [MacTable.portCount_eq hc.table] at hlt
        dsimp only
        omega
    · rw [if_neg hid] at hinsert
      dsimp only
      omega
  · change (h.macTable.entries.insert key _).lookup k = some e at hk
    rw [Table.lookup_insert_eq] at hk
    split at hk
    · cases hk
      rw [hsource]
      rfl
    · exact hc.connected k e hk

theorem Consistent.learn (hc : h.Consistent now) (hsource : h.ports.get source.id = some source) :
    (h.learn key source now).1.Consistent now := by
  have hl : Learns h key source now (h.learn key source now) := learn_learns
  generalize h.learn key source now = r at hl
  have hpruned : Consistent { h with macTable := h.macTable.pruneExpired now } now :=
    hc.shrink hc.table.pruneExpired MacTable.shrinks_pruneExpired
  cases hl with
  | fresh he hf => exact hc
  | held he hh => exact hc
  | renew he hs => exact hc.insert hsource (.inl (by rw [he]; rfl)) (.inl ⟨_, he, hs⟩)
  | @learn t ht hfree hroom hlimit =>
    have htable : Consistent { h with macTable := t } now := by
      rcases ht with rfl | rfl
      · exact hc
      · exact hpruned
    exact htable.insert hsource (sound_room hc.table ht hroom).2 (.inr hlimit)
  | refuse hfree => exact hpruned.shrink hpruned.table.remove MacTable.shrinks_remove

theorem lookup_shrinks (h : L2Hub) (key : MacKey) (id : PortId) (now : Instant) : ∃ t, (h.lookup key id now).1 = { h with macTable := t } ∧
    (t = h.macTable ∨ t = h.macTable.remove key) := by
  unfold lookup
  split
  · exact ⟨_, rfl, .inl rfl⟩
  · dsimp only
    split
    · exact ⟨_, rfl, .inr rfl⟩
    split
    · exact ⟨_, rfl, .inl rfl⟩
    split
    · exact ⟨_, rfl, .inl rfl⟩
    · exact ⟨_, rfl, .inr rfl⟩

theorem Consistent.lookup {id : PortId} (hc : h.Consistent now) (now' : Instant) :
    (h.lookup key id now').1.Consistent now := by
  obtain ⟨t, he, ht⟩ := lookup_shrinks h key id now'
  rw [he]
  rcases ht with rfl | rfl
  · exact hc
  · exact hc.shrink hc.table.remove MacTable.shrinks_remove

theorem dispatch_fst (h : L2Hub) (f : Frame) (id : PortId) (vlan : ℕ) (now : Instant) :
    (h.dispatch f id vlan now).1 = h ∨ (h.dispatch f id vlan now).1 = (h.lookup (vlan, slice f 0 6) id now).1 := by
  unfold dispatch
  split
  · exact .inl rfl
  · cases hl : h.lookup (vlan, slice f 0 6) id now with
    | mk h' dest => cases dest <;> exact .inr rfl

theorem Consistent.forward (hc : h.Consistent now) (hle : now ≤ now') (depth : ℕ) (f : Frame) (id : PortId) :
    (h.forward depth f id now now').1.Consistent now' := by
  unfold L2Hub.forward
  split
  · exact hc.mono hle
  next p vlan hclass =>
  have hsource : h.ports.get p.id = some p := by
    have hget := (classify_eq_some.mp hclass).2.2.1
    rwa [PortTable.id_of_get hget]
  have hlearn : (h.learnSource f p vlan now).1.Consistent now' := by
    unfold learnSource
    split
    · exact (hc.learn hsource).mono hle
    · exact hc.mono hle
  generalize h.learnSource f p vlan now = r at hlearn
  obtain ⟨h1, ok⟩ := r
  cases ok with
  | false => exact hlearn
  | true =>
    change (h1.dispatch f id vlan now').1.Consistent now'
    rcases dispatch_fst h1 f id vlan now' with he | he
    · rw [he]
      exact hlearn
    · rw [he]
      exact Consistent.lookup hlearn now'

/-! ## Configuration -/

def connect (h : L2Hub) (id : PortId) : L2Hub := { h with ports := h.ports.connect id }

def disconnect (h : L2Hub) (id : PortId) : L2Hub :=
  { h with ports := h.ports.disconnect id, macTable := h.macTable.purgePort id }

def setPortMacLimit (h : L2Hub) (id : PortId) (limit : Option ℕ) : L2Hub :=
  { h with ports := h.ports.reconfigure id fun p => { p with macLimit := limit } }

def setPortSecure (h : L2Hub) (id : PortId) (secure : Bool) : L2Hub :=
  { h with ports := h.ports.reconfigure id fun p => { p with secure := secure } }

def setPortMode (h : L2Hub) (id : PortId) (mode : PortMode) : L2Hub :=
  { h with
    ports := h.ports.reconfigure id fun p => { p with mode := mode }
    macTable := h.macTable.purgePort id }

def setMaxForwardDepth (h : L2Hub) (depth : ℕ) : L2Hub := { h with maxDepth := max depth 1 }

theorem Consistent.setPorts {ports : PortTable} (hc : h.Consistent now)
    (hlimits : ∀ id p, ports.get id = some p → ∀ l ∈ p.macLimit, h.macTable.learned id ≤ l)
    (hkept : ∀ id, (h.ports.get id).isSome → (ports.get id).isSome) : Consistent { h with ports := ports } now :=
  ⟨hc.table, hlimits, fun k e hk => hkept _ (hc.connected k e hk)⟩

theorem Consistent.learned_eq_zero {id : PortId} (hc : h.Consistent now) (hid : h.ports.get id = none) :
    h.macTable.learned id = 0 := by
  rw [MacTable.learned, Table.tally, List.countP_eq_zero]
  rintro ⟨k, e⟩ hmem he
  have hsome := hc.connected k e (Table.lookup_eq_some.mpr hmem)
  obtain rfl : e.portId = id := by simpa using he
  rw [hid] at hsome
  cases hsome

theorem Consistent.connect (hc : h.Consistent now) (id : PortId) : (h.connect id).Consistent now := by
  refine hc.setPorts (fun id' p hp l hl => ?_) fun id' hs => ?_
  · rw [PortTable.get_connect] at hp
    cases hget : h.ports.get id' with
    | some q =>
      rw [hget] at hp
      exact hc.limits id' p (hget.trans hp) l hl
    | none =>
      rw [hc.learned_eq_zero hget]
      exact Nat.zero_le l
  · rw [PortTable.get_connect]
    obtain ⟨p, hp⟩ := Option.isSome_iff_exists.mp hs
    rw [hp]
    rfl

theorem Consistent.purge {id : PortId} {ports : PortTable} (hc : h.Consistent now)
    (hlimits : ∀ id' p, id' ≠ id → ports.get id' = some p → ∃ q, h.ports.get id' = some q ∧ q.macLimit = p.macLimit)
    (hkept : ∀ id', id' ≠ id → (h.ports.get id').isSome → (ports.get id').isSome) :
    Consistent { h with ports := ports, macTable := h.macTable.purgePort id } now := by
  refine ⟨hc.table.purgePort id, fun id' p hp l hl => ?_, fun k e hk => ?_⟩
  · rw [MacTable.learned_purgePort]
    split
    · exact Nat.zero_le l
    · next hne =>
      obtain ⟨q, hq, hsame⟩ := hlimits id' p hne hp
      exact hc.limits id' q hq l (hsame ▸ hl)
  · change (h.macTable.entries.retain _).lookup k = some e at hk
    rw [Table.lookup_retain, Option.filter_eq_some_iff] at hk
    exact hkept _ (by simpa using hk.2) (hc.connected k e hk.1)

theorem Consistent.disconnect (hc : h.Consistent now) (id : PortId) : (h.disconnect id).Consistent now := by
  refine hc.purge (fun id' p _ hp => ?_) fun id' hne hs => ?_
  · exact ⟨p, (PortTable.get_disconnect.mp hp).1, rfl⟩
  · obtain ⟨p, hp⟩ := Option.isSome_iff_exists.mp hs
    rw [PortTable.get_disconnect.mpr ⟨hp, hne⟩]
    rfl

theorem Consistent.setPortMode (hc : h.Consistent now) (id : PortId) (mode : PortMode) :
    (h.setPortMode id mode).Consistent now := by
  refine hc.purge (fun id' p hne hp => ?_) fun id' _ hs => ?_
  · rw [PortTable.get_reconfigure] at hp
    obtain ⟨q, hq, rfl⟩ := Option.map_eq_some_iff.mp hp
    exact ⟨q, hq, by rw [if_neg hne]⟩
  · rw [PortTable.get_reconfigure, Option.isSome_map]
    exact hs

/-- The new limit is not lower than the old one. -/
def Raises : Option ℕ → Option ℕ → Prop
  | _, none => True
  | none, some _ => False
  | some l, some l' => l ≤ l'

instance : DecidableRel Raises
  | _, none => isTrue trivial
  | none, some _ => isFalse id
  | some l, some l' => inferInstanceAs (Decidable (l ≤ l'))

theorem Consistent.reconfigure {edit : Port → Port} (hc : h.Consistent now) (id : PortId)
    (hedit : ∀ p, h.ports.get id = some p → Raises p.macLimit (edit p).macLimit) :
    Consistent { h with ports := h.ports.reconfigure id edit } now := by
  refine hc.setPorts (fun id' p hp l hl => ?_) fun id' hs => ?_
  · rw [PortTable.get_reconfigure] at hp
    obtain ⟨q, hq, rfl⟩ := Option.map_eq_some_iff.mp hp
    split at hl
    · next hid =>
      have hr := hedit q (hid ▸ hq)
      dsimp only at hl
      cases hlimit : q.macLimit with
      | none =>
        rw [hlimit, Option.mem_def.mp hl] at hr
        cases hr
      | some l0 =>
        rw [hlimit, Option.mem_def.mp hl] at hr
        exact (hc.limits id' q hq l0 hlimit).trans hr
    · exact hc.limits id' q hq l hl
  · rw [PortTable.get_reconfigure, Option.isSome_map]
    exact hs

end L2Hub

/-! ## Runs -/

/-- What happens to a hub. The clock is read twice for a frame. -/
inductive HubEvent
  | connect (id : PortId)
  | disconnect (id : PortId)
  | macLimit (id : PortId) (limit : Option ℕ)
  | secure (id : PortId) (on : Bool)
  | mode (id : PortId) (mode : PortMode)
  | maxDepth (depth : ℕ)
  | frame (depth : ℕ) (f : Frame) (source : PortId) (now now' : Instant)

/-- A hub, the time, and the next id to be given to a port. -/
structure Switching where
  hub : L2Hub := {}
  clock : Instant := 0
  nextId : PortId := 0

namespace Switching

/-- One event. Ids come from a counter shared by all hubs, and time does not go back. -/
def step (s : Switching) : HubEvent → Option Switching
  | .connect id => if s.nextId ≤ id then some { s with hub := s.hub.connect id, nextId := id + 1 } else none
  | .disconnect id => some { s with hub := s.hub.disconnect id }
  | .macLimit id limit => some { s with hub := s.hub.setPortMacLimit id limit }
  | .secure id on => some { s with hub := s.hub.setPortSecure id on }
  | .mode id mode => some { s with hub := s.hub.setPortMode id mode }
  | .maxDepth depth => some { s with hub := s.hub.setMaxForwardDepth depth }
  | .frame depth f source now now' =>
    if s.clock ≤ now ∧ now ≤ now' then
      some { s with hub := (s.hub.forward depth f source now now').1, clock := now' }
    else none

def LimitKept (s : Switching) : HubEvent → Prop
  | .macLimit id limit => ∀ p ∈ s.hub.ports.get id, L2Hub.Raises p.macLimit limit
  | _ => True

instance (s : Switching) (e : HubEvent) : Decidable (s.LimitKept e) :=
  match e with
  | .macLimit id limit => inferInstanceAs (Decidable (∀ p ∈ s.hub.ports.get id, L2Hub.Raises p.macLimit limit))
  | .connect _ | .disconnect _ | .secure _ _ | .mode _ _ | .maxDepth _ | .frame .. => isTrue trivial

theorem consistent_step {s t : Switching} {e : HubEvent} (hc : s.hub.Consistent s.clock) (hk : s.LimitKept e)
    (ht : s.step e = some t) : t.hub.Consistent t.clock := by
  cases e with
  | connect id =>
    obtain ⟨-, he⟩ := Option.ite_none_right_eq_some.mp ht
    cases he
    exact hc.connect id
  | disconnect id =>
    cases ht
    exact hc.disconnect id
  | macLimit id limit =>
    cases ht
    exact hc.reconfigure id hk
  | secure id on =>
    cases ht
    refine hc.reconfigure id fun p _ => ?_
    cases p.macLimit with
    | none => exact trivial
    | some l => exact le_refl l
  | mode id mode =>
    cases ht
    exact hc.setPortMode id mode
  | maxDepth depth =>
    cases ht
    exact ⟨hc.table, hc.limits, hc.connected⟩
  | frame depth f source now now' =>
    obtain ⟨⟨hnow, hnow'⟩, he⟩ := Option.ite_none_right_eq_some.mp ht
    cases he
    exact (hc.mono hnow).forward hnow' depth f source

theorem consistent_start : ({} : Switching).hub.Consistent 0 :=
  ⟨⟨fun _ => rfl, Nat.zero_le _, nofun, nofun, nofun⟩, nofun, nofun⟩

/-- Whatever the events, as long as no limit is lowered, the counts are those of the table, the table and every
port keep their limits, the next sweep is not after the first expiry, and every entry names a connected port. -/
theorem table_consistent (es : List HubEvent) (s : Switching) (hrun : Runs.run step {} es = some s)
    (hkept : ∀ js e ks t, es = js ++ e :: ks → Runs.run step {} js = some t → t.LimitKept e) :
    (∀ id, s.hub.macTable.perPort.lookup id =
        if s.hub.macTable.learned id = 0 then none else some (s.hub.macTable.learned id)) ∧
      s.hub.macTable.entries.entries.length ≤ 8192 ∧
      (∀ id p, s.hub.ports.get id = some p → ∀ l ∈ p.macLimit, s.hub.macTable.learned id ≤ l) ∧
      (∀ u ∈ s.hub.macTable.pruneAfter, ∀ k e, s.hub.macTable.entries.lookup k = some e → u ≤ e.expires) ∧
      ∀ k e, s.hub.macTable.entries.lookup k = some e → (s.hub.ports.get e.portId).isSome := by
  have hc : s.hub.Consistent s.clock :=
    Runs.run_invariant_of (P := fun s => s.hub.Consistent s.clock) (fun s e t hs he ht => consistent_step hs he ht)
      hrun consistent_start hkept
  exact ⟨hc.table.counts, hc.table.size, hc.limits, hc.table.prune, hc.connected⟩

/-- A station is learned on a port without a limit. -/
def sampleEvents : List HubEvent :=
  [.connect 0, .macLimit 0 none, .frame 0 [255, 255, 255, 255, 255, 255, 2, 0, 0, 0, 0, 1, 8, 0] 0 5 6]

theorem table_consistent_learned : ∃ s, Runs.run step {} sampleEvents = some s ∧ s.hub.macTable.learned 0 = 1 ∧
    s.hub.macTable.entries.entries.length ≤ 8192 :=
  ⟨_, rfl, rfl, (table_consistent sampleEvents _ rfl (Runs.along_sound (by decide))).2.1⟩

end Switching

end PktKit.L2
