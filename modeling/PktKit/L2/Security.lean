import PktKit.L2.Learning

/-! # Port security

An address learned on a secure port is held there: frames that claim it from elsewhere are dropped. A secure
port's own frames pass only if their source is learned on it, so that a port at its limit speaks for the stations
it has and for no other. Group addresses are not learned, and frames that carry one as their source pass.
-/

namespace PktKit.L2
open Foundations

def individual (f : Frame) : Prop := f.getD 6 0 &&& 1 = 0

instance (f : Frame) : Decidable (individual f) := inferInstanceAs (Decidable (_ = _))

namespace MacTable

def HeldBy (t : MacTable) (key : MacKey) (id : PortId) (now : Instant) : Prop :=
  ∃ e, t.entries.lookup key = some e ∧ e.portId = id ∧ now < e.expires

variable {t : MacTable} {key : MacKey} {now : Instant} {id : PortId}

theorem lookup_insert {entry : MacEntry} {k : MacKey} :
    (t.insert key entry).entries.lookup k = if k = key then some entry else t.entries.lookup k :=
  Table.lookup_insert_eq

theorem lookup_remove {k : MacKey} :
    (t.remove key).entries.lookup k = if k = key then none else t.entries.lookup k := by
  unfold remove
  split
  · exact Table.lookup_erase_eq
  · next hk =>
    split
    · next he => rw [he, hk]
    · rfl

theorem lookup_purgePort {k : MacKey} :
    (t.purgePort id).entries.lookup k = (t.entries.lookup k).filter fun e => e.portId != id :=
  Table.lookup_retain

/-- Removing another port's address leaves a port its own. -/
theorem learned_remove (h : ∀ e ∈ t.entries.lookup key, e.portId ≠ id) : (t.remove key).learned id = t.learned id := by
  unfold remove
  split
  · next old hk =>
    have herase := Table.tally_erase (f := fun e => some e.portId) (a := id) hk
    rw [if_neg (by simpa using h old hk)] at herase
    exact herase.symm
  · rfl

theorem learned_pruneExpired (h : ∀ k e, t.entries.lookup k = some e → e.portId = id → now < e.expires) :
    (t.pruneExpired now).learned id = t.learned id := by
  unfold pruneExpired
  split
  · rfl
  · simp only [learned, Table.tally, Table.retain, List.countP_filter]
    refine List.countP_congr fun e he => ?_
    simp only [Bool.and_eq_true, decide_eq_true_eq, Option.some.injEq, and_iff_left_iff_imp]
    exact h e.1 e.2 (Table.lookup_eq_some.mpr he)

end MacTable

namespace L2Hub

variable {h : L2Hub} {key : MacKey} {source p : Port} {now now' : Instant} {f : Frame} {vlan depth : ℕ} {id : PortId}

theorem sound_learn (hs : h.macTable.Sound now) : (h.learn key source now).1.macTable.Sound now := by
  have hl : Learns h key source now (h.learn key source now) := learn_learns
  generalize h.learn key source now = r at hl
  cases hl with
  | fresh he hf => exact hs
  | held he hh => exact hs
  | renew he hsame => exact hs.insert (.inl (by rw [he]; rfl)) source.id
  | learn ht hfree hroom hlimit =>
    obtain ⟨hsound, hspace⟩ := sound_room hs ht hroom
    exact hsound.insert hspace source.id
  | refuse hfree => exact hs.pruneExpired.remove

def Individual (t : MacTable) : Prop := ∀ k e, t.entries.lookup k = some e → k.2.getD 0 0 &&& 1 = 0

theorem individual_shrinks {t t' : MacTable} (hi : Individual t) (hs : t.Shrinks t') : Individual t' :=
  fun k e hk => hi k e (hs.lookup hk)

theorem individual_insert {t : MacTable} {e : MacEntry} (hi : Individual t) (hkey : key.2.getD 0 0 &&& 1 = 0) :
    Individual (t.insert key e) := by
  intro k e' hk
  rw [MacTable.lookup_insert] at hk
  split at hk
  · next he => rwa [he]
  · exact hi k e' hk

theorem individual_learn (hi : Individual h.macTable) (hkey : key.2.getD 0 0 &&& 1 = 0) :
    Individual (h.learn key source now).1.macTable := by
  have hl : Learns h key source now (h.learn key source now) := learn_learns
  generalize h.learn key source now = r at hl
  have hpruned : Individual (h.macTable.pruneExpired now) := individual_shrinks hi MacTable.shrinks_pruneExpired
  cases hl with
  | fresh he hf => exact hi
  | held he hh => exact hi
  | renew he hsame => exact individual_insert hi hkey
  | learn ht hfree hroom hlimit =>
    rcases ht with rfl | rfl
    · exact individual_insert hi hkey
    · exact individual_insert hpruned hkey
  | refuse hfree => exact individual_shrinks hpruned MacTable.shrinks_remove

theorem source_getD : (slice f 6 12).getD 0 0 = f.getD 6 0 := by
  simp [slice, List.getD_eq_getElem?_getD, List.getElem?_drop]

/-- What holds of the table in every run, whatever is configured. -/
structure Kept (h : L2Hub) (now : Instant) : Prop where
  sound : h.macTable.Sound now
  individual : Individual h.macTable

theorem Kept.mono (hk : h.Kept now) (hle : now ≤ now') : h.Kept now' := ⟨hk.sound.mono hle, hk.individual⟩

theorem Kept.learnSource (hk : h.Kept now) : (h.learnSource f source vlan now).1.Kept now := by
  unfold L2Hub.learnSource
  split
  · next hi => exact ⟨sound_learn hk.sound, individual_learn hk.individual (by rwa [source_getD])⟩
  · exact hk

theorem Kept.lookup (hk : h.Kept now) (now' : Instant) : (h.lookup key id now').1.Kept now := by
  obtain ⟨t, he, ht⟩ := lookup_shrinks h key id now'
  rw [he]
  rcases ht with rfl | rfl
  · exact hk
  · exact ⟨hk.sound.remove, individual_shrinks hk.individual MacTable.shrinks_remove⟩

theorem Kept.forward (hk : h.Kept now) (hle : now ≤ now') (depth : ℕ) (f : Frame) (id : PortId) :
    (h.forward depth f id now now').1.Kept now' := by
  unfold L2Hub.forward
  split
  · exact hk.mono hle
  next p vlan hclass =>
  have hlearn : (h.learnSource f p vlan now).1.Kept now' := hk.learnSource.mono hle
  generalize h.learnSource f p vlan now = r at hlearn
  obtain ⟨h1, ok⟩ := r
  cases ok with
  | false => exact hlearn
  | true =>
    change (h1.dispatch f id vlan now').1.Kept now'
    rcases dispatch_fst h1 f id vlan now' with he | he
    · rw [he]
      exact hlearn
    · rw [he]
      exact Kept.lookup hlearn now'

/-! ## Frames on and off a secure port -/

theorem forward_of_classify (hclass : h.classify depth f id = some (p, vlan)) :
    h.forward depth f id now now' =
      if (h.learnSource f p vlan now).2 then (h.learnSource f p vlan now).1.dispatch f id vlan now'
      else ((h.learnSource f p vlan now).1, []) := by
  rw [L2Hub.forward, hclass]
  dsimp only
  cases (h.learnSource f p vlan now).2 <;> rfl

/-- A frame that claims an address held by another, secure, port is dropped and changes nothing. -/
theorem forward_claim {e : MacEntry} {r : Port} (hk : h.Kept now) (hclass : h.classify depth f id = some (p, vlan))
    (he : h.macTable.entries.lookup (vlan, slice f 6 12) = some e) (hne : e.portId ≠ id) (hexp : now < e.expires)
    (hr : h.ports.get e.portId = some r) (hsec : r.secure) : h.forward depth f id now now' = (h, []) := by
  have hid : p.id = id := PortTable.id_of_get (classify_eq_some.mp hclass).2.2.1
  have hheld : h.held p now e := by
    simp [held, hid, hne, hexp, hr, hsec]
  have hfresh : fresh p now e = false := by
    simp [fresh, hid, hne]
  have hsource : f.getD 6 0 &&& 1 = 0 := by
    have hfirst := hk.individual _ e he
    rwa [source_getD] at hfirst
  have hlearn : h.learnSource f p vlan now = (h, false) := by
    rw [learnSource, if_pos hsource, learn, he]
    simp [hfresh, hheld]
  rw [forward_of_classify hclass, hlearn]
  rfl

/-- What is let through from a secure port was learned on it. -/
theorem learn_heldBy (hsec : source.secure) (hok : (h.learn key source now).2 = true) :
    (h.learn key source now).1.macTable.HeldBy key source.id now := by
  have hl : Learns h key source now (h.learn key source now) := learn_learns
  have hage : 0 < MAC_AGING := by decide
  generalize h.learn key source now = r at hl hok
  have hnew (t : MacTable) : (t.insert key ⟨source.id, now + MAC_AGING⟩).HeldBy key source.id now :=
    ⟨_, by rw [MacTable.lookup_insert, if_pos rfl], rfl, Nat.lt_add_of_pos_right hage⟩
  cases hl with
  | @fresh e he hf =>
    simp only [L2Hub.fresh, Bool.and_eq_true, beq_iff_eq, decide_eq_true_eq] at hf
    exact ⟨e, he, hf.1, Nat.lt_of_sub_pos (Nat.zero_lt_of_lt hf.2)⟩
  | held he hh => cases hok
  | renew he hsame => exact hnew _
  | learn ht hfree hroom hlimit => exact hnew _
  | refuse hfree => simp [hsec] at hok

/-! ## A secure port at its limit -/

/-- The port holds the addresses `K`, until after `T`, and no others; they fill its limit. -/
structure Sealed (K : Set MacKey) (T : Instant) (l : ℕ) (p : Port) (h : L2Hub) : Prop where
  port : h.ports.get p.id = some p
  full : l ≤ h.macTable.learned p.id
  kept : ∀ k ∈ K, h.macTable.HeldBy k p.id T
  only : ∀ k e, h.macTable.entries.lookup k = some e → e.portId = p.id → k ∈ K

section Sealed

variable {K : Set MacKey} {T : Instant} {l : ℕ}

/-- The entry of an address not held by the port is another port's. -/
theorem Sealed.other (hs : Sealed K T l p h) (hkey : key ∉ K) : ∀ e ∈ h.macTable.entries.lookup key, e.portId ≠ p.id :=
  fun e he hp => hkey (hs.only key e he hp)

theorem Sealed.prune (hs : Sealed K T l p h) (hk : h.macTable.Sound now) (hT : now ≤ T) :
    Sealed K T l p { h with macTable := h.macTable.pruneExpired now } := by
  have hlate : ∀ k e, h.macTable.entries.lookup k = some e → e.portId = p.id → now < e.expires := by
    intro k e he hp
    obtain ⟨e', he', -, hexp⟩ := hs.kept k (hs.only k e he hp)
    obtain rfl : e = e' := Option.some.inj (he.symm.trans he')
    exact lt_of_le_of_lt hT hexp
  refine ⟨hs.port, ?_, fun k hkK => ?_, fun k e he => ?_⟩
  · exact (MacTable.learned_pruneExpired hlate).symm ▸ hs.full
  · obtain ⟨e, he, hp, hexp⟩ := hs.kept k hkK
    refine ⟨e, ?_, hp, hexp⟩
    rw [MacTable.lookup_pruneExpired hk.prune, he]
    simp [Option.filter, hlate k e he hp]
  · exact hs.only k e (MacTable.shrinks_pruneExpired.lookup he)

theorem Sealed.remove (hs : Sealed K T l p h) (hkey : key ∉ K) :
    Sealed K T l p { h with macTable := h.macTable.remove key } := by
  refine ⟨hs.port, ?_, fun k hkK => ?_, fun k e he => ?_⟩
  · exact (MacTable.learned_remove (hs.other hkey)).symm ▸ hs.full
  · obtain ⟨e, he, hp, hexp⟩ := hs.kept k hkK
    refine ⟨e, ?_, hp, hexp⟩
    have hne : k ≠ key := fun hkk => hkey (hkk ▸ hkK)
    rw [MacTable.lookup_remove, if_neg hne, he]
  · exact hs.only k e (MacTable.shrinks_remove.lookup he)

/-- Another port's address learned. -/
theorem Sealed.insert_other (hs : Sealed K T l p h) (hkey : key ∉ K) {entry : MacEntry} (hne : entry.portId ≠ p.id) :
    Sealed K T l p { h with macTable := h.macTable.insert key entry } := by
  refine ⟨hs.port, ?_, fun k hkK => ?_, fun k e he hp => ?_⟩
  · have hinsert := h.macTable.learned_insert key entry p.id
    rw [if_neg hne] at hinsert
    cases hk : h.macTable.entries.lookup key with
    | none =>
      rw [hk, Option.elim_none] at hinsert
      exact (Nat.add_right_cancel hinsert).symm ▸ hs.full
    | some old =>
      rw [hk, Option.elim_some, if_neg (hs.other hkey old hk)] at hinsert
      exact (Nat.add_right_cancel hinsert).symm ▸ hs.full
  · obtain ⟨e, he, hp, hexp⟩ := hs.kept k hkK
    refine ⟨e, ?_, hp, hexp⟩
    have hne : k ≠ key := fun hkk => hkey (hkk ▸ hkK)
    rw [MacTable.lookup_insert, if_neg hne, he]
  · rw [MacTable.lookup_insert] at he
    split at he
    · cases he
      exact absurd hp hne
    · exact hs.only k e he hp

/-- One of the port's own addresses renewed. -/
theorem Sealed.renew (hs : Sealed K T l p h) (hk : h.macTable.Sound now) (hkey : key ∈ K) :
    Sealed K T l p { h with macTable := h.macTable.insert key ⟨p.id, now + MAC_AGING⟩ } := by
  obtain ⟨old, hold, hp, hexp⟩ := hs.kept key hkey
  refine ⟨hs.port, ?_, fun k hkK => ?_, fun k e he hp => ?_⟩
  · have hinsert := h.macTable.learned_insert key ⟨p.id, now + MAC_AGING⟩ p.id
    rw [hold, Option.elim_some, if_pos hp, if_pos rfl] at hinsert
    exact (Nat.add_right_cancel hinsert).symm ▸ hs.full
  · by_cases hkk : k = key
    · refine ⟨_, by rw [MacTable.lookup_insert, if_pos hkk], rfl, ?_⟩
      exact lt_of_lt_of_le hexp (hk.young key old hold)
    · obtain ⟨e, he, hp, hexp⟩ := hs.kept k hkK
      exact ⟨e, by rw [MacTable.lookup_insert, if_neg hkk, he], hp, hexp⟩
  · rw [MacTable.lookup_insert] at he
    split at he
    · next hkk => exact hkk ▸ hkey
    · exact hs.only k e he hp

/-- No frame from any port takes an address from the port or gives it another one. -/
theorem Sealed.learn (hs : Sealed K T l p h) (hk : h.macTable.Sound now) (hT : now ≤ T) (hsec : p.secure)
    (hl : p.macLimit = some l) (hsource : h.ports.get source.id = some source) :
    Sealed K T l p (h.learn key source now).1 ∧
      (source.id = p.id → (h.learn key source now).2 = true → key ∈ K) := by
  have hlearn : Learns h key source now (h.learn key source now) := learn_learns
  generalize h.learn key source now = r at hlearn
  -- An address of the port is claimed by no other.
  have hclaim (hne : source.id ≠ p.id) (hkey : key ∈ K) : ∃ e ∈ h.macTable.entries.lookup key,
      h.held source now e = true ∧ e.portId = p.id := by
    obtain ⟨e, he, hp, hexp⟩ := hs.kept key hkey
    exact ⟨e, he, by simp [held, hp, hne.symm, lt_of_le_of_lt hT hexp, hs.port, hsec], hp⟩
  have hsame (hid : source.id = p.id) : source = p := by
    rw [hid, hs.port] at hsource
    exact (Option.some.inj hsource).symm
  cases hlearn with
  | fresh he hf =>
    refine ⟨hs, fun hid _ => hs.only key _ he ?_⟩
    simp only [L2Hub.fresh, Bool.and_eq_true, beq_iff_eq] at hf
    exact hf.1.trans hid
  | held he hh => exact ⟨hs, fun _ hok => nomatch hok⟩
  | @renew e he hse =>
    by_cases hid : source.id = p.id
    · have hkey := hs.only key e he (hse.trans hid)
      rw [hid]
      exact ⟨hs.renew hk hkey, fun _ _ => hkey⟩
    · have hkey : key ∉ K := fun hkK => by
        obtain ⟨e', he', -, hp⟩ := hclaim hid hkK
        obtain rfl : e = e' := Option.some.inj (he.symm.trans he')
        exact hid (hse.symm.trans hp)
      exact ⟨hs.insert_other hkey hid, fun hid' => absurd hid' hid⟩
  | @learn t ht hfree hroom hlimit =>
    have hst : Sealed K T l p { h with macTable := t } ∧ t.Sound now := by
      rcases ht with rfl | rfl
      · exact ⟨hs, hk⟩
      · exact ⟨hs.prune hk hT, hk.pruneExpired⟩
    by_cases hid : source.id = p.id
    · -- There is no room for another address of the port itself.
      have hlt := hlimit l (by rw [hsame hid]; exact hl)
      rw [MacTable.portCount_eq hst.2, hid] at hlt
      exact absurd hlt (Nat.not_lt.mpr hst.1.full)
    · have hkey : key ∉ K := fun hkK => by
        obtain ⟨e, he, hheld, -⟩ := hclaim hid hkK
        rw [(hfree e he).1] at hheld
        cases hheld
      exact ⟨hst.1.insert_other hkey hid, fun hid' => absurd hid' hid⟩
  | refuse hfree =>
    have hkey : key ∉ K := fun hkK => by
      by_cases hid : source.id = p.id
      · obtain ⟨e, he, hp, -⟩ := hs.kept key hkK
        exact (hfree e he).2 (hp.trans hid.symm)
      · obtain ⟨e, he, hheld, -⟩ := hclaim hid hkK
        rw [(hfree e he).1] at hheld
        cases hheld
    refine ⟨(hs.prune hk hT).remove hkey, fun hid hok => ?_⟩
    rw [hsame hid, hsec] at hok
    cases hok

theorem Sealed.lookup (hs : Sealed K T l p h) (hT : now ≤ T) : Sealed K T l p (h.lookup key id now).1 := by
  unfold L2Hub.lookup
  split
  · exact hs
  next e he =>
  have hother (hgone : e.expires ≤ now ∨ h.ports.get e.portId = none) : key ∉ K := fun hkK => by
    obtain ⟨e', he', hp, hexp⟩ := hs.kept key hkK
    obtain rfl : e = e' := Option.some.inj (he.symm.trans he')
    rcases hgone with hgone | hgone
    · exact absurd (lt_of_le_of_lt hT hexp) (Nat.not_lt.mpr hgone)
    · rw [hp, hs.port] at hgone
      cases hgone
  dsimp only
  split
  · next hgone => exact hs.remove (hother (.inl hgone))
  split
  · exact hs
  split
  · exact hs
  · next hgone => exact hs.remove (hother (.inr hgone))

theorem Sealed.forward (hs : Sealed K T l p h) (hk : h.macTable.Sound now) (hle : now ≤ now') (hT : now' ≤ T)
    (hsec : p.secure) (hl : p.macLimit = some l) (depth : ℕ) (f : Frame) (id : PortId) :
    Sealed K T l p (h.forward depth f id now now').1 := by
  cases hclass : h.classify depth f id with
  | none =>
    rw [L2Hub.forward, hclass]
    exact hs
  | some r =>
    obtain ⟨q, vlan⟩ := r
    have hget := (classify_eq_some.mp hclass).2.2.1
    have hsource : h.ports.get q.id = some q := by rwa [PortTable.id_of_get hget]
    have hlearn : Sealed K T l p (h.learnSource f q vlan now).1 := by
      unfold learnSource
      split
      · exact (hs.learn hk (hle.trans hT) hsec hl hsource).1
      · exact hs
    rw [forward_of_classify hclass]
    split
    · rcases dispatch_fst (h.learnSource f q vlan now).1 f id vlan now' with he | he
      · rw [he]
        exact hlearn
      · rw [he]
        exact Sealed.lookup hlearn hT
    · exact hlearn

theorem Sealed.setPorts {ports : PortTable} (hs : Sealed K T l p h) (hp : ports.get p.id = some p) :
    Sealed K T l p { h with ports := ports } := ⟨hp, hs.full, hs.kept, hs.only⟩

theorem Sealed.purge {ports : PortTable} (hs : Sealed K T l p h) (hp : ports.get p.id = some p) (hne : id ≠ p.id) :
    Sealed K T l p { h with ports := ports, macTable := h.macTable.purgePort id } := by
  refine ⟨hp, ?_, fun k hkK => ?_, fun k e he => ?_⟩
  · dsimp only
    rw [MacTable.learned_purgePort, if_neg hne.symm]
    exact hs.full
  · obtain ⟨e, he, hpe, hexp⟩ := hs.kept k hkK
    refine ⟨e, ?_, hpe, hexp⟩
    rw [MacTable.lookup_purgePort, he]
    simp [Option.filter, hpe, hne.symm]
  · exact hs.only k e (MacTable.shrinks_purgePort.lookup he)

end Sealed

end L2Hub

/-! ## Runs -/

def HubEvent.about (id : PortId) : HubEvent → Prop
  | .disconnect i | .macLimit i _ | .secure i _ | .mode i _ => i = id
  | _ => False

namespace Switching

open L2Hub

variable {s t : Switching} {e : HubEvent}

theorem kept_step (hk : s.hub.Kept s.clock) (ht : s.step e = some t) : t.hub.Kept t.clock := by
  cases e with
  | connect id =>
    obtain ⟨-, he⟩ := Option.ite_none_right_eq_some.mp ht
    cases he
    exact ⟨hk.sound, hk.individual⟩
  | disconnect id =>
    cases ht
    exact ⟨hk.sound.purgePort id, individual_shrinks hk.individual MacTable.shrinks_purgePort⟩
  | macLimit id limit =>
    cases ht
    exact ⟨hk.sound, hk.individual⟩
  | secure id on =>
    cases ht
    exact ⟨hk.sound, hk.individual⟩
  | mode id mode =>
    cases ht
    exact ⟨hk.sound.purgePort id, individual_shrinks hk.individual MacTable.shrinks_purgePort⟩
  | maxDepth depth =>
    cases ht
    exact ⟨hk.sound, hk.individual⟩
  | frame depth f source now now' =>
    obtain ⟨⟨hnow, hnow'⟩, he⟩ := Option.ite_none_right_eq_some.mp ht
    cases he
    exact (hk.mono hnow).forward hnow' depth f source

theorem kept_run {es : List HubEvent} (hrun : Runs.run step {} es = some s) : s.hub.Kept s.clock :=
  Runs.run_invariant (P := fun s => s.hub.Kept s.clock) (fun _ _ _ hs ht => kept_step hs ht) hrun
    ⟨consistent_start.table, nofun⟩

theorem clock_le_step (ht : s.step e = some t) : s.clock ≤ t.clock := by
  cases e with
  | connect id =>
    obtain ⟨-, he⟩ := Option.ite_none_right_eq_some.mp ht
    cases he
    exact le_rfl
  | frame depth f source now now' =>
    obtain ⟨⟨hnow, hnow'⟩, he⟩ := Option.ite_none_right_eq_some.mp ht
    cases he
    exact hnow.trans hnow'
  | disconnect | macLimit | secure | mode | maxDepth =>
    cases ht
    exact le_rfl

theorem sealed_step {K : Set MacKey} {T : Instant} {l : ℕ} {p : Port} (hk : s.hub.Kept s.clock)
    (hs : Sealed K T l p s.hub) (hsec : p.secure) (hl : p.macLimit = some l) (habout : ¬e.about p.id)
    (ht : s.step e = some t) (hT : t.clock ≤ T) : Sealed K T l p t.hub := by
  have hreconf {id : PortId} {edit : Port → Port} (hne : ¬id = p.id) :
      (s.hub.ports.reconfigure id edit).get p.id = some p := by
    rw [PortTable.get_reconfigure, hs.port, Option.map_some, if_neg (Ne.symm hne)]
  cases e with
  | connect id =>
    obtain ⟨-, he⟩ := Option.ite_none_right_eq_some.mp ht
    cases he
    refine hs.setPorts ?_
    rw [PortTable.get_connect, hs.port]
    rfl
  | disconnect id =>
    cases ht
    exact hs.purge (PortTable.get_disconnect.mpr ⟨hs.port, Ne.symm habout⟩) habout
  | macLimit id limit =>
    cases ht
    exact hs.setPorts (hreconf habout)
  | secure id on =>
    cases ht
    exact hs.setPorts (hreconf habout)
  | mode id mode =>
    cases ht
    exact hs.purge (hreconf habout) habout
  | maxDepth depth =>
    cases ht
    exact ⟨hs.port, hs.full, hs.kept, hs.only⟩
  | frame depth f source now now' =>
    obtain ⟨⟨hnow, hnow'⟩, he⟩ := Option.ite_none_right_eq_some.mp ht
    cases he
    exact hs.forward (hk.sound.mono hnow) hnow' hT hsec hl depth f source

theorem sealed_run {K : Set MacKey} {T : Instant} {l : ℕ} {p : Port} {es : List HubEvent} (hk : s.hub.Kept s.clock)
    (hs : Sealed K T l p s.hub) (hsec : p.secure) (hl : p.macLimit = some l) (habout : ∀ e ∈ es, ¬e.about p.id)
    (hrun : Runs.run step s es = some t) (hT : t.clock ≤ T) : Sealed K T l p t.hub ∧ s.clock ≤ t.clock := by
  induction es generalizing s with
  | nil =>
    obtain rfl := Option.some.inj hrun
    exact ⟨hs, le_rfl⟩
  | cons e es ih =>
    obtain ⟨u, hu, hut⟩ := Runs.run_cons.mp hrun
    have hclock : u.clock ≤ t.clock :=
      Runs.run_invariant (P := fun v => u.clock ≤ v.clock) (fun _ _ _ hv hstep => hv.trans (clock_le_step hstep)) hut
        le_rfl
    have hsu := sealed_step hk hs hsec hl (habout e List.mem_cons_self) hu (hclock.trans hT)
    have hrest := ih (kept_step hk hu) hsu (fun e he => habout e (List.mem_cons_of_mem _ he)) hut
    exact ⟨hrest.1, (clock_le_step hu).trans hclock⟩

def broadcast (first : UInt8) : Frame := [255, 255, 255, 255, 255, 255, first, 0, 0, 0, 0, 1, 8, 0]

/-- A secure port with room for one station learns it. -/
def secured : List HubEvent :=
  [.connect 0, .connect 1, .secure 0 true, .macLimit 0 (some 1), .frame 0 (broadcast 2) 0 5 6]

end Switching

end PktKit.L2
