import PktKit.Arp.Pending

/-! # The accounts of the waiting packets

Every operation on the queues keeps their byte count and their caps, and says which packets it may drop.
-/

namespace PktKit.Arp
open Foundations

variable {K : Type} [DecidableEq K] {q q' q'' : Queues K} {ip k : K} {e e' : PendingEntry} {now : Instant}
  {order : Queues K → ℕ} {pkt : Bytes}

theorem choose_eq_none {α : Type*} {n : ℕ} {l : List α} (h : choose n l = none) : l = [] := by
  by_contra hne
  have hlt := Nat.mod_lt n (List.length_pos_of_ne_nil hne)
  rw [choose, List.getElem?_eq_getElem hlt] at h
  cases h

theorem mem_of_choose {α : Type*} {n : ℕ} {l : List α} {a : α} (h : choose n l = some a) : a ∈ l :=
  List.mem_of_getElem? h

namespace Queues

/-- The byte count is what the queues hold, and the caps are kept. -/
structure Counted (q : Queues K) : Prop where
  count : q.bytes = q.map.total PendingEntry.size
  cap : q.bytes ≤ PENDING_MAX_BYTES
  targets : q.map.entries.length ≤ PENDING_MAX_TARGETS
  short : ∀ k e, q.map.lookup k = some e → e.packets.length ≤ PENDING_MAX_PKTS

def FilledBut (q : Queues K) (ip : K) : Prop := ∀ k e, k ≠ ip → q.map.lookup k = some e → e.packets ≠ []

end Queues

/-- A queue that lost some of its oldest packets, nothing else. -/
structure PendingEntry.Trimmed (e e' : PendingEntry) : Prop where
  packets : e'.packets <:+ e.packets
  sent : e'.sent = e.sent
  next : e'.next = e.next

theorem PendingEntry.Trimmed.refl : e.Trimmed e := ⟨List.suffix_refl _, rfl, rfl⟩

theorem PendingEntry.Trimmed.tail {p : Bytes} {ps : List Bytes} {sent : ℕ} {next : Instant} :
    Trimmed ⟨p :: ps, sent, next⟩ ⟨ps, sent, next⟩ := ⟨List.suffix_cons _ _, rfl, rfl⟩

theorem PendingEntry.Trimmed.eq_of_nil (h : e.Trimmed e') (hn : e.packets = []) : e' = e := by
  obtain ⟨hp, hs, hx⟩ := h
  rw [hn, List.suffix_nil] at hp
  cases e
  cases e'
  simp_all

theorem PendingEntry.Trimmed.trans {e'' : PendingEntry} (h : e.Trimmed e') (h' : e'.Trimmed e'') : e.Trimmed e'' :=
  ⟨h'.packets.trans h.packets, h'.sent.trans h.sent, h'.next.trans h.next⟩

/-- The queues of other targets only lost packets. -/
structure Sheds (ip : K) (q q' : Queues K) : Prop where
  pinned : q'.pinned = q.pinned
  other : ∀ k e', k ≠ ip → q'.map.lookup k = some e' → ∃ e, q.map.lookup k = some e ∧ e.Trimmed e'

/-- The queues of other targets whose resolution has not failed are as they were. -/
def Spares (ip : K) (now : Instant) (q q' : Queues K) : Prop :=
  ∀ k e, k ≠ ip → q.map.lookup k = some e → e.failed now = false → q'.map.lookup k = some e

theorem Sheds.refl : Sheds ip q q := ⟨rfl, fun _ e' _ h => ⟨e', h, .refl⟩⟩

theorem Sheds.trans (h : Sheds ip q q') (h' : Sheds ip q' q'') : Sheds ip q q'' := by
  refine ⟨h'.pinned.trans h.pinned, fun k e'' hk hl => ?_⟩
  obtain ⟨e', hl', ht'⟩ := h'.other k e'' hk hl
  obtain ⟨e, hl, ht⟩ := h.other k e' hk hl'
  exact ⟨e, hl, ht.trans ht'⟩

theorem Spares.refl : Spares ip now q q := fun _ _ _ h _ => h

theorem Spares.trans (h : Spares ip now q q') (h' : Spares ip now q' q'') : Spares ip now q q'' :=
  fun k e hk hl hf => h' k e hk (h k e hk hl hf) hf

/-- A change of the queue of the target itself. -/
theorem Sheds.of_lookup (hp : q'.pinned = q.pinned) (h : ∀ k, k ≠ ip → q'.map.lookup k = q.map.lookup k) :
    Sheds ip q q' :=
  ⟨hp, fun k e' hk hl => ⟨e', (h k hk).symm.trans hl, .refl⟩⟩

theorem Spares.of_lookup (h : ∀ k, k ≠ ip → q'.map.lookup k = q.map.lookup k) : Spares ip now q q' :=
  fun k _ hk hl _ => (h k hk).trans hl

theorem Sheds.filledBut (h : ∀ k, k ≠ ip → q'.map.lookup k = q.map.lookup k) (hf : q.FilledBut ip) :
    q'.FilledBut ip :=
  fun k e hk hl => hf k e hk ((h k hk).symm.trans hl)

namespace Queues

omit [DecidableEq K] in
theorem free_eq {n : ℕ} (h : n ≤ q.bytes) : q.free n = some { q with bytes := q.bytes - n } := if_pos h

theorem remove_spec (h : q.Counted) (k : K) : ∃ q', q.remove k = some (q', q.map.lookup k) ∧ q'.Counted ∧
    q'.pinned = q.pinned ∧ (∀ k', q'.map.lookup k' = if k' = k then none else q.map.lookup k') ∧
    ((q.map.lookup k).isSome → q'.map.entries.length + 1 = q.map.entries.length) ∧
    q'.bytes + (q.map.lookup k).elim 0 PendingEntry.size = q.bytes := by
  rw [remove]
  cases hl : q.map.lookup k with
  | none =>
    refine ⟨q, rfl, h, rfl, fun k' => ?_, fun hs => by simp at hs, rfl⟩
    split
    · next hk => rw [hk, hl]
    · rfl
  | some e =>
    have htotal := Table.total_erase (f := PendingEntry.size) hl
    have hlen := Table.length_erase (t := q.map) (k := k) (by rw [hl]; rfl)
    have hcount := h.count
    have hcap := h.cap
    have htargets := h.targets
    refine ⟨{ q with map := q.map.erase k, bytes := q.bytes - e.size }, ?_, ⟨?_, ?_, ?_, ?_⟩, rfl,
      fun k' => Table.lookup_erase_eq, fun _ => hlen, ?_⟩
    · have hfree := free_eq (q := { q with map := q.map.erase k }) (show e.size ≤ q.bytes by omega)
      exact congrArg (Option.map (·, some e)) hfree
    · dsimp only
      omega
    · dsimp only
      omega
    · dsimp only
      omega
    · intro k' e' hl'
      rw [Table.lookup_erase_eq] at hl'
      split at hl'
      · cases hl'
      · exact h.short k' e' hl'
    · dsimp only [Option.elim]
      omega

theorem dropOldest_spec {p : Bytes} {ps : List Bytes} {sent : ℕ} {next : Instant} (h : q.Counted)
    (hl : q.map.lookup k = some ⟨p :: ps, sent, next⟩) : ∃ q', q.dropOldest k = some q' ∧ q'.Counted ∧
    q'.pinned = q.pinned ∧ q'.map = q.map.insert k ⟨ps, sent, next⟩ ∧ q'.bytes + p.length = q.bytes ∧
    q'.waiting + 1 = q.waiting := by
  have htotal := Table.total_insert_of_some ⟨ps, sent, next⟩ PendingEntry.size hl
  have hpackets := Table.total_insert_of_some ⟨ps, sent, next⟩ (fun e => e.packets.length) hl
  have hsize : PendingEntry.size ⟨p :: ps, sent, next⟩ = p.length + PendingEntry.size ⟨ps, sent, next⟩ := rfl
  have hcount := h.count
  have hcap := h.cap
  have hle := Table.le_total (f := PendingEntry.size) hl
  refine ⟨{ q with map := q.map.insert k ⟨ps, sent, next⟩, bytes := q.bytes - p.length }, ?_,
    ⟨?_, ?_, ?_, ?_⟩, rfl,
    rfl, ?_, ?_⟩
  · rw [dropOldest, hl]
    exact free_eq (show p.length ≤ q.bytes by omega)
  · dsimp only
    omega
  · dsimp only
    omega
  · rw [Table.length_insert_of_some hl]
    exact h.targets
  · intro k' e' hl'
    rw [Table.lookup_insert_eq] at hl'
    split at hl'
    · cases hl'
      have := h.short k _ hl
      simp only [List.length_cons] at this ⊢
      omega
    · exact h.short k' e' hl'
  · dsimp only
    omega
  · simp only [waiting, List.length_cons] at hpackets ⊢
    omega

/-- A queue left with nothing in it goes too. -/
theorem erase_empty {sent : ℕ} {next : Instant} (h : q.Counted) (hl : q.map.lookup k = some ⟨[], sent, next⟩) :
    Counted { q with map := q.map.erase k } ∧ waiting { q with map := q.map.erase k } = q.waiting := by
  have hsize := Table.total_erase (f := PendingEntry.size) hl
  have hlen := Table.length_erase (t := q.map) (k := k) (by rw [hl]; rfl)
  have htargets := h.targets
  refine ⟨⟨h.count.trans hsize.symm, h.cap, ?_, ?_⟩, Table.total_erase (f := fun e => e.packets.length) hl⟩
  · dsimp only
    omega
  · intro k' e' hl'
    rw [Table.lookup_erase_eq] at hl'
    split at hl'
    · cases hl'
    · exact h.short k' e' hl'

/-- Shedding a packet of another queue. -/
theorem shedOther_spec (h : q.Counted) (hf : q.FilledBut ip) (order : Queues K → ℕ) :
    (q.shedOther order ip = some (q, false) ∧ ∀ k, k ≠ ip → q.map.lookup k = none) ∨
    ∃ q', q.shedOther order ip = some (q', true) ∧ q'.Counted ∧ q'.FilledBut ip ∧ Sheds ip q q' ∧
      q'.map.lookup ip = q.map.lookup ip ∧ q'.waiting < q.waiting := by
  rw [shedOther]
  cases hc : choose (order q) (q.map.entries.filter fun e => e.1 ≠ ip ∧ e.2.packets ≠ []) with
  | none =>
    refine .inl ⟨rfl, fun k hk => ?_⟩
    by_contra hne
    obtain ⟨e, he⟩ := Option.ne_none_iff_exists'.mp hne
    have hmem := choose_eq_none hc
    rw [List.filter_eq_nil_iff] at hmem
    exact hmem ⟨k, e⟩ (Table.lookup_eq_some.mp he) (by simpa using ⟨hk, hf k e hk he⟩)
  | some v =>
    obtain ⟨k, e⟩ := v
    obtain ⟨hmem, hv⟩ := List.mem_filter.mp (mem_of_choose hc)
    obtain ⟨hk, hne⟩ : k ≠ ip ∧ e.packets ≠ [] := by simpa using hv
    have hl : q.map.lookup k = some e := Table.lookup_eq_some.mpr hmem
    obtain ⟨packets, sent, next⟩ := e
    obtain ⟨p, ps, rfl⟩ := List.exists_cons_of_ne_nil hne
    obtain ⟨q₁, hd, hcounted, hpin, hmap, hbytes, hw⟩ := dropOldest_spec h hl
    have hl₁ : ∀ k', q₁.map.lookup k' = if k' = k then some ⟨ps, sent, next⟩ else q.map.lookup k' := fun k' => by
      rw [hmap, Table.lookup_insert_eq]
    have hsheds : ∀ k' e', k' ≠ ip → q₁.map.lookup k' = some e' → ∃ e, q.map.lookup k' = some e ∧
      e.Trimmed e' := by
      intro k' e' hk' hl'
      rw [hl₁] at hl'
      split at hl'
      · next heq =>
        cases hl'
        exact ⟨⟨p :: ps, sent, next⟩, heq.symm ▸ hl, .tail⟩
      · exact ⟨e', hl', .refl⟩
    have hip : q₁.map.lookup ip = q.map.lookup ip := by rw [hl₁, if_neg (Ne.symm hk)]
    refine .inr ?_
    dsimp only
    rw [hd]
    by_cases hps : ps = []
    · subst hps
      obtain ⟨hcounted', hw'⟩ := erase_empty hcounted (by rw [hl₁, if_pos rfl])
      have hl₂ : ∀ k' e', k' ≠ ip → (q₁.map.erase k).lookup k' = some e' → k' ≠ k ∧
        q₁.map.lookup k' = some e' := by
        intro k' e' hk' hl'
        rw [Table.lookup_erase_eq] at hl'
        split at hl'
        · cases hl'
        · next hne => exact ⟨hne, hl'⟩
      refine ⟨{ q₁ with map := q₁.map.erase k }, rfl, hcounted', ?_, ⟨hpin, ?_⟩, ?_, ?_⟩
      · intro k' e' hk' hl'
        obtain ⟨hne', hl'⟩ := hl₂ k' e' hk' hl'
        rw [hl₁, if_neg hne'] at hl'
        exact hf k' e' hk' hl'
      · intro k' e' hk' hl'
        exact hsheds k' e' hk' (hl₂ k' e' hk' hl').2
      · rw [Table.lookup_erase_eq, if_neg (Ne.symm hk), hip]
      · omega
    · refine ⟨q₁, by simp [hps], hcounted, ?_, ⟨hpin, hsheds⟩, hip, by omega⟩
      intro k' e' hk' hl'
      rw [hl₁] at hl'
      split at hl'
      · cases hl'
        exact hps
      · exact hf k' e' hk' hl'

theorem total_eq_zero {t : Table K PendingEntry} (h : ∀ k e, t.lookup k = some e → e.packets = []) :
    t.total PendingEntry.size = 0 := by
  rw [Table.total, List.sum_eq_zero_iff]
  intro n hn
  obtain ⟨e, he, rfl⟩ := List.mem_map.mp hn
  obtain ⟨k, hk⟩ := Table.mem_values.mp he
  rw [PendingEntry.size, h k e hk]
  rfl

/-- Room was made at the cost of the queue itself or, for the router, of the others. -/
structure MakesRoom (ip : K) (now : Instant) (len : ℕ) (q : Queues K) (e : PendingEntry) (q' : Queues K)
    (e' : PendingEntry) : Prop where
  counted : q'.Counted
  filled : q'.FilledBut ip
  sheds : Sheds ip q q'
  spares : q.pinned ≠ some ip → Spares ip now q q'
  own : q'.map.lookup ip = some e'
  trimmed : e.Trimmed e'
  fits : q'.bytes + len ≤ PENDING_MAX_BYTES

theorem MakesRoom.of_own {q₁ : Queues K} {e₁ : PendingEntry} {len : ℕ} (hp : q₁.pinned = q.pinned)
    (hl : ∀ k, k ≠ ip → q₁.map.lookup k = q.map.lookup k) (ht : e.Trimmed e₁)
    (h : MakesRoom ip now len q₁ e₁ q' e') : MakesRoom ip now len q e q' e' where
  counted := h.counted
  filled := h.filled
  sheds := (Sheds.of_lookup hp hl).trans h.sheds
  spares hn := (Spares.of_lookup hl).trans (h.spares (hp ▸ hn))
  own := h.own
  trimmed := ht.trans h.trimmed
  fits := h.fits

theorem makeRoom_spec {len fuel : ℕ} (order : Queues K → ℕ) (now : Instant) (h : q.Counted)
    (hf : q.FilledBut ip) (hl : q.map.lookup ip = some e)
    (hlen : len ≤ PENDING_MAX_BYTES) (hroom : q.pinned = some ip ∨ q.bytes + len ≤ PENDING_MAX_BYTES + e.size)
    (hfuel : q.waiting < fuel) : ∃ q' e', makeRoom order ip len fuel q = some (q', true) ∧
      MakesRoom ip now len q e q' e' := by
  induction fuel generalizing q e with
  | zero => omega
  | succ fuel ih =>
    rw [makeRoom]
    by_cases hb : q.bytes + len ≤ PENDING_MAX_BYTES
    · rw [if_pos hb]
      exact ⟨q, e, rfl, h, hf, .refl, fun _ => .refl, hl, .refl, hb⟩
    rw [if_neg hb]
    -- With no other to take from, the queue has packets of its own, or the room would be there.
    have hown : (q.pinned = some ip → ∀ k, k ≠ ip → q.map.lookup k = none) → ∃ q' e',
        ((q.dropOldest ip).bind (makeRoom order ip len fuel) = some (q', true) ∧ MakesRoom ip now len q e q' e') ∧
          e.packets ≠ [] := by
      intro hnone
      have hne : e.packets ≠ [] := by
        intro he
        have hsize : e.size = 0 := by rw [PendingEntry.size, he]; rfl
        rcases hroom with hp | hr
        · have hzero : q.bytes = 0 := by
            rw [h.count]
            apply total_eq_zero
            intro k e' hk
            by_cases hkip : k = ip
            · rw [hkip, hl] at hk
              exact Option.some.inj hk ▸ he
            · rw [hnone hp k hkip] at hk
              cases hk
          omega
        · omega
      obtain ⟨packets, sent, next⟩ := e
      obtain ⟨p, ps, rfl⟩ := List.exists_cons_of_ne_nil hne
      obtain ⟨q₁, hd, hc₁, hpin, hmap, hbytes, hw⟩ := dropOldest_spec h hl
      have hl₁ : ∀ k, q₁.map.lookup k = if k = ip then some ⟨ps, sent, next⟩ else q.map.lookup k := fun k => by
        rw [hmap, Table.lookup_insert_eq]
      have hne₁ : ∀ k, k ≠ ip → q₁.map.lookup k = q.map.lookup k := fun k hk => by rw [hl₁, if_neg hk]
      have hroom₁ : q₁.pinned = some ip ∨
          q₁.bytes + len ≤ PENDING_MAX_BYTES + PendingEntry.size ⟨ps, sent, next⟩ := by
        refine hroom.imp (hpin.trans ·) fun hr => ?_
        have hsize : PendingEntry.size ⟨p :: ps, sent, next⟩ = p.length + PendingEntry.size ⟨ps, sent, next⟩ := rfl
        omega
      obtain ⟨q', e', hm, hmakes⟩ := ih hc₁ (Sheds.filledBut hne₁ hf) (by rw [hl₁, if_pos rfl]) hroom₁ (by omega)
      refine ⟨q', e', ⟨?_, hmakes.of_own hpin hne₁ .tail⟩, hne⟩
      rw [hd]
      exact hm
    by_cases hp : q.pinned = some ip
    · rcases shedOther_spec h hf order with ⟨hs, hnone⟩ | ⟨q₁, hs, hc₁, hf₁, hsheds₁, hl₁, hw₁⟩
      · obtain ⟨q', e', ⟨hm, hmakes⟩, hne⟩ := hown fun _ => hnone
        refine ⟨q', e', ?_, hmakes⟩
        simpa [hp, hs, hl, hne] using hm
      · obtain ⟨q', e', hm, hmakes⟩ := ih hc₁ hf₁ (hl₁.trans hl) (.inl (hsheds₁.pinned.trans hp)) (by omega)
        refine ⟨q', e', ?_, { hmakes with sheds := hsheds₁.trans hmakes.sheds, spares := fun hn => absurd hp hn }⟩
        simpa [hp, hs] using hm
    · obtain ⟨q', e', ⟨hm, hmakes⟩, hne⟩ := hown fun hp' => absurd hp' hp
      refine ⟨q', e', ?_, hmakes⟩
      simpa [hp, hl, hne] using hm

def ownSize (q : Queues K) (ip : K) : ℕ := (q.map.lookup ip).elim 0 PendingEntry.size

theorem ownSize_le (h : q.Counted) (ip : K) : q.ownSize ip ≤ q.bytes := by
  rw [ownSize, h.count]
  cases hl : q.map.lookup ip with
  | none => exact Nat.zero_le _
  | some e => exact Table.le_total (f := PendingEntry.size) hl

/-- The queue of a target whose resolution has not failed. -/
def live (q : Queues K) (ip : K) (now : Instant) : Option PendingEntry :=
  (q.map.lookup ip).filter fun e => !e.failed now

theorem live_eq_some : q.live ip now = some e ↔ q.map.lookup ip = some e ∧ e.failed now = false := by
  simp [live, Option.filter_eq_some_iff]

theorem live_eq_none : q.live ip now = none ↔ ∀ e, q.map.lookup ip = some e → e.failed now = true := by
  simp [live, Option.filter_eq_none_iff]

theorem startOver_spec (h : q.Counted) (ip : K) (now : Instant) :
    ∃ q', q.startOver ip now = some q' ∧ q'.Counted ∧ q'.pinned = q.pinned ∧
    (∀ k, k ≠ ip → q'.map.lookup k = q.map.lookup k) ∧
    q'.map.lookup ip = q.live ip now ∧
    q'.bytes + q.ownSize ip = q.bytes + q'.ownSize ip := by
  rw [startOver]
  cases hl : q.map.lookup ip with
  | none => exact ⟨q, rfl, h, rfl, fun _ _ => rfl, by rw [live, hl]; rfl, rfl⟩
  | some e =>
    cases hfail : e.failed now with
    | false =>
      exact ⟨q, by simp [hfail], h, rfl, fun _ _ => rfl, hl.trans (live_eq_some.mpr ⟨hl, hfail⟩).symm, rfl⟩
    | true =>
      obtain ⟨q', hr, hc, hpin, hlook, _, hbytes⟩ := remove_spec h ip
      have hown : q'.map.lookup ip = none := by rw [hlook, if_pos rfl]
      refine ⟨q', by simp [hfail, hr], hc, hpin, fun k hk => by rw [hlook, if_neg hk], ?_, ?_⟩
      · rw [hown, eq_comm, live_eq_none, hl]
        exact fun e' he' => Option.some.inj he' ▸ hfail
      · rw [ownSize, ownSize, hown]
        exact hbytes

theorem clearFailed_spec (h : q.Counted) (now : Instant) : ∃ q', q.clearFailed now = some q' ∧ q'.Counted ∧
    q'.pinned = q.pinned ∧
    (∀ k, q'.map.lookup k = (q.map.lookup k).filter (fun e => !e.failed now)) ∧ q'.bytes ≤ q.bytes := by
  have htotal := Table.total_retain (t := q.map) (p := fun _ e => !e.failed now) (f := PendingEntry.size)
  have hlen := Table.length_retain_le (t := q.map) (p := fun _ e => !e.failed now)
  have hcount := h.count
  have hcap := h.cap
  refine ⟨_, free_eq ?_, ⟨?_, ?_, hlen.trans h.targets, ?_⟩, rfl, fun k => Table.lookup_retain, ?_⟩
  · dsimp only
    omega
  · dsimp only
    omega
  · dsimp only
    omega
  · intro k e hl
    rw [Table.lookup_retain, Option.filter_eq_some_iff] at hl
    exact h.short k e hl.1
  · exact Nat.sub_le _ _

theorem giveUp_spec (h : q.Counted) (hne : q.map.entries ≠ []) (order : Queues K → ℕ) : ∃ q',
    q.giveUp order = some q' ∧ q'.Counted ∧ q'.pinned = q.pinned ∧
      q'.map.entries.length + 1 = q.map.entries.length ∧ q'.bytes ≤ q.bytes ∧
      ∀ k e, q'.map.lookup k = some e → q.map.lookup k = some e := by
  rw [giveUp]
  cases hc : choose (order q) (maxima (fun e => e.2.nearness) q.map.entries) with
  | none => exact absurd (maxima_eq_nil.mp (choose_eq_none hc)) hne
  | some v =>
    have hl : q.map.lookup v.1 = some v.2 := Table.lookup_eq_some.mpr (mem_maxima.mp (mem_of_choose hc)).1
    obtain ⟨q', hr, hcounted, hpin, hlook, hlen, hbytes⟩ := remove_spec h v.1
    refine ⟨q', by simp [hr], hcounted, hpin, hlen (by rw [hl]; rfl), by omega, fun k e hk => ?_⟩
    rw [hlook] at hk
    split at hk
    · cases hk
    · exact hk

theorem insert_counted (h : q.Counted) (hl : q.map.lookup ip = none)
    (hlen : q.map.entries.length < PENDING_MAX_TARGETS) (next : Instant) :
    Counted { q with map := q.map.insert ip ⟨[], 1, next⟩ } := by
  refine ⟨?_, h.cap, ?_, ?_⟩
  · rw [Table.total_insert_of_none hl]
    exact h.count.trans (Nat.zero_add _).symm
  · rw [Table.length_insert_of_none hl]
    exact hlen
  · intro k e hk
    rw [Table.lookup_insert_eq] at hk
    split at hk
    · cases hk
      exact Nat.zero_le _
    · exact h.short k e hk

/-- The queues before and after room for a target was looked for. -/
structure AddsTarget (ip : K) (now : Instant) (q q' : Queues K) (added : Bool) : Prop where
  counted : q'.Counted
  filled : q'.FilledBut ip
  sheds : Sheds ip q q'
  spares : q.pinned ≠ some ip → Spares ip now q q'
  refused : added = false → q.pinned ≠ some ip
  own : q'.map.lookup ip = if added then some ⟨[], 1, now + RETRANS_TIMER⟩ else none
  bytes : q'.bytes ≤ q.bytes

theorem addTarget_spec (h : q.Counted) (hf : q.FilledBut ip) (hl : q.map.lookup ip = none)
    (order : Queues K → ℕ) (now : Instant) : ∃ q' b, q.addTarget order ip now = some (q', b) ∧
      AddsTarget ip now q q' b := by
  obtain ⟨q₁, hq₁, hc₁, hpin₁, hlook₁, hle₁⟩ : ∃ q₁, (if PENDING_MAX_TARGETS ≤ q.map.entries.length
      then q.clearFailed now else some q) = some q₁ ∧ q₁.Counted ∧ q₁.pinned = q.pinned ∧
      (∀ k, q₁.map.lookup k = q.map.lookup k ∨
        q₁.map.lookup k = (q.map.lookup k).filter (fun e => !e.failed now)) ∧ q₁.bytes ≤ q.bytes := by
    split
    · obtain ⟨q₁, hq₁, hc₁, hpin₁, hlook₁, hle₁⟩ := clearFailed_spec h now
      exact ⟨q₁, hq₁, hc₁, hpin₁, fun k => .inr (hlook₁ k), hle₁⟩
    · exact ⟨q, rfl, h, rfl, fun _ => .inl rfl, Nat.le_refl _⟩
  have hsub : ∀ k e, q₁.map.lookup k = some e → q.map.lookup k = some e := by
    intro k e hk
    rcases hlook₁ k with heq | heq
    · exact heq ▸ hk
    · rw [heq, Option.filter_eq_some_iff] at hk
      exact hk.1
  have hown₁ : q₁.map.lookup ip = none := by
    cases ho : q₁.map.lookup ip with
    | none => rfl
    | some e => exact absurd (hsub ip e ho) (by rw [hl]; simp)
  have hspares₁ : Spares ip now q q₁ := by
    intro k e _ hk hfail
    rcases hlook₁ k with heq | heq
    · exact heq ▸ hk
    · rw [heq, hk]
      simp [Option.filter_some, hfail]
  have hsheds₁ : Sheds ip q q₁ := ⟨hpin₁, fun k e _ hk => ⟨e, hsub k e hk, .refl⟩⟩
  have hf₁ : q₁.FilledBut ip := fun k e hk hl' => hf k e hk (hsub k e hl')
  -- The new queue, once there is a place for it.
  have hadd : ∀ q₂ : Queues K, q₂.Counted → q₂.pinned = q₁.pinned → q₂.map.entries.length < PENDING_MAX_TARGETS →
      (∀ k e, q₂.map.lookup k = some e → q₁.map.lookup k = some e) → q₂.bytes ≤ q₁.bytes →
      (q.pinned ≠ some ip → Spares ip now q q₂) →
      AddsTarget ip now q { q₂ with map := q₂.map.insert ip ⟨[], 1, now + RETRANS_TIMER⟩ } true := by
    intro q₂ hc₂ hpin₂ hlen₂ hsub₂ hle₂ hspares₂
    have hown₂ : q₂.map.lookup ip = none := by
      cases ho : q₂.map.lookup ip with
      | none => rfl
      | some e => exact absurd (hsub₂ ip e ho) (by rw [hown₁]; simp)
    have hother : ∀ k, k ≠ ip →
        (q₂.map.insert ip ⟨[], 1, now + RETRANS_TIMER⟩).lookup k = q₂.map.lookup k := fun k hk => by
      rw [Table.lookup_insert_eq, if_neg hk]
    refine ⟨insert_counted hc₂ hown₂ hlen₂ _, ?_, ⟨hpin₂.trans hpin₁, ?_⟩, ?_, fun h => by simp at h, ?_, ?_⟩
    · intro k e hk hl'
      exact hf₁ k e hk (hsub₂ k e ((hother k hk).symm.trans hl'))
    · intro k e hk hl'
      exact ⟨e, hsub k e (hsub₂ k e ((hother k hk).symm.trans hl')), .refl⟩
    · intro hn k e hk hl' hfail
      exact (hother k hk).trans (hspares₂ hn k e hk hl' hfail)
    · rw [Table.lookup_insert_eq, if_pos rfl, if_pos rfl]
    · exact hle₂.trans hle₁
  simp only [addTarget, hq₁, Option.bind_some]
  by_cases hfull : PENDING_MAX_TARGETS ≤ q₁.map.entries.length
  · by_cases hp : q₁.pinned = some ip
    · have hne : q₁.map.entries ≠ [] := by
        intro hnil
        rw [hnil] at hfull
        exact absurd hfull (by simp [PENDING_MAX_TARGETS])
      obtain ⟨q₂, hg, hc₂, hpin₂, hlen₂, hle₂, hsub₂⟩ := giveUp_spec hc₁ hne order
      have htargets := hc₁.targets
      rw [if_pos hfull, if_pos hp, hg]
      exact ⟨_, true, rfl, hadd q₂ hc₂ hpin₂ (by omega) hsub₂ hle₂ fun hn => absurd (hpin₁.symm.trans hp) hn⟩
    · rw [if_pos hfull, if_neg hp]
      exact ⟨q₁, false, rfl, hc₁, hf₁, hsheds₁, fun _ => hspares₁, fun _ => hpin₁ ▸ hp, hown₁, hle₁⟩
  · rw [if_neg hfull]
    exact ⟨_, true, rfl, hadd q₁ hc₁ rfl (by omega) (fun _ _ h => h) (Nat.le_refl _) fun _ => hspares₁⟩

theorem trim_spec (h : q.Counted) (hl : q.map.lookup ip = some e) : ∃ q' e', q.trim ip = some q' ∧ q'.Counted ∧
    q'.pinned = q.pinned ∧ (∀ k, k ≠ ip → q'.map.lookup k = q.map.lookup k) ∧ q'.map.lookup ip = some e' ∧
    e.Trimmed e' ∧ e'.packets.length < PENDING_MAX_PKTS ∧ q'.bytes + e.size = q.bytes + e'.size := by
  rw [trim, hl, Option.bind_some]
  by_cases hfull : PENDING_MAX_PKTS ≤ e.packets.length
  · obtain ⟨packets, sent, next⟩ := e
    cases packets with
    | nil => exact absurd hfull (by simp [PENDING_MAX_PKTS])
    | cons p ps =>
      obtain ⟨q', hd, hc, hpin, hmap, hbytes, _⟩ := dropOldest_spec h hl
      have hshort := h.short ip _ hl
      have hsize : PendingEntry.size ⟨p :: ps, sent, next⟩ = p.length + PendingEntry.size ⟨ps, sent, next⟩ := rfl
      refine ⟨q', ⟨ps, sent, next⟩, by rw [if_pos hfull, hd], hc, hpin, fun k hk => ?_, ?_, .tail, ?_, by omega⟩
      · rw [hmap, Table.lookup_insert_eq, if_neg hk]
      · rw [hmap, Table.lookup_insert_eq, if_pos rfl]
      · simp only [List.length_cons] at hshort ⊢
        omega
  · exact ⟨q, e, if_neg hfull, h, rfl, fun _ _ => rfl, hl, .refl, by omega, rfl⟩

/-- The queue a packet joined, from the one there was, and whether a solicitation is to be sent. -/
inductive Joins (pkt : Bytes) (now : Instant) : Option PendingEntry → PendingEntry → Bool → Prop
  | fresh {old : Option PendingEntry} (h : ∀ e, old = some e → e.failed now = true) :
    Joins pkt now old ⟨[pkt], 1, now + RETRANS_TIMER⟩ true
  | due {e : PendingEntry} {kept : List Bytes} (h : e.failed now = false) (hk : kept <:+ e.packets)
    (hn : e.next ≤ now) : Joins pkt now (some e) ⟨kept ++ [pkt], e.sent + 1, now + RETRANS_TIMER⟩ true
  | more {e : PendingEntry} {kept : List Bytes} (h : e.failed now = false) (hk : kept <:+ e.packets)
    (hn : now < e.next) : Joins pkt now (some e) ⟨kept ++ [pkt], e.sent, e.next⟩ false

theorem insert_pushed (h : q.Counted) (hl : q.map.lookup ip = some e) (hlen : e.packets.length < PENDING_MAX_PKTS)
    (hb : q.bytes + pkt.length ≤ PENDING_MAX_BYTES) (he : e'.packets = e.packets ++ [pkt]) :
    Counted { q with map := q.map.insert ip e', bytes := q.bytes + pkt.length } := by
  have htotal := Table.total_insert_of_some e' PendingEntry.size hl
  have hsize : e'.size = e.size + pkt.length := by simp [PendingEntry.size, he]
  have hcount := h.count
  refine ⟨?_, hb, ?_, ?_⟩
  · dsimp only
    omega
  · rw [Table.length_insert_of_some hl]
    exact h.targets
  · intro k e'' hk
    rw [Table.lookup_insert_eq] at hk
    split at hk
    · cases hk
      rw [he, List.length_append]
      exact hlen
    · exact h.short k e'' hk

structure Queued (ip : K) (pkt : Bytes) (now : Instant) (q q' : Queues K) (solicit : Bool) : Prop where
  counted : q'.Counted
  filled : ∀ k e, q'.map.lookup k = some e → e.packets ≠ []
  sheds : Sheds ip q q'
  spares : q.pinned ≠ some ip → Spares ip now q q'
  joins : ∃ e', q'.map.lookup ip = some e' ∧ Joins pkt now (q.map.lookup ip) e' solicit

structure Refused (ip : K) (pkt : Bytes) (now : Instant) (q q' : Queues K) : Prop where
  counted : q'.Counted
  filled : ∀ k e, q'.map.lookup k = some e → e.packets ≠ []
  sheds : Sheds ip q q'
  unpinned : q.pinned = some ip → PENDING_MAX_BYTES < pkt.length
  spares : ∀ k e, q.map.lookup k = some e → e.failed now = false → q'.map.lookup k = some e
  own : ∀ e', q'.map.lookup ip = some e' → q.map.lookup ip = some e'

/-- The queue a packet is about to join: a new one, or what is left of the one there was. -/
def Extends (q₀ : Queues K) (ip : K) (now : Instant) (e : PendingEntry) : Prop :=
  (q₀.live ip now = none ∧ e = ⟨[], 1, now + RETRANS_TIMER⟩) ∨ ∃ e₀, q₀.live ip now = some e₀ ∧ e₀.Trimmed e

theorem Extends.trim {q₀ : Queues K} (h : Extends q₀ ip now e) (ht : e.Trimmed e') : Extends q₀ ip now e' := by
  refine h.imp (fun ⟨hnone, he⟩ => ⟨hnone, ?_⟩) fun ⟨e₀, h₀, ht₀⟩ => ⟨e₀, h₀, ht₀.trans ht⟩
  subst he
  exact ht.eq_of_nil rfl

theorem push_joins {q₀ : Queues K} (h : q.Counted) (hf : q.FilledBut ip) (hl : q.map.lookup ip = some e)
    (hlen : e.packets.length < PENDING_MAX_PKTS) (hb : q.bytes + pkt.length ≤ PENDING_MAX_BYTES)
    (hold : Extends q₀ ip now e) :
    ∃ q' b, q.push ip pkt (q₀.live ip now).isNone now = some (q', b) ∧ q'.Counted ∧
      (∀ k e, q'.map.lookup k = some e → e.packets ≠ []) ∧ q'.pinned = q.pinned ∧
      (∀ k, k ≠ ip → q'.map.lookup k = q.map.lookup k) ∧ ∃ e', q'.map.lookup ip = some e' ∧
        Joins pkt now (q₀.map.lookup ip) e' b := by
  obtain ⟨e', b, hpush, he', hjoins⟩ : ∃ e' b, q.push ip pkt (q₀.live ip now).isNone now =
      some ({ q with map := q.map.insert ip e', bytes := q.bytes + pkt.length }, b) ∧
      e'.packets = e.packets ++ [pkt] ∧ Joins pkt now (q₀.map.lookup ip) e' b := by
    rw [push, hl]
    rcases hold with ⟨hnone, rfl⟩ | ⟨e₀, hsome, ht⟩
    · exact ⟨⟨[pkt], 1, now + RETRANS_TIMER⟩, true, by simp [hnone], rfl, .fresh (live_eq_none.mp hnone)⟩
    · obtain ⟨h₀, hfail⟩ := live_eq_some.mp hsome
      rw [h₀]
      by_cases hn : e.next ≤ now
      · refine ⟨⟨e.packets ++ [pkt], e₀.sent + 1, now + RETRANS_TIMER⟩, true, ?_, rfl, .due hfail ht.packets ?_⟩
        · simp [hsome, hn, ht.sent]
        · exact ht.next ▸ hn
      · refine ⟨⟨e.packets ++ [pkt], e₀.sent, e₀.next⟩, false, ?_, rfl, .more hfail ht.packets ?_⟩
        · simp [hsome, hn, ← ht.sent, ← ht.next]
        · exact ht.next ▸ not_le.mp hn
  refine ⟨_, b, hpush, insert_pushed h hl hlen hb he', fun k e'' hk => ?_, rfl, fun k hk => ?_, e', ?_, hjoins⟩
  · rw [Table.lookup_insert_eq] at hk
    split at hk
    · cases hk
      rw [he']
      simp
    · next hne => exact hf k e'' hne hk
  · rw [Table.lookup_insert_eq, if_neg hk]
  · rw [Table.lookup_insert_eq, if_pos rfl]

def Enqueued (ip : K) (pkt : Bytes) (now : Instant) (q q' : Queues K) : Option Bool → Prop
  | none => Refused ip pkt now q q'
  | some solicit => Queued ip pkt now q q' solicit

/-- With a queue for the target there is room for the packet. -/
theorem finish_spec {q₀ : Queues K} (h : q.Counted) (hf : q.FilledBut ip) (hl : q.map.lookup ip = some e)
    (hlen : pkt.length ≤ PENDING_MAX_BYTES)
    (hroom : q.pinned = some ip ∨ q.bytes + pkt.length ≤ PENDING_MAX_BYTES + e.size)
    (hsheds : Sheds ip q₀ q) (hspares : q₀.pinned ≠ some ip → Spares ip now q₀ q)
    (hold : Extends q₀ ip now e) (order : Queues K → ℕ) :
    ∃ q' b, ((q.trim ip).bind fun q => (makeRoom order ip pkt.length (q.waiting + 1) q).bind fun r =>
      if r.2 = false then some (r.1, none)
      else (r.1.push ip pkt (q₀.live ip now).isNone now).map
        fun r => (r.1, some r.2)) = some (q', some b) ∧ Queued ip pkt now q₀ q' b := by
  obtain ⟨q₁, e₁, htrim, hc₁, hpin₁, hlook₁, hown₁, ht₁, hlen₁, hbytes₁⟩ := trim_spec h hl
  have hroom₁ : q₁.pinned = some ip ∨ q₁.bytes + pkt.length ≤ PENDING_MAX_BYTES + e₁.size :=
    hroom.imp (hpin₁.trans ·) fun hr => by omega
  obtain ⟨q₂, e₂, hmake, hm⟩ := makeRoom_spec order now hc₁ (Sheds.filledBut hlook₁ hf) hown₁ hlen hroom₁
    (Nat.lt_succ_self _)
  have hlen₂ : e₂.packets.length < PENDING_MAX_PKTS := lt_of_le_of_lt hm.trimmed.packets.length_le hlen₁
  obtain ⟨q', b, hpush, hc', hf', hpin', hlook', hjoins⟩ :=
    push_joins hm.counted hm.filled hm.own hlen₂ hm.fits ((hold.trim ht₁).trim hm.trimmed)
  refine ⟨q', b, ?_, hc', hf', ?_, fun hn => ?_, hjoins⟩
  · simp [htrim, hmake, hpush]
  · exact ((hsheds.trans (.of_lookup hpin₁ hlook₁)).trans hm.sheds).trans (.of_lookup hpin' hlook')
  · have hn₁ : q₁.pinned ≠ some ip := by
      rw [hpin₁, hsheds.pinned]
      exact hn
    exact (((hspares hn).trans (.of_lookup hlook₁)).trans (hm.spares hn₁)).trans (.of_lookup hlook')

theorem enqueueWithin_spec (h : q.Counted) (hf : ∀ k e, q.map.lookup k = some e → e.packets ≠ [])
    (hlen : pkt.length ≤ PENDING_MAX_BYTES)
    (hroom : q.pinned = some ip ∨ q.bytes + pkt.length ≤ PENDING_MAX_BYTES + q.ownSize ip)
    (order : Queues K → ℕ) (now : Instant) :
    ∃ q' r, q.enqueueWithin order ip pkt now = some (q', r) ∧ Enqueued ip pkt now q q' r := by
  obtain ⟨q₁, hstart, hc₁, hpin₁, hlook₁, hown₁, hbytes₁⟩ := startOver_spec h ip now
  have hf₁ : q₁.FilledBut ip := fun k e hk hl => hf k e ((hlook₁ k hk).symm.trans hl)
  have hroom₁ : q₁.pinned = some ip ∨ q₁.bytes + pkt.length ≤ PENDING_MAX_BYTES + q₁.ownSize ip :=
    hroom.imp (hpin₁.trans ·) fun hr => by omega
  simp only [enqueueWithin, hstart, Option.bind_some]
  cases ho : q₁.map.lookup ip with
  | some e =>
    obtain ⟨hl, hfail⟩ : q.map.lookup ip = some e ∧ e.failed now = false := by
      rw [hown₁] at ho
      exact live_eq_some.mp ho
    have hsize : q₁.ownSize ip = e.size := by rw [ownSize, ho]; rfl
    obtain ⟨q', b, hfin, hq⟩ := finish_spec hc₁ hf₁ ho hlen (hsize ▸ hroom₁) (.of_lookup hpin₁ hlook₁)
      (fun _ => .of_lookup hlook₁) (.inr ⟨e, live_eq_some.mpr ⟨hl, hfail⟩, .refl⟩) order
    refine ⟨q', some b, ?_, hq⟩
    rw [← hown₁, ho] at hfin
    simpa using hfin
  | none =>
    obtain ⟨q₂, b, hadd, ha⟩ := addTarget_spec hc₁ hf₁ ho order now
    have hnone : q.live ip now = none := hown₁.symm.trans ho
    have hsheds : Sheds ip q q₂ := (Sheds.of_lookup hpin₁ hlook₁).trans ha.sheds
    have hspares : q.pinned ≠ some ip → Spares ip now q q₂ := fun hn =>
      (Spares.of_lookup hlook₁).trans (ha.spares (hpin₁ ▸ hn))
    cases b with
    | false =>
      have hn : q.pinned ≠ some ip := hpin₁ ▸ ha.refused rfl
      have hown₂ : q₂.map.lookup ip = none := ha.own
      refine ⟨q₂, none, by simp [hadd], ha.counted, fun k e hk => ?_, hsheds, fun hp => absurd hp hn, fun k e hk hfail => ?_, fun e' he' => ?_⟩
      · by_cases hkip : k = ip
        · rw [hkip, hown₂] at hk
          cases hk
        · exact ha.filled k e hkip hk
      · by_cases hkip : k = ip
        · rw [hkip] at hk
          exact absurd (live_eq_none.mp hnone e hk) (by rw [hfail]; simp)
        · exact hspares hn k e hkip hk hfail
      · rw [hown₂] at he'
        cases he'
    | true =>
      have hle := ha.bytes
      have hsize : q₁.ownSize ip = 0 := by rw [ownSize, ho]; rfl
      obtain ⟨q', b, hfin, hq⟩ := finish_spec ha.counted ha.filled ha.own hlen
        (hroom₁.imp (ha.sheds.pinned.trans ·) fun hr => by omega) hsheds hspares (.inl ⟨hnone, rfl⟩) order
      refine ⟨q', some b, ?_, hq⟩
      rw [hnone] at hfin
      simpa [hadd] using hfin

theorem Refused.refl (h : q.Counted) (hf : ∀ k e, q.map.lookup k = some e → e.packets ≠ [])
    (hp : q.pinned = some ip → PENDING_MAX_BYTES < pkt.length) : Refused ip pkt now q q :=
  ⟨h, hf, .refl, hp, fun _ _ hl _ => hl, fun _ hl => hl⟩

theorem enqueueAt_spec (h : q.Counted) (hf : ∀ k e, q.map.lookup k = some e → e.packets ≠ [])
    (order : Queues K → ℕ) (ip : K) (pkt : Bytes) (now : Instant) :
    ∃ q' r, q.enqueueAt order ip pkt now = some (q', r) ∧ Enqueued ip pkt now q q' r := by
  have hown := ownSize_le h ip
  have hcap := h.cap
  rw [enqueueAt]
  by_cases hlen : PENDING_MAX_BYTES < pkt.length
  · rw [if_pos hlen]
    exact ⟨q, none, rfl, .refl h hf fun _ => hlen⟩
  rw [if_neg hlen]
  have hfits : pkt.length ≤ PENDING_MAX_BYTES := not_lt.mp hlen
  by_cases hp : q.pinned = some ip
  · obtain ⟨q', r, hq, hr⟩ := enqueueWithin_spec h hf hfits (.inl hp) order now
    exact ⟨q', r, by simpa [room, hp, hlen] using hq, hr⟩
  · have hroom : q.room ip = some (PENDING_MAX_BYTES - (q.bytes - q.ownSize ip)) := by
      rw [room, if_neg hp, if_pos ⟨hown, (Nat.sub_le _ _).trans hcap⟩]
      rfl
    rw [hroom, Option.bind_some]
    by_cases hr : PENDING_MAX_BYTES - (q.bytes - q.ownSize ip) < pkt.length
    · rw [if_pos hr]
      exact ⟨q, none, rfl, .refl h hf fun hp' => absurd hp' hp⟩
    · rw [if_neg hr]
      exact enqueueWithin_spec h hf hfits (.inr (by omega)) order now

/-! ## The other operations -/

theorem drain_spec (h : q.Counted) (ip : K) : ∃ q' packets, q.drain ip = some (q', packets) ∧ q'.Counted ∧
    ∀ k, q'.map.lookup k = if k = ip then none else q.map.lookup k := by
  obtain ⟨q', hr, hc, _, hlook, _⟩ := remove_spec h ip
  exact ⟨q', _, by rw [drain, hr]; rfl, hc, hlook⟩

def polled (now : Instant) (e : PendingEntry) : Option PendingEntry :=
  if now < e.next then some e
  else if e.sent < MAX_MULTICAST_SOLICIT then some { e with sent := e.sent + 1, next := now + RETRANS_TIMER }
  else none

theorem poll_spec (h : q.Counted) (now : Instant) : ∃ q', q.poll now =
    some (q', q.map.entries.filterMap (due now)) ∧
    q'.Counted ∧ ∀ k, q'.map.lookup k = (q.map.lookup k).bind (polled now) := by
  have htotal := Table.total_retain (t := q.map) (p := fun _ e => e.staysAt now) (f := PendingEntry.size)
  have hlen := Table.length_retain_le (t := q.map) (p := fun _ e => e.staysAt now)
  have hmap := Table.total_mapValues (t := q.map.retain fun _ e => e.staysAt now) (f := PendingEntry.size)
    (g := fun e => e.timedAt now) fun e => by rw [PendingEntry.timedAt]; split <;> rfl
  have hcount := h.count
  have hcap := h.cap
  have hlook : ∀ k, ((q.map.retain fun _ e => e.staysAt now).mapValues fun e => e.timedAt now).lookup k =
      (q.map.lookup k).bind (polled now) := by
    intro k
    rw [Table.lookup_mapValues, Table.lookup_retain]
    cases q.map.lookup k with
    | none => rfl
    | some e =>
      by_cases hn : now < e.next
      · simp [polled, PendingEntry.staysAt, PendingEntry.timedAt, Option.filter_some, hn]
      · by_cases hs : e.sent < MAX_MULTICAST_SOLICIT <;>
          simp [polled, PendingEntry.staysAt, PendingEntry.timedAt, Option.filter_some, hn, hs]
  have hfree := free_eq (q := { q with map := (q.map.retain fun _ e => e.staysAt now).mapValues fun e => e.timedAt now })
    (show (q.map.retain fun _ e => !e.staysAt now).total PendingEntry.size ≤ q.bytes by omega)
  refine ⟨_, by rw [poll, hfree]; rfl, ⟨?_, ?_, ?_, ?_⟩, hlook⟩
  · dsimp only
    omega
  · dsimp only
    omega
  · simp only [Table.mapValues, List.length_map]
    exact hlen.trans h.targets
  · intro k e hk
    rw [hlook, Option.bind_eq_some_iff] at hk
    obtain ⟨e₀, hl, he⟩ := hk
    have hshort := h.short k e₀ hl
    unfold polled at he
    split_ifs at he <;> cases he <;> exact hshort

theorem clear_counted (q : Queues K) : q.clear.Counted :=
  ⟨rfl, Nat.zero_le _, Nat.zero_le _, fun k e h => by simp [clear] at h⟩

theorem kept_sublist (keep : ℕ → Bytes → Bool) (packets : List Bytes) :
    ((packets.zipIdx.filter fun p => keep p.2 p.1).map Prod.fst).Sublist packets := by
  have h := (List.filter_sublist (p := fun p => keep p.2 p.1) (l := packets.zipIdx)).map Prod.fst
  rwa [List.zipIdx_map_fst] at h

theorem retainPackets_spec (h : q.Counted) (keep : K → ℕ → Bytes → Bool) : (q.retainPackets keep).Counted ∧
    ∀ k e', (q.retainPackets keep).map.lookup k = some e' → e'.packets ≠ [] ∧ ∃ e, q.map.lookup k = some e ∧
      e'.packets.Sublist e.packets ∧ e'.sent = e.sent ∧ e'.next = e.next := by
  have hlook : ∀ k e', (q.retainPackets keep).map.lookup k = some e' → e'.packets ≠ [] ∧ ∃ e,
    q.map.lookup k = some e ∧
      e'.packets.Sublist e.packets ∧ e'.sent = e.sent ∧ e'.next = e.next := by
    intro k e' hk
    simp only [retainPackets, Table.lookup_retain, Table.lookup_mapEntries, Option.filter_eq_some_iff,
      Option.map_eq_some_iff] at hk
    obtain ⟨⟨e, hl, rfl⟩, hne⟩ := hk
    exact ⟨by simpa using hne, e, hl, kept_sublist (keep k) e.packets, rfl, rfl⟩
  refine ⟨⟨rfl, ?_, ?_, fun k e' hk => ?_⟩, hlook⟩
  · refine le_trans ?_ h.cap
    rw [h.count]
    have htotal := Table.total_retain (f := PendingEntry.size)
      (t := q.map.mapEntries fun ip e =>
        { e with packets := (e.packets.zipIdx.filter fun p => keep ip p.2 p.1).map Prod.fst })
      (p := fun _ e => !e.packets.isEmpty)
    have hle := Table.total_mapEntries_le (t := q.map) (f := PendingEntry.size)
      (g := fun ip e => { e with packets := (e.packets.zipIdx.filter fun p => keep ip p.2 p.1).map Prod.fst })
      fun k e => ((kept_sublist (keep k) e.packets).map List.length).sum_le_sum (by simp)
    simp only [retainPackets]
    omega
  · refine le_trans Table.length_retain_le ?_
    simp only [Table.mapEntries, List.length_map]
    exact h.targets
  · obtain ⟨_, e, hl, hs, _⟩ := hlook k e' hk
    exact hs.length_le.trans (h.short k e hl)

end Queues

end PktKit.Arp
