import PktKit.Arp.Accounts

/-! # Runs of the queues

Any sequence of operations on the queues, with the packets offered for each target and the times a solicitation was
asked for within the resolution under way.
-/

namespace PktKit.Arp
open Foundations Foundations.Runs

inductive Op (K : Type)
  | enqueueAt (order : Queues K → ℕ) (ip : K) (pkt : Bytes) (now : Instant)
  | poll (now : Instant)
  | drain (ip : K)
  | pin (ip : Option K)
  | retainPackets (keep : K → ℕ → Bytes → Bool)
  | clear

/-- The queues, the packets ever offered for each target, and the solicitations of each resolution under way. -/
structure Trace (K : Type) where
  queues : Queues K := {}
  offered : K → List Bytes := fun _ => []
  asked : K → List Instant := fun _ => []

variable {K : Type} [DecidableEq K]

namespace Trace

/-- The solicitations of each resolution after an operation: a resolution ends with its queue, and a failed one that
takes a packet starts over. -/
def asks (t : Trace K) (q' : Queues K) (restarts : K → Bool) (now : K → List Instant) (k : K) :
    List Instant :=
  if q'.map.lookup k = none then []
  else (if t.queues.map.lookup k = none ∨ restarts k then [] else t.asked k) ++ now k

/-- Whether a target is to be solicited again. -/
def resolicits (due : List (PendingEvent K)) (k : K) : Bool :=
  due.any fun
    | .resolicit ip => ip = k
    | .failed _ _ => false

def step (t : Trace K) : Op K → Option (Trace K)
  | .enqueueAt order ip pkt now => (t.queues.enqueueAt order ip pkt now).map fun r =>
    { queues := r.1
      offered := Function.update t.offered ip (t.offered ip ++ [pkt])
      asked := t.asks r.1 (fun k => decide (k = ip) && r.2.isSome && (t.queues.map.lookup k).any (·.failed now))
        fun k => if k = ip ∧ r.2 = some true then [now] else [] }
  | .poll now => (t.queues.poll now).map fun r =>
    { t with queues := r.1, asked := t.asks r.1 (fun _ => false) fun k => if resolicits r.2 k then [now] else [] }
  | .drain ip => (t.queues.drain ip).map fun r =>
    { t with queues := r.1, asked := t.asks r.1 (fun _ => false) fun _ => [] }
  | .pin ip => some { t with queues := { t.queues with pinned := ip } }
  | .retainPackets keep =>
    some { t with
      queues := t.queues.retainPackets keep
      asked := t.asks (t.queues.retainPackets keep) (fun _ => false) fun _ => [] }
  | .clear => some { t with queues := t.queues.clear, asked := t.asks t.queues.clear (fun _ => false) fun _ => [] }

/-- A resolution that has asked for its solicitations in time. -/
structure Solicited (asked : List Instant) (e : PendingEntry) : Prop where
  sent : asked.length = e.sent
  most : e.sent ≤ MAX_MULTICAST_SOLICIT
  next : ∀ a ∈ asked, a + RETRANS_TIMER ≤ e.next
  apart : asked.Pairwise fun a b => a + RETRANS_TIMER ≤ b

theorem Solicited.first (now : Instant) (packets : List Bytes) :
    Solicited [now] ⟨packets, 1, now + RETRANS_TIMER⟩ :=
  ⟨rfl, Nat.le_of_ble_eq_true rfl, by simp, List.pairwise_singleton _ _⟩

theorem Solicited.again {asked : List Instant} {e : PendingEntry} {now : Instant} (h : Solicited asked e)
    (hs : e.sent < MAX_MULTICAST_SOLICIT) (hn : e.next ≤ now) (packets : List Bytes) :
    Solicited (asked ++ [now]) ⟨packets, e.sent + 1, now + RETRANS_TIMER⟩ := by
  refine ⟨by simp [h.sent], hs, fun a ha => ?_, ?_⟩
  · rcases List.mem_append.mp ha with ha | ha
    · exact (h.next a ha).trans (hn.trans (Nat.le_add_right _ _))
    · rw [List.mem_singleton.mp ha]
  · rw [List.pairwise_append]
    refine ⟨h.apart, List.pairwise_singleton _ _, fun a ha b hb => ?_⟩
    rw [List.mem_singleton.mp hb]
    exact (h.next a ha).trans hn

theorem Solicited.congr {asked : List Instant} {e e' : PendingEntry} (h : Solicited asked e)
    (hs : e'.sent = e.sent)
    (hn : e'.next = e.next) : Solicited asked e' :=
  ⟨h.sent.trans hs.symm, hs ▸ h.most, hn ▸ h.next, h.apart⟩

structure Sound (t : Trace K) : Prop where
  counted : t.queues.Counted
  filled : ∀ k e, t.queues.map.lookup k = some e → e.packets ≠ []
  order : ∀ k e, t.queues.map.lookup k = some e → e.packets.Sublist (t.offered k)
  solicited : ∀ k e, t.queues.map.lookup k = some e → Solicited (t.asked k) e
  idle : ∀ k, t.queues.map.lookup k = none → t.asked k = []

variable {t : Trace K} {q' : Queues K} {restarts : K → Bool} {now : K → List Instant} {k : K}

theorem asks_none (h : q'.map.lookup k = none) : t.asks q' restarts now k = [] := if_pos h

theorem asks_kept {e e' : PendingEntry} (h : t.queues.map.lookup k = some e) (h' : q'.map.lookup k = some e')
    (ho : restarts k = false) : t.asks q' restarts now k = t.asked k ++ now k := by
  rw [asks, if_neg (by rw [h']; simp), if_neg (by simp [h, ho])]

/-- Operations that only drop packets and solicit nobody. -/
theorem Sound.of_kept (h : t.Sound) (hc : q'.Counted) (hk : ∀ k e', q'.map.lookup k = some e' → e'.packets ≠ [] ∧
      ∃ e, t.queues.map.lookup k = some e ∧ e'.packets.Sublist e.packets ∧ e'.sent = e.sent ∧ e'.next = e.next) :
    Sound { t with queues := q', asked := t.asks q' (fun _ => false) fun _ => [] } where
  counted := hc
  filled k e' hl := (hk k e' hl).1
  order k e' hl := by
    obtain ⟨_, e, hl₀, hs, _⟩ := hk k e' hl
    exact hs.trans (h.order k e hl₀)
  solicited k e' hl := by
    obtain ⟨_, e, hl₀, _, hsent, hnext⟩ := hk k e' hl
    dsimp only
    rw [asks_kept hl₀ hl rfl, List.append_nil]
    exact (h.solicited k e hl₀).congr hsent hnext
  idle k hl := by
    dsimp only at hl ⊢
    exact asks_none hl

theorem resolicits_due {q : Queues K} {now : Instant} : resolicits
    (q.map.entries.filterMap (Queues.due now)) k = true ↔
    ∃ e, q.map.lookup k = some e ∧ e.next ≤ now ∧ e.sent < MAX_MULTICAST_SOLICIT := by
  rw [resolicits, List.any_eq_true]
  constructor
  · rintro ⟨ev, hev, hk⟩
    obtain ⟨⟨ip, e⟩, hmem, hd⟩ := List.mem_filterMap.mp hev
    simp only [Queues.due] at hd
    split_ifs at hd with hn hs
    · cases hd
      obtain rfl : ip = k := by simpa using hk
      exact ⟨e, Table.lookup_eq_some.mpr hmem, not_lt.mp hn, hs⟩
    · cases hd
      simp at hk
  · rintro ⟨e, hl, hn, hs⟩
    refine ⟨.resolicit k, List.mem_filterMap.mpr ⟨⟨k, e⟩, Table.lookup_eq_some.mp hl, ?_⟩, by simp⟩
    rw [Queues.due, if_neg (not_lt.mpr hn), if_pos hs]

theorem Sound.poll (h : t.Sound) (now : Instant) : ∃ t', t.step (.poll now) = some t' ∧ t'.Sound := by
  obtain ⟨q', hp, hc, hlook⟩ := Queues.poll_spec h.counted now
  have hstays : ∀ k e', q'.map.lookup k = some e' → ∃ e, t.queues.map.lookup k = some e ∧
    Queues.polled now e = some e' := by
    intro k e' hl
    rwa [hlook, Option.bind_eq_some_iff] at hl
  have hpackets : ∀ e e', Queues.polled now e = some e' → e'.packets = e.packets := by
    intro e e' he
    unfold Queues.polled at he
    split_ifs at he <;> cases he <;> rfl
  refine ⟨{ t with
    queues := q'
    asked := t.asks q' (fun _ => false) fun k =>
      if resolicits (t.queues.map.entries.filterMap (Queues.due now)) k then [now] else [] }, by
        rw [step, hp]; rfl, hc,
    fun k e' hl => ?_, fun k e' hl => ?_, fun k e' hl => ?_, fun k hl => by dsimp only at hl ⊢; exact asks_none hl⟩
  · obtain ⟨e, hl₀, he⟩ := hstays k e' hl
    rw [hpackets e e' he]
    exact h.filled k e hl₀
  · obtain ⟨e, hl₀, he⟩ := hstays k e' hl
    rw [hpackets e e' he]
    exact h.order k e hl₀
  · obtain ⟨e, hl₀, he⟩ := hstays k e' hl
    have hsol := h.solicited k e hl₀
    dsimp only
    rw [asks_kept hl₀ hl rfl]
    unfold Queues.polled at he
    split_ifs at he with hn hs
    · cases he
      have hno : ¬ resolicits (t.queues.map.entries.filterMap (Queues.due now)) k = true := by
        rw [resolicits_due]
        rintro ⟨e', hl', hn', _⟩
        rw [hl₀] at hl'
        cases hl'
        exact absurd hn (not_lt.mpr hn')
      rw [if_neg hno, List.append_nil]
      exact hsol
    · cases he
      rw [if_pos (resolicits_due.mpr ⟨e, hl₀, not_lt.mp hn, hs⟩)]
      exact hsol.again hs (not_lt.mp hn) _

/-- The queues of other targets after a packet was offered. -/
theorem Sound.sheds (h : t.Sound) {ip : K} (hs : Sheds ip t.queues q') {k : K} {e' : PendingEntry} (hk : k ≠ ip)
    (hl : q'.map.lookup k = some e') : ∃ e, t.queues.map.lookup k = some e ∧ e'.packets.Sublist (t.offered k) ∧
      Solicited (t.asked k) e' := by
  obtain ⟨e, hl₀, ht⟩ := hs.other k e' hk hl
  exact ⟨e, hl₀, ht.packets.sublist.trans (h.order k e hl₀), (h.solicited k e hl₀).congr ht.sent ht.next⟩

theorem Sound.refused (h : t.Sound) {ip : K} {pkt : Bytes} {time : Instant} {now : K → List Instant}
    (hr : Queues.Refused ip pkt time t.queues q') (hn : ∀ k, restarts k = false) (hnow : ∀ k, now k = []) :
    Sound ⟨q', Function.update t.offered ip (t.offered ip ++ [pkt]), t.asks q' restarts now⟩ := by
  have hkept : ∀ k e', q'.map.lookup k = some e' → ∃ e, t.queues.map.lookup k = some e ∧
      e'.packets.Sublist (t.offered k) ∧ Solicited (t.asked k) e' := by
    intro k e' hl
    by_cases hk : k = ip
    · subst hk
      have hl₀ := hr.own e' hl
      exact ⟨e', hl₀, h.order _ e' hl₀, h.solicited _ e' hl₀⟩
    · exact h.sheds hr.sheds hk hl
  refine ⟨hr.counted, hr.filled, fun k e' hl => ?_, fun k e' hl => ?_, fun k hl => ?_⟩
  · obtain ⟨_, _, hs, _⟩ := hkept k e' hl
    dsimp only
    by_cases hk : k = ip
    · subst hk
      rw [Function.update_self]
      exact hs.trans (List.sublist_append_left _ _)
    · rwa [Function.update_of_ne hk]
  · obtain ⟨e, hl₀, _, hsol⟩ := hkept k e' hl
    dsimp only
    rw [asks_kept hl₀ hl (hn k), hnow, List.append_nil]
    exact hsol
  · dsimp only at hl ⊢
    exact asks_none hl

theorem joins_sublist {pkt : Bytes} {time : Instant} {old : Option PendingEntry} {e' : PendingEntry}
    {solicit : Bool}
    (hj : Queues.Joins pkt time old e' solicit) {l : List Bytes} (hl : ∀ e, old = some e → e.packets.Sublist l) :
    e'.packets.Sublist (l ++ [pkt]) := by
  cases hj with
  | fresh h => exact List.sublist_append_right _ _
  | due h hk hn => exact (hk.sublist.trans (hl _ rfl)).append (.refl _)
  | more h hk hn => exact (hk.sublist.trans (hl _ rfl)).append (.refl _)

/-- A resolution that takes a packet: a new one asks at once, one under way when its timer has run out. -/
theorem joins_solicited {pkt : Bytes} {time : Instant} {old : Option PendingEntry} {e' : PendingEntry}
    {solicit : Bool}
    (hj : Queues.Joins pkt time old e' solicit) {asked : List Instant}
      (hs : ∀ e, old = some e → Solicited asked e) :
    Solicited ((if old = none ∨ old.any (·.failed time) then [] else asked)
      ++ if solicit then [time] else []) e' := by
  cases hj with
  | fresh h =>
    have hover : old = none ∨ old.any (·.failed time) = true := by
      cases old with
      | none => exact .inl rfl
      | some e => exact .inr (h e rfl)
    rw [if_pos hover]
    exact .first time _
  | @due e kept h hk hn =>
    have hsent : e.sent < MAX_MULTICAST_SOLICIT := by
      by_contra hs
      simp [PendingEntry.failed, not_lt.mp hs, hn] at h
    rw [if_neg (by simp [h])]
    exact (hs e rfl).again hsent hn _
  | @more e kept h hk hn =>
    rw [if_neg (by simp [h]), if_neg (by simp), List.append_nil]
    exact (hs e rfl).congr rfl rfl

theorem Sound.queued (h : t.Sound) {ip : K} {pkt : Bytes} {time : Instant} {solicit : Bool}
    (hq : Queues.Queued ip pkt time t.queues q' solicit) :
    Sound ⟨q', Function.update t.offered ip (t.offered ip ++ [pkt]),
      t.asks q' (fun k => decide (k = ip) && (t.queues.map.lookup k).any (·.failed time))
        fun k => if k = ip ∧ solicit = true then [time] else []⟩ := by
  obtain ⟨e', hl', hj⟩ := hq.joins
  refine ⟨hq.counted, hq.filled, fun k e hl => ?_, fun k e hl => ?_,
    fun k hl => by dsimp only at hl ⊢; exact asks_none hl⟩
  · dsimp only at hl ⊢
    by_cases hk : k = ip
    · subst hk
      rw [hl'] at hl
      cases hl
      rw [Function.update_self]
      exact joins_sublist hj (h.order k)
    · rw [Function.update_of_ne hk]
      obtain ⟨_, _, hs, _⟩ := h.sheds hq.sheds hk hl
      exact hs
  · dsimp only at hl ⊢
    by_cases hk : k = ip
    · subst hk
      rw [hl'] at hl
      cases hl
      have hsol := joins_solicited hj (h.solicited k)
      simpa [asks, hl'] using hsol
    · obtain ⟨e₀, hl₀, _, hsol⟩ := h.sheds hq.sheds hk hl
      rw [asks_kept hl₀ hl (by simp [hk]), if_neg (by simp [hk]), List.append_nil]
      exact hsol

theorem Sound.enqueueAt (h : t.Sound) (order : Queues K → ℕ) (ip : K) (pkt : Bytes) (now : Instant) :
    ∃ t', t.step (.enqueueAt order ip pkt now) = some t' ∧ t'.Sound := by
  obtain ⟨q', r, hq, hr⟩ := Queues.enqueueAt_spec h.counted h.filled order ip pkt now
  refine ⟨_, by rw [step, hq]; rfl, ?_⟩
  cases r with
  | none => exact h.refused hr (by simp) (by simp)
  | some solicit =>
    have hs := h.queued hr
    simpa using hs

theorem Sound.step (h : t.Sound) (op : Op K) : ∃ t', t.step op = some t' ∧ t'.Sound := by
  cases op with
  | enqueueAt order ip pkt now => exact h.enqueueAt order ip pkt now
  | poll now => exact h.poll now
  | drain ip =>
    obtain ⟨q', packets, hd, hc, hlook⟩ := Queues.drain_spec h.counted ip
    refine ⟨_, by rw [Trace.step, hd]; rfl, h.of_kept hc fun k e' hl => ?_⟩
    rw [hlook] at hl
    split at hl
    · cases hl
    · exact ⟨h.filled k e' hl, e', hl, .refl _, rfl, rfl⟩
  | pin ip =>
    exact ⟨_, rfl, ⟨h.counted.count, h.counted.cap, h.counted.targets, h.counted.short⟩, h.filled, h.order,
      h.solicited, h.idle⟩
  | retainPackets keep =>
    obtain ⟨hc, hlook⟩ := Queues.retainPackets_spec h.counted keep
    exact ⟨_, rfl, h.of_kept hc hlook⟩
  | clear => exact ⟨_, rfl, h.of_kept (Queues.clear_counted _) fun k e' hl => by simp [Queues.clear] at hl⟩

theorem sound_empty : ({} : Trace K).Sound := by
  refine ⟨Queues.clear_counted {}, ?_, ?_, ?_, fun _ _ => rfl⟩ <;>
    exact fun k e h => by simp at h

theorem Sound.run (h : t.Sound) (ops : List (Op K)) : ∃ t', Runs.run Trace.step t ops = some t' ∧ t'.Sound := by
  induction ops generalizing t with
  | nil => exact ⟨t, rfl, h⟩
  | cons op ops ih =>
    obtain ⟨t₁, hstep, h₁⟩ := h.step op
    obtain ⟨t', hrun, h'⟩ := ih h₁
    exact ⟨t', run_cons.mpr ⟨t₁, hstep, hrun⟩, h'⟩

end Trace

end PktKit.Arp
