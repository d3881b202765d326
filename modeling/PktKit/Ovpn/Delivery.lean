import PktKit.Ovpn.Halves

/-! # The control stream is delivered in order

What one end hands up is what the other queued, in order and once, while ids stay below the top of
their 32 bits; near it, the window wraps and packets are refused.
-/

namespace PktKit.Ovpn
open Foundations

variable {e s : Endpoint}

/-- Each end stands against the other, and has sent only what it may. -/
def Sound (l : Link) : Prop := ∀ side, Joined (l.ends side) (l.ends !side) ∧ ∀ data ∈ l.sent side,
    Wired (l.ends side) data

theorem Sound.set {l : Link} (h : Sound l) {side : Bool} {e : Endpoint} {sent : List (List UInt8)}
    (hj : Joined e (l.ends !side)) (hg : Grows (l.ends side) e) (hw : ∀ data ∈ sent, Wired e data) :
    Sound (l.set side (e, sent)) := by
  intro side'
  rcases Bool.eq_or_eq_not side' side with rfl | rfl
  · simp only [Link.set, Function.update_self, Function.update_of_ne (Bool.not_ne_self _)]
    refine ⟨hj, fun data hdata => ?_⟩
    rcases List.mem_append.mp hdata with hdata | hdata
    · exact ((h _).2 data hdata).mono hg.built hg.taken
    · exact hw data hdata
  · simp only [Link.set, Bool.not_not, Function.update_self, Function.update_of_ne (Bool.not_ne_self _)]
    exact ⟨⟨(h _).1.sends, (h _).1.receives, hj.back, hj.out⟩, (h _).2⟩

theorem Joined.owing {l : List ℕ} (h : Joined e s) (hl : l ⊆ e.rel.pendingAck) : Joined (e.owing l) s :=
  ⟨⟨h.sends.counter, h.sends.proper, h.sends.unacked, h.sends.queued⟩, h.receives.owing hl,
    ⟨h.out.next, h.out.buffer, h.out.handed, h.out.acked, h.out.window⟩,
    ⟨h.back.next, h.back.buffer, h.back.handed, h.back.acked, h.back.window⟩⟩

theorem Sound.attach {l : Link} (h : Sound l) {side : Bool} {pkts : List ControlPacket}
    (hj : Joined e (l.ends !side))
    (hg : Grows (l.ends side) e) (hpkts : ∀ p ∈ pkts, p ∈ e.built) : Sound (l.set side (e.attach pkts)) := by
  obtain ⟨acks, hacks, he, hw⟩ := attach_owing hj.receives (List.Subset.refl e.rel.pendingAck) hpkts
  change (e.attach pkts).1 = _ at he
  rw [← Prod.mk.eta (p := e.attach pkts), he]
  refine h.set (hj.owing hacks) ⟨hg.built, hg.taken⟩ fun data hdata => ?_
  exact (hw data hdata).mono (List.prefix_refl _) fun _ ht => ht

theorem Joined.built (h : Joined e s) {r' : Reliable} {pkts : List ControlPacket}
    (hs : Sends { e with rel := r', built := e.built ++ pkts })
      (hc : Crosses { e with rel := r', built := e.built ++ pkts } s)
    (hin : e.rel.SameIn r') (hpending : r'.pendingAck = e.rel.pendingAck) :
    Joined { e with rel := r', built := e.built ++ pkts } s ∧
      Grows e { e with rel := r', built := e.built ++ pkts } := by
  refine ⟨⟨hs, ⟨?_, ?_, h.receives.refused⟩, hc, ⟨?_, ?_, ?_, ?_, ?_⟩⟩, List.prefix_append _ _, fun pid ht =>
    hin.taken.mpr ht⟩
  · intro a ha
    rw [hpending] at ha
    exact ⟨(h.receives.pending a ha).1, hin.taken.mpr (h.receives.pending a ha).2⟩
  · simpa only [hin.inBuf, hin.inCounter] using h.receives.ahead
  · simpa only [hin.inCounter] using h.back.next
  · simpa only [hin.inBuf] using h.back.buffer
  · simpa only [hin.inCounter] using h.back.handed
  · exact fun pid hpid hnone => hin.taken.mpr (h.back.acked pid hpid hnone)
  · simpa only [hin.inCounter] using h.back.window

theorem built_attach {pkts : List ControlPacket} : (e.attach pkts).1.built = e.built := by
  induction pkts generalizing e with
  | nil => rfl
  | cons pkt pkts ih => exact @ih { e with rel := e.rel.takePendingAcks.1 }

theorem built_receive {data : List UInt8} : (e.receive data).built = e.built := by
  unfold Endpoint.receive
  split <;> rfl

theorem built_step {l l' : Link} {ev : Event} (h : l.step ev = some l') (side : Bool) :
    (l.ends side).built <+: (l'.ends side).built := by
  -- one end moves, and what it built it keeps
  have hset : ∀ i (x : Endpoint × List (List UInt8)), (l.ends i).built <+: x.1.built →
      (l.ends side).built <+: ((l.set i x).ends side).built := by
    intro i x hx
    simp only [Link.set, Function.update_apply]
    split
    · next hi => rw [hi]; exact hx
    · exact List.prefix_refl _
  cases ev with
  | queue i data => cases h; exact hset i _ (List.prefix_refl _)
  | flush i clock => cases h; exact hset i _ (by rw [Endpoint.flush, built_attach]; exact List.prefix_append _ _)
  | ack i => cases h; exact hset i _ (List.prefix_refl _)
  | tick i now => cases h; exact hset i _ (List.prefix_refl _)
  | reset i opcode now =>
    simp only [Link.step, Option.ite_none_right_eq_some, Option.some.injEq] at h
    rw [← h.2]
    exact hset i _ (by rw [Endpoint.reset, built_attach]; exact List.prefix_append _ _)
  | deliver i k =>
    obtain ⟨data, -, rfl⟩ := Option.map_eq_some_iff.mp h
    exact hset i _ (by rw [built_receive])

theorem sound_step {l l' : Link} {ev : Event} (h : Sound l) (hstep : l.step ev = some l')
    (hfew : ∀ side, (l'.ends side).built.length ≤ ID_LIMIT) : Sound l' := by
  have hself : ∀ i x, ((l.set i x).ends i) = x.1 := fun i x => Function.update_self ..
  cases ev with
  | queue i data =>
    cases hstep
    obtain ⟨hs, hr, ho, hb⟩ := (h i).1
    refine h.set ⟨⟨hs.counter, hs.proper, hs.unacked, ?_⟩, ⟨hr.pending, hr.ahead, hr.refused⟩,
      ⟨ho.next, ho.buffer, ho.handed, ho.acked, ho.window⟩, ⟨hb.next, hb.buffer, hb.handed, hb.acked, hb.window⟩⟩
      ⟨List.prefix_refl _, fun _ ht => ht⟩ (fun data hdata => (List.not_mem_nil hdata).elim)
    simp [Endpoint.queue, Reliable.queueTls, hs.queued]
  | flush i clock =>
    cases hstep
    have hi := hfew i
    rw [hself, Endpoint.flush, built_attach] at hi
    obtain ⟨hs, hc, hin, hpending⟩ := flushTls_grows (h i).1.sends (h !i).1.receives (h i).1.out hi
    obtain ⟨hj, hg⟩ := (h i).1.built hs hc hin hpending
    exact h.attach hj hg fun p hp => List.mem_append_right _ hp
  | ack i =>
    cases hstep
    have hsub : (l.ends i).rel.pendingAck.drop CONTROL_SEND_ACK_MAX ⊆ (l.ends i).rel.pendingAck :=
      List.drop_subset _ _
    refine h.set ((h i).1.owing hsub) ⟨List.prefix_refl _, fun _ ht => ht⟩ fun data hdata => ?_
    obtain rfl := List.mem_singleton.mp hdata
    exact ((h i).1.receives.wired (List.Subset.refl _) (.inr ⟨rfl, rfl, rfl⟩)).mono
      (List.prefix_refl _) fun _ ht => ht
  | tick i now =>
    cases hstep
    obtain ⟨t, ht, hlookup⟩ := lookup_tick (r := (l.ends i).rel) (l := (l.ends i).rel.due now)
      (f := fun u => { u with attempts := min (u.attempts + 1) (2 ^ 32 - 1), lastSent := now }) (fun u => rfl)
    have htick : ((l.ends i).tick now).1 = { l.ends i with rel := { (l.ends i).rel with unacked := t } } := by
      simp only [Endpoint.tick, Reliable.tick, ht]
    obtain ⟨hs, hr, ho, hb⟩ := (h i).1
    rw [← Prod.mk.eta (p := (l.ends i).tick now), htick]
    refine h.set ⟨hs.retimed hlookup, ⟨hr.pending, hr.ahead, hr.refused⟩, ho.retimed hlookup,
      ⟨hb.next, hb.buffer, hb.handed, hb.acked, hb.window⟩⟩ ⟨List.prefix_refl _, fun _ ht => ht⟩
        fun data hdata => ?_
    exact (tick_wired hs data hdata).mono (List.prefix_refl _) fun _ ht => ht
  | reset i opcode now =>
    simp only [Link.step, Option.ite_none_right_eq_some, Option.some.injEq] at hstep
    obtain ⟨⟨hzero, hop⟩, rfl⟩ := hstep
    obtain ⟨hs, hr, ho, hb⟩ := (h i).1
    have hopcode : opcode ≠ .ACK_V1 ∧ opcode.val < 32 ∧ opcode ≠ .CONTROL_V1 := by
      rcases hop with rfl | rfl | rfl <;> decide
    have hlen : (l.ends i).built.length = 0 := hs.counter.symm.trans hzero
    have hgrown : Sends ((l.ends i).grown opcode [] (l.ends i).rel.held now) :=
      hs.grown (by omega) hopcode.1 hopcode.2.1 (fun _ => hzero) (Nat.zero_le _) (by simp [hopcode.2.2])
    have hcross : Crosses ((l.ends i).grown opcode [] (l.ends i).rel.held now) (l.ends !i) :=
      ho.grown hs (by rw [hlen]; exact Nat.le_add_left 1 _)
    obtain ⟨hj, hg⟩ := (h i).1.built hgrown hcross ⟨rfl, rfl⟩ rfl
    exact h.attach hj hg fun p hp => List.mem_append_right _ hp
  | deliver i k =>
    obtain ⟨data, hk, rfl⟩ := Option.map_eq_some_iff.mp hstep
    have hother : (l.ends !i).built.length ≤ ID_LIMIT := (built_step hstep !i).length_le.trans (hfew !i)
    obtain ⟨hj, hg⟩ := (h i).1.receive (h !i).1.sends hother ((h !i).2 data (List.mem_of_getElem? hk))
    exact h.set hj hg fun data hdata => (List.not_mem_nil hdata).elim

theorem sound_start (localId peerId : Bool → SessionId) (keyId : ℕ) : Sound (.start localId peerId keyId) := by
  have hcross : ∀ side side', Crosses ((Link.start localId peerId keyId).ends side)
      ((Link.start localId peerId keyId).ends side') := by
    intro side side'
    refine ⟨le_rfl, fun pid p hp => ?_, rfl, fun pid hpid => (Nat.not_lt_zero _ hpid).elim, Nat.zero_le _⟩
    cases hp
  refine fun side => ⟨⟨⟨rfl, ?_, ?_, rfl⟩, ⟨?_, ?_, List.not_mem_nil⟩, hcross _ _, hcross _ _⟩, ?_⟩
  · intro i pkt hi
    cases hi
  · intro pid u hu
    cases hu
  · exact fun a ha => (List.not_mem_nil ha).elim
  · intro pid hpid
    cases hpid
  · exact fun data hdata => (List.not_mem_nil hdata).elim

theorem opened_client (client server : SessionId) (now : Instant) :
    (Link.opened client server now).ends false =
      { rel := { localId := client, peerId := server, outCounter := 1, inCounter := 1, pendingAck := [0] }
        built := [((Reliable.new client).buildReset .CONTROL_HARD_RESET_CLIENT_V2 now).2] } := by
  have hparse : ControlPacket.parse ((Link.reply client server).toBytes [0]) =
    .ok ((Link.reply client server).received [0]) := by
    refine parse_toBytes ?_ ?_ ?_ ?_ ?_ <;> simp [Link.reply, Opcode.CONTROL_HARD_RESET_SERVER_V2, Opcode.ACK_V1]
  simp only [Link.opened, Endpoint.receive, Reliable.recv, hparse]
  simp only [Reliable.recvPacket, Reliable.buildReset, Reliable.build, Reliable.new,
    ControlPacket.received, Link.reply,
    List.isEmpty_cons, Bool.false_eq_true, if_false, bne_self_eq_false, Bool.and_false]
  rfl

/-- One packet each way is built and taken, and it was a reset. -/
structure Reset (e : Endpoint) : Prop where
  built : ∃ pkt, e.built = [pkt] ∧ Proper pkt 0 ∧ pkt.opcode ≠ .CONTROL_V1
  counters : e.rel.outCounter = 1 ∧ e.rel.inCounter = 1
  tables : e.rel.unacked = ∅ ∧ e.rel.inBuf = ∅
  pending : e.rel.pendingAck ⊆ [0]
  bytes : e.rel.held = [] ∧ e.queued = [] ∧ e.handed = []
  refused : e.refused = []

theorem Reset.stream (h : Reset e) : stream e.built = [] := by
  obtain ⟨pkt, hpkt, -, hop⟩ := h.built
  simp [hpkt, Ovpn.stream, hop]

theorem Reset.length (h : Reset e) : e.built.length = 1 := by
  obtain ⟨pkt, hpkt, -⟩ := h.built
  rw [hpkt]
  rfl

theorem Reset.taken (h : Reset e) : e.rel.Taken 0 := .inl (by rw [h.counters.2]; exact Nat.one_pos)

theorem Reset.crosses (hs : Reset s) (hr : Reset r) : Crosses s r where
  next := by rw [hr.counters.2, hs.length]
  buffer := by
    intro pid p hp
    rw [hr.tables.2] at hp
    cases hp
  handed := by
    rw [hr.bytes.2.2, hr.counters.2, ← hs.length, List.take_length]
    exact hs.stream.symm
  acked := by
    intro pid hpid _
    rw [hs.length] at hpid
    obtain rfl : pid = 0 := by omega
    exact hr.taken
  window := by rw [hs.length]; exact Nat.le_add_left_of_le (by decide)

theorem Reset.joined (he : Reset e) (hs : Reset s) : Joined e s where
  out := he.crosses hs
  back := hs.crosses he
  receives := by
    refine ⟨fun a ha => ?_, fun pid hpid => ?_, ?_⟩
    · obtain rfl := List.mem_singleton.mp (he.pending ha)
      exact ⟨by decide, he.taken⟩
    · rw [he.tables.2] at hpid
      cases hpid
    · rw [he.refused]
      exact List.not_mem_nil
  sends := by
    refine ⟨he.counters.1.trans he.length.symm, fun i q hi => ?_, fun pid u hu => ?_, ?_⟩
    · obtain ⟨pkt, hpkt, hp, -⟩ := he.built
      rw [hpkt] at hi
      cases i with
      | zero => exact Option.some.inj hi ▸ hp
      | succ i => cases hi
    · rw [he.tables.1] at hu
      cases hu
    · rw [he.bytes.1, he.bytes.2.1, he.stream]
      rfl

theorem proper_reset {opcode : Opcode} (hop : opcode ≠ .ACK_V1) (hsmall : opcode.val < 32)
    {keyId : ℕ} {a b : SessionId} :
    Proper { opcode, keyId, pid := some 0, sessionId := a, remoteId := b } 0 :=
  ⟨rfl, hop, hsmall, fun _ => rfl, Nat.zero_le _⟩

theorem sound_opened (client server : SessionId) (now : Instant) : Sound (.opened client server now) := by
  have hclient : Reset ((Link.opened client server now).ends false) := by
    rw [opened_client]
    exact ⟨⟨_, rfl, proper_reset (by decide) (by decide), (by decide : Opcode.CONTROL_HARD_RESET_CLIENT_V2 ≠ _)⟩,
      ⟨rfl, rfl⟩, ⟨rfl, rfl⟩, List.Subset.refl _,
      ⟨rfl, rfl, rfl⟩, rfl⟩
  have hserver : Reset ((Link.opened client server now).ends true) :=
    ⟨⟨_, rfl, proper_reset (by decide) (by decide), (by decide : Opcode.CONTROL_HARD_RESET_SERVER_V2 ≠ _)⟩,
      ⟨rfl, rfl⟩, ⟨rfl, rfl⟩, List.nil_subset _,
      ⟨rfl, rfl, rfl⟩, rfl⟩
  intro side
  cases side with
  | false =>
    refine ⟨hclient.joined hserver, fun data hdata => ?_⟩
    obtain rfl := List.mem_singleton.mp hdata
    rw [opened_client]
    exact ⟨_, [], rfl, by decide, fun a ha => (List.not_mem_nil ha).elim, .inl (List.mem_singleton_self _)⟩
  | true =>
    refine ⟨hserver.joined hclient, fun data hdata => ?_⟩
    obtain rfl := List.mem_singleton.mp hdata
    refine ⟨_, [0], rfl, by decide, fun a ha => ?_, .inl (List.mem_singleton_self _)⟩
    obtain rfl := List.mem_singleton.mp ha
    exact ⟨by decide, hserver.taken⟩

/-- While the ids of the packets built stay below the limit, the stream of each end is delivered in
order and once. -/
theorem control_stream_delivered {l₀ l : Link} {evs : List Event} (h₀ : l₀.Opens)
    (hrun : Runs.run Link.step l₀ evs = some l) (hfew : ∀ side, (l.ends side).built.length ≤
      ID_LIMIT) (side : Bool) :
    Delivers (l.ends side) (l.ends !side) := by
  have hstart : Sound l₀ := by
    cases h₀ with
    | fresh localId peerId keyId => exact sound_start localId peerId keyId
    | answered client server now => exact sound_opened client server now
  -- few packets built now, few before: the invariant is carried under that condition
  have hsound : (∀ side, (l.ends side).built.length ≤ ID_LIMIT) → Sound l := by
    refine Runs.run_invariant (P := fun l => (∀ side, (l.ends side).built.length ≤ ID_LIMIT) → Sound l) ?_ hrun
      fun _ => hstart
    intro l ev l' ih hstep hfew'
    exact sound_step (ih fun side => (built_step hstep side).length_le.trans (hfew' side)) hstep hfew'
  have hl := hsound hfew
  exact delivers_of_crosses (hl side).1.sends (hl !side).1.receives (hl side).1.out

/-- Two packets arrive the other way round, one of them twice, and the bytes are handed up in order. -/
theorem control_stream_delivered_reordered :
    ∃ l, Runs.run Link.step (.start (fun _ => .zero) (fun _ => .zero) 0)
        [.queue false [1, 2], .flush false (fun _ => 0), .queue false [3], .flush false (fun _ => 0),
          .deliver true 1, .deliver true 0, .deliver true 1, .ack true, .deliver false 0] = some l ∧
      (l.ends true).handed = [1, 2, 3] ∧ Delivers (l.ends false) (l.ends true) := by
  refine Runs.exists_of_any (P := fun l => (l.ends true).handed = [1, 2, 3] ∧
    ∀ side, (l.ends side).built.length ≤ ID_LIMIT) (by decide +kernel) ?_
  rintro l hl ⟨hhanded, hfew⟩
  exact ⟨hhanded, control_stream_delivered (.fresh _ _ _) hl hfew false⟩

/-! ## The end of the ids -/

section LastIds

variable {n m : ℕ}

def single (n : ℕ) : ControlPacket :=
  { opcode := .CONTROL_V1, keyId := 0, pid := some n, sessionId := .zero, remoteId := .zero, payload := [0] }

def bare : ControlPacket := { opcode := .ACK_V1, keyId := 0, sessionId := .zero, remoteId := .zero }

theorem parse_single (hn : n < 2 ^ 32) : ControlPacket.parse ((single n).toBytes []) =
    .ok ((single n).received []) := by
  refine parse_toBytes ?_ ?_ ?_ ?_ ?_ <;> simp [single, Opcode.CONTROL_V1, Opcode.ACK_V1]
  omega

theorem parse_bare (hn : n < 2 ^ 32) : ControlPacket.parse (bare.toBytes [n]) = .ok (bare.received [n]) := by
  refine parse_toBytes ?_ ?_ ?_ ?_ ?_ <;> simp [bare, Opcode.ACK_V1]
  omega

theorem flush_single (he : e.rel = { localId := .zero, outCounter := n }) (hn : n + 1 < 2 ^ 32) :
    ∃ u, ((e.queue [0]).flush fun _ => 0).1.rel =
        { localId := .zero, outCounter := n + 1, unacked := AList.insert n u ∅ } ∧
      ((e.queue [0]).flush fun _ => 0).2 = [(single n).toBytes []] := by
  have hflush : Reliable.flushTls (fun _ => 0) 1 { localId := .zero, outCounter := n, held := [0] } =
      ({ localId := .zero, outCounter := (n + 1) % 2 ^ 32, unacked := AList.insert n ⟨single n, 0, 1⟩ ∅ },
        [single n]) := rfl
  refine ⟨⟨single n, 0, 1⟩, ?_, ?_⟩ <;>
    simp only [Endpoint.flush, Endpoint.queue, Reliable.queueTls, he, List.nil_append,
      List.length_singleton, hflush,
      Nat.mod_eq_of_lt hn]
  · rfl
  · rfl

theorem check_single {r : Reliable} (hr : r.inCounter = n) :
    r.check ((single n).received []) = if (n + 12) % 2 ^ 32 ≤ n then .error .window else .ok (some n) := by
  have hop : Opcode.CONTROL_V1 ≠ Opcode.ACK_V1 := by decide
  have hreset : Reliable.isReset Opcode.CONTROL_V1 = false := rfl
  have hsize : ¬ [(0 : UInt8)].length > MAX_CONTROL_PAYLOAD := by decide
  simp only [Reliable.check, ControlPacket.received, single, hr, hop, hreset, if_false, bind,
    Except.bind, Bool.false_and,
    Bool.false_eq_true, Option.any_some, decide_eq_true_eq, hsize, TLS_RELIABLE_N_REC_BUFFERS]
  split <;> rfl

theorem erase_insert_empty {ν : Type} {v : ν} : (AList.insert n v (∅ : Table ℕ ν)).erase n = ∅ := by
  apply AList.ext
  simp [AList.insert, AList.erase]

theorem accept_single :
    Reliable.accept { localId := .zero, inCounter := n } ((single n).received []) n =
      ({ localId := .zero, inCounter := (n + 1) % 2 ^ 32, pendingAck := [n] }, [0]) := by
  have hpre : (Reliable.owe { localId := .zero, inCounter := n } n).learnPeer ((single n).received []) =
      { localId := .zero, inCounter := n, pendingAck := [n] } := rfl
  have hstore : Reliable.store { localId := .zero, inCounter := n, pendingAck := [n] } n ((single n).received []) =
      { localId := .zero, inCounter := n, pendingAck := [n], inBuf := AList.insert n ((single n).received []) ∅ } := rfl
  unfold Reliable.accept
  rw [hpre]
  simp only [lt_irrefl, if_false, hstore]
  change Reliable.drain 1 _ = _
  rw [Reliable.drain]
  simp only [AList.lookup_insert, erase_insert_empty]
  rfl

theorem receive_single (he : e.rel = { localId := .zero, inCounter := n }) (hn : n < 2 ^ 32 - 12) :
    (e.receive ((single n).toBytes [])).rel = { localId := .zero, inCounter := n + 1, pendingAck := [n] } := by
  have hwindow : ¬ (n + 12) % 2 ^ 32 ≤ n := by omega
  have hcheck : (Reliable.mk .zero .zero 0 0 ∅ [] n ∅ []).check ((single n).received []) = .ok (some n) :=
    (check_single rfl).trans (if_neg hwindow)
  have hrecv : Reliable.recvPacket { localId := .zero, inCounter := n } ((single n).received []) =
      ({ localId := .zero, inCounter := (n + 1) % 2 ^ 32, pendingAck := [n] }, .ok [0]) := by
    have hpurge : Reliable.purge { localId := .zero, inCounter := n } ((single n).received []).ackedPids =
      { localId := .zero, inCounter := n } := rfl
    unfold Reliable.recvPacket
    rw [if_neg (by simp [ControlPacket.received])]
    simp only [hpurge, hcheck, accept_single]
  simp only [Endpoint.receive, Reliable.recv, he, parse_single (show n < 2 ^ 32 by omega), hrecv,
    Nat.mod_eq_of_lt (show n + 1 < 2 ^ 32 by omega)]

theorem receive_bare {u : Unacked} (hn : n < 2 ^ 32)
    (he : e.rel = { localId := .zero, outCounter := m, unacked := AList.insert n u (∅ : Table ℕ Unacked) }) :
    (e.receive (bare.toBytes [n])).rel = { localId := .zero, outCounter := m } := by
  have hrecv : Reliable.recvPacket { localId := .zero, outCounter := m, unacked := AList.insert n u ∅ }
    (bare.received [n]) =
      ({ localId := .zero, outCounter := m, unacked := (AList.insert n u (∅ : Table ℕ Unacked)).erase n },
        .ok []) := rfl
  simp only [Endpoint.receive, Reliable.recv, he, parse_bare hn, hrecv, erase_insert_empty]

/-- A packet at the end of the ids is refused: the window behind it wraps. -/
theorem refused_single (he : e.rel = { localId := .zero, inCounter := n }) (hn : n = 2 ^ 32 - 12) :
    Refusal.window ∈ (e.receive ((single n).toBytes [])).refused := by
  have hcheck : (Reliable.mk .zero .zero 0 0 ∅ [] n ∅ []).check ((single n).received []) = .error .window := by
    have hwrap : (n + 12) % 2 ^ 32 ≤ n := by omega
    exact (check_single rfl).trans (if_pos hwrap)
  have hpurge : Reliable.purge { localId := .zero, inCounter := n } ((single n).received []).ackedPids =
    { localId := .zero, inCounter := n } := rfl
  have hrecv : Reliable.recvPacket { localId := .zero, inCounter := n } ((single n).received []) =
      ({ localId := .zero, inCounter := n }, .error .window) := by
    unfold Reliable.recvPacket
    rw [if_neg (by simp [ControlPacket.received])]
    simp only [hpurge, hcheck]
  simp only [Endpoint.receive, Reliable.recv, he, parse_single (show n < 2 ^ 32 by omega), hrecv]
  exact List.mem_append_right _ (List.mem_singleton_self _)

/-- All that was sent so far is taken and acknowledged. -/
structure Idle (n : ℕ) (l : Link) : Prop where
  sender : (l.ends false).rel = { localId := .zero, outCounter := n }
  receiver : (l.ends true).rel = { localId := .zero, inCounter := n }

theorem Idle.send {l : Link} (h : Idle n l) (hn : n + 1 < 2 ^ 32) :
    ∃ (l' : Link) (u : Unacked) (k : ℕ), Runs.run Link.step l
      [.queue false [0], .flush false fun _ => 0] = some l' ∧
      (l'.ends false).rel = { localId := .zero, outCounter := n + 1, unacked := AList.insert n u (∅ : Table ℕ Unacked) } ∧
      (l'.ends true).rel = { localId := .zero, inCounter := n } ∧ (l'.sent false)[k]? =
        some ((single n).toBytes []) := by
  obtain ⟨u, hrel, hsent⟩ := flush_single h.sender hn
  refine ⟨_, u, (l.sent false).length, rfl, ?_, ?_, ?_⟩
  · simpa [Link.set] using hrel
  · simpa [Link.set] using h.receiver
  · simp [Link.set, hsent]

theorem Idle.round {l : Link} (h : Idle n l) (hn : n < 2 ^ 32 - 12) :
    ∃ evs l', Runs.run Link.step l evs = some l' ∧ Idle (n + 1) l' := by
  obtain ⟨l₁, u, k, hrun, hsender, hreceiver, hk⟩ := h.send (by omega)
  have hdeliver : l₁.step (.deliver true k) = some (l₁.set true
    ((l₁.ends true).receive ((single n).toBytes []), [])) := by
    simp [Link.step, hk]
  set l₂ := l₁.set true ((l₁.ends true).receive ((single n).toBytes []), []) with hl₂
  have htaken : (l₂.ends true).rel = { localId := .zero, inCounter := n + 1, pendingAck := [n] } := by
    simpa [hl₂, Link.set] using receive_single hreceiver hn
  have hack : (l₂.ends true).ack = ({ l₂.ends true with rel := { localId := .zero, inCounter := n + 1 } },
    [bare.toBytes [n]]) := by
    simp only [Endpoint.ack, htaken]
    rfl
  set l₃ := l₂.set true (l₂.ends true).ack with hl₃
  have hstep : l₂.step (.ack true) = some l₃ := rfl
  have hback : l₃.step (.deliver false (l₂.sent true).length) =
      some (l₃.set false ((l₃.ends false).receive (bare.toBytes [n]), [])) := by
    simp [Link.step, hl₃, Link.set, hack]
  refine ⟨_, _, Runs.run_append.mpr ⟨l₁, hrun, Runs.run_cons.mpr ⟨l₂, hdeliver, Runs.run_cons.mpr ⟨l₃, hstep,
    Runs.run_cons.mpr ⟨_, hback, Runs.run_nil⟩⟩⟩⟩, ?_, ?_⟩
  · have hwaiting : (l₃.ends false).rel =
        { localId := .zero, outCounter := n + 1, unacked := AList.insert n u (∅ : Table ℕ Unacked) } := by
      simpa [hl₃, hl₂, Link.set] using hsender
    simpa [Link.set] using receive_bare (by omega) hwaiting
  · simp [Link.set, hl₃, hack]

theorem exists_idle (hn : n ≤ 2 ^ 32 - 12) :
    ∃ evs l, Runs.run Link.step (.start (fun _ => .zero) (fun _ => .zero) 0) evs = some l ∧ Idle n l := by
  induction n with
  | zero => exact ⟨[], _, rfl, rfl, rfl⟩
  | succ n ih =>
    obtain ⟨evs, l, hrun, hidle⟩ := ih (by omega)
    obtain ⟨evs', l', hrun', hidle'⟩ := hidle.round (by omega)
    exact ⟨evs ++ evs', l', Runs.run_append.mpr ⟨l, hrun, hrun'⟩, hidle'⟩

end LastIds

/-- After enough packets, the next one in order is refused as outside the window. -/
theorem next_packet_refused :
    ∃ evs l, Runs.run Link.step (.start (fun _ => .zero) (fun _ => .zero) 0) evs = some l ∧
      ¬ Delivers (l.ends false) (l.ends true) := by
  obtain ⟨evs, l, hrun, hidle⟩ := exists_idle (n := 2 ^ 32 - 12) le_rfl
  obtain ⟨l₁, u, k, hrun₁, -, hreceiver, hk⟩ := hidle.send (by norm_num)
  have hdeliver : l₁.step (.deliver true k) =
      some (l₁.set true ((l₁.ends true).receive ((single (2 ^ 32 - 12)).toBytes []), [])) := by
    simp only [Link.step, Bool.not_true, hk, Option.map_some]
  refine ⟨_, _, Runs.run_append.mpr ⟨l, hrun, Runs.run_append.mpr
    ⟨l₁, hrun₁, Runs.run_cons.mpr ⟨_, hdeliver, Runs.run_nil⟩⟩⟩, ?_⟩
  intro hd
  refine hd.refused ?_
  simpa only [Link.set, Function.update_self] using refused_single hreceiver rfl

end PktKit.Ovpn
