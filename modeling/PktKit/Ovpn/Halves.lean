import PktKit.Ovpn.Link

/-! # The two halves of an end

What holds of the packets an end builds, of those it takes, and between the packets of one end and
what the other has taken; and how sending and receiving keep it.
-/

namespace PktKit.Ovpn
open Foundations

def stream (pkts : List ControlPacket) : List UInt8 :=
  pkts.flatMap fun p => if p.opcode = .CONTROL_V1 then p.payload else []

structure Proper (pkt : ControlPacket) (i : ℕ) : Prop where
  pid : pkt.pid = some i
  opcode : pkt.opcode ≠ .ACK_V1
  small : pkt.opcode.val < 32
  first : Reliable.isReset pkt.opcode → i = 0
  payload : pkt.payload.length ≤ CONTROL_CHANNEL_MTU

/-- The sending half of an end: ids count the packets built, which hold what is no longer held back. -/
structure Sends (e : Endpoint) : Prop where
  counter : e.rel.outCounter = e.built.length
  proper : ∀ i pkt, e.built[i]? = some pkt → Proper pkt i
  unacked : ∀ pid u, e.rel.unacked.lookup pid = some u → e.built[pid]? = some u.pkt
  queued : e.queued = stream e.built ++ e.rel.held

/-- The receiving half: it acknowledges what it has taken, and what waits is ahead of what is next. -/
structure Receives (e : Endpoint) : Prop where
  pending : ∀ a ∈ e.rel.pendingAck, a < 2 ^ 32 ∧ e.rel.Taken a
  ahead : ∀ pid, (e.rel.inBuf.lookup pid).isSome →
    e.rel.inCounter < pid ∧ pid < e.rel.inCounter + TLS_RELIABLE_N_REC_BUFFERS
  refused : Refusal.window ∉ e.refused

/-- A datagram of an end: a packet it built or a bare acknowledgement, of packets it has taken. -/
def Wired (e : Endpoint) (data : List UInt8) : Prop :=
  ∃ (pkt : ControlPacket) (acks : List ℕ), data = pkt.toBytes acks ∧ acks.length ≤ CONTROL_SEND_ACK_MAX ∧
    (∀ a ∈ acks, a < 2 ^ 32 ∧ e.rel.Taken a) ∧
    (pkt ∈ e.built ∨ (pkt.opcode = .ACK_V1 ∧ pkt.pid = none ∧ pkt.payload = []))

/-- The sending half of one end and the receiving half of the other. -/
structure Crosses (s r : Endpoint) : Prop where
  next : r.rel.inCounter ≤ s.built.length
  buffer : ∀ pid p, r.rel.inBuf.lookup pid = some p →
    ∃ b, s.built[pid]? = some b ∧ p.opcode = b.opcode ∧ p.payload = b.payload
  handed : r.handed = stream (s.built.take r.rel.inCounter)
  acked : ∀ pid < s.built.length, s.rel.unacked.lookup pid = none → r.rel.Taken pid
  window : s.built.length ≤ r.rel.inCounter + TLS_RELIABLE_N_REC_BUFFERS

variable {e e' s r : Endpoint} {pkt : ControlPacket} {pid : ℕ}

theorem stream_append {l l' : List ControlPacket} : stream (l ++ l') = stream l ++ stream l' := List.flatMap_append

theorem Receives.not_waiting (h : Receives r) : r.rel.inBuf.lookup r.rel.inCounter = none := by
  by_contra hne
  have hahead := (h.ahead _ (Option.isSome_iff_ne_none.mpr hne)).1
  omega

/-- What is waiting fits in the window behind what is next. -/
theorem Receives.buffered (h : Receives r) : r.rel.inBuf.entries.length ≤ TLS_RELIABLE_N_REC_BUFFERS - 1 := by
  have hkeys : r.rel.inBuf.keys ⊆ List.range' (r.rel.inCounter + 1) (TLS_RELIABLE_N_REC_BUFFERS - 1) := by
    intro pid hpid
    have hahead := h.ahead pid (AList.lookup_isSome.mpr (AList.mem_keys.mpr hpid))
    rw [List.mem_range'_1]
    have hn : TLS_RELIABLE_N_REC_BUFFERS = 12 := rfl
    omega
  have hle := (List.subperm_of_subset r.rel.inBuf.keys_nodup hkeys).length_le
  rwa [List.length_range', Table.length_eq_of_perm (.refl _)] at hle

/-- If all packets before an id are taken, it is not before what is next. -/
theorem Receives.le_inCounter (h : Receives r) {n : ℕ} (hn : ∀ pid < n, r.rel.Taken pid) :
    n ≤ r.rel.inCounter := by
  by_contra hlt
  rcases hn r.rel.inCounter (by omega) with hc | hc
  · omega
  · rw [h.not_waiting] at hc
    cases hc

theorem delivers_of_crosses (hs : Sends s) (hr : Receives r) (h : Crosses s r) : Delivers s r where
  handed := by
    rw [h.handed, hs.queued]
    refine List.IsPrefix.trans ?_ (List.prefix_append _ _)
    conv_rhs => rw [← List.take_append_drop r.rel.inCounter s.built, stream_append]
    exact List.prefix_append _ _
  acked := h.acked
  refused := hr.refused
  buffered := hr.buffered

/-! ## Sending -/

theorem Wired.mono {data : List UInt8} (hb : e.built <+: e'.built) (ht : ∀ pid, e.rel.Taken pid → e'.rel.Taken pid)
    (h : Wired e data) : Wired e' data := by
  obtain ⟨pkt, acks, hdata, hlen, hacks, hpkt⟩ := h
  refine ⟨pkt, acks, hdata, hlen, fun a ha => ⟨(hacks a ha).1, ht a (hacks a ha).2⟩, hpkt.imp ?_ id⟩
  exact fun hmem => hb.subset hmem

theorem Sends.getElem?_build (hs : Sends e) : (e.built ++ [pkt])[pid]? =
    if pid = e.rel.outCounter then some pkt else e.built[pid]? := by
  rw [hs.counter]
  split
  · next h => rw [h, List.getElem?_concat_length]
  · next h =>
    rcases lt_or_gt_of_ne h with hlt | hgt
    · rw [List.getElem?_append_left hlt]
    · rw [List.getElem?_eq_none (by simp; omega), List.getElem?_eq_none (by omega)]

/-- An end after it builds a packet. -/
def Endpoint.grown (e : Endpoint) (opcode : Opcode) (payload held : List UInt8) (now : Instant) : Endpoint :=
  { e with
    rel := (Reliable.build { e.rel with held } opcode payload now).1
    built := e.built ++ [(Reliable.build { e.rel with held } opcode payload now).2] }

section Build

variable {opcode : Opcode} {payload held : List UInt8} {now : Instant}

theorem Sends.grown (hs : Sends e) (hlt : e.built.length + 1 < 2 ^ 32) (hop : opcode ≠ .ACK_V1)
    (hsmall : opcode.val < 32)
    (hfirst : Reliable.isReset opcode → e.rel.outCounter = 0) (hlen : payload.length ≤ CONTROL_CHANNEL_MTU)
    (hheld : e.rel.held = (if opcode = .CONTROL_V1 then payload else []) ++ held) :
    Sends (e.grown opcode payload held now) where
  counter := by
    have hmod : (e.built.length + 1) % 2 ^ 32 = e.built.length + 1 := Nat.mod_eq_of_lt hlt
    simpa [Endpoint.grown, Reliable.build, hs.counter] using hmod
  proper := by
    intro i pkt hi
    simp only [Endpoint.grown, hs.getElem?_build] at hi
    split at hi
    · next h =>
      cases hi
      exact ⟨by rw [h]; rfl, hop, hsmall, fun hr => by rw [h]; exact hfirst hr, hlen⟩
    · exact hs.proper i pkt hi
  unacked := by
    intro pid u hu
    simp only [Endpoint.grown, Reliable.build, Table.lookup_insert_eq] at hu
    simp only [Endpoint.grown, hs.getElem?_build]
    split at hu
    · next h =>
      cases hu
      rw [if_pos h]
      rfl
    · next h =>
      rw [if_neg h]
      exact hs.unacked pid u hu
  queued := by
    simp only [Endpoint.grown, stream_append, hs.queued, hheld, List.append_assoc]
    simp [stream, Reliable.build]

theorem Crosses.grown (hs : Sends s) (h : Crosses s r)
    (hroom : s.built.length + 1 ≤ r.rel.inCounter + TLS_RELIABLE_N_REC_BUFFERS) :
    Crosses (s.grown opcode payload held now) r where
  next := by
    have hnext := h.next
    simp only [Endpoint.grown, List.length_append]
    omega
  buffer := by
    intro pid p hp
    obtain ⟨b, hb, hop, hpl⟩ := h.buffer pid p hp
    exact ⟨b, (List.getElem?_append_left (List.getElem?_eq_some_iff.mp hb).1).trans hb, hop, hpl⟩
  handed := by
    simp only [Endpoint.grown]
    rw [List.take_append_of_le_length h.next]
    exact h.handed
  acked := by
    intro pid hpid hnone
    simp only [Endpoint.grown, Reliable.build, Table.lookup_insert_eq] at hnone
    simp only [Endpoint.grown, List.length_append, List.length_singleton] at hpid
    split at hnone
    · cases hnone
    · next hne =>
      rw [hs.counter] at hne
      exact h.acked pid (by omega) hnone
  window := by simpa [Endpoint.grown] using hroom

end Build

/-- The send window keeps an end within the receive window of the other. -/
theorem room_of_canSend (hs : Sends s) (hr : Receives r) (h : Crosses s r) (hcan : s.rel.canSend) :
    s.built.length + 1 ≤ r.rel.inCounter + TLS_RELIABLE_N_REC_BUFFERS := by
  have hsix : TLS_RELIABLE_N_SEND_BUFFERS = 6 := rfl
  have htwelve : TLS_RELIABLE_N_REC_BUFFERS = 12 := rfl
  unfold Reliable.canSend at hcan
  split at hcan
  · next oldest hmin =>
    have hold := List.min?_eq_some_iff.mp hmin
    have hle : oldest ≤ r.rel.inCounter := by
      refine hr.le_inCounter fun pid hpid => ?_
      -- what is older than the oldest kept is acknowledged
      have hnone : s.rel.unacked.lookup pid = none := by
        rw [AList.lookup_eq_none]
        intro hmem
        have hge := hold.2 pid (AList.mem_keys.mp hmem)
        omega
      obtain ⟨u, hu⟩ := Option.isSome_iff_exists.mp (AList.lookup_isSome.mpr (AList.mem_keys.mpr hold.1))
      have hlt := (List.getElem?_eq_some_iff.mp (hs.unacked oldest u hu)).1
      exact h.acked pid (by omega) hnone
    have hout := of_decide_eq_true hcan
    rw [hs.counter] at hout
    omega
  · next hmin =>
    have hempty : s.rel.unacked.keys = [] := List.min?_eq_none_iff.mp hmin
    have hle : s.built.length ≤ r.rel.inCounter := by
      refine hr.le_inCounter fun pid hpid => h.acked pid hpid ?_
      rw [AList.lookup_eq_none, AList.mem_keys, hempty]
      exact List.not_mem_nil
    omega

structure Reliable.SameIn (r r' : Reliable) : Prop where
  inCounter : r'.inCounter = r.inCounter
  inBuf : r'.inBuf = r.inBuf

theorem Reliable.SameIn.taken {r r' : Reliable} (h : r.SameIn r') : r'.Taken pid ↔ r.Taken pid := by
  rw [Taken, Taken, h.inCounter, h.inBuf]

theorem flushTls_grows {clock : ℕ → Instant} {n : ℕ} (hs : Sends s) (hr : Receives r) (h : Crosses s r)
    (hlim : (s.built ++ (s.rel.flushTls clock n).2).length ≤ ID_LIMIT) :
    let s' := { s with rel := (s.rel.flushTls clock n).1, built := s.built ++ (s.rel.flushTls clock n).2 }
    Sends s' ∧ Crosses s' r ∧ s.rel.SameIn s'.rel ∧ s'.rel.pendingAck = s.rel.pendingAck := by
  induction n generalizing s with
  | zero => simpa [Reliable.flushTls] using ⟨hs, h, ⟨rfl, rfl⟩⟩
  | succ n ih =>
    by_cases hstop : s.rel.held.isEmpty || !s.rel.canSend
    · simpa only [Reliable.flushTls, hstop, if_true, List.append_nil, and_true] using ⟨hs, h, ⟨rfl, rfl⟩⟩
    · obtain ⟨-, hcan⟩ : s.rel.held.isEmpty = false ∧ s.rel.canSend = true := by simpa using hstop
      simp only [Reliable.flushTls, hstop] at hlim ⊢
      set t := s.grown .CONTROL_V1 (s.rel.held.take CONTROL_CHANNEL_MTU)
        (s.rel.held.drop CONTROL_CHANNEL_MTU) (clock n)
        with ht
      have hlen : s.built.length + 1 < 2 ^ 32 := by
        have hlimit : ID_LIMIT < 2 ^ 32 := by decide
        simp only [Bool.false_eq_true, if_false, List.length_append, List.length_cons] at hlim
        omega
      have hts : Sends t := hs.grown hlen (by decide) (by decide) (fun hreset => absurd hreset (by decide))
        (List.length_take_le _ _) (List.take_append_drop _ _).symm
      have htr : Crosses t r := h.grown hs (room_of_canSend hs hr h hcan)
      obtain ⟨hs', h', hin, hpending⟩ := ih hts htr (by simpa [ht, Endpoint.grown, Reliable.buildControl] using hlim)
      simp only [ht, Endpoint.grown, List.append_assoc, List.singleton_append] at hs' h' hin hpending
      exact ⟨hs', h', ⟨hin.inCounter, hin.inBuf⟩, hpending⟩

def Endpoint.owing (e : Endpoint) (l : List ℕ) : Endpoint := { e with rel := { e.rel with pendingAck := l } }

theorem Receives.owing (h : Receives e) {l : List ℕ} (hl : l ⊆ e.rel.pendingAck) : Receives (e.owing l) :=
  ⟨fun a ha => h.pending a (hl ha), h.ahead, h.refused⟩

theorem Receives.wired (h : Receives e) {l : List ℕ} (hl : l ⊆ e.rel.pendingAck)
    (hpkt : pkt ∈ e.built ∨ (pkt.opcode = .ACK_V1 ∧ pkt.pid = none ∧ pkt.payload = [])) :
    Wired e (pkt.toBytes (l.take CONTROL_SEND_ACK_MAX)) :=
  ⟨pkt, _, rfl, List.length_take_le _ _, fun a ha => h.pending a (hl (List.mem_of_mem_take ha)), hpkt⟩

theorem attach_owing {pkts : List ControlPacket} {l : List ℕ} (h : Receives e) (hl : l ⊆ e.rel.pendingAck)
    (hpkts : ∀ p ∈ pkts, p ∈ e.built) :
    ∃ l', l' ⊆ e.rel.pendingAck ∧ ((e.owing l).attach pkts).1 = e.owing l' ∧
      ∀ data ∈ ((e.owing l).attach pkts).2, Wired e data := by
  induction pkts generalizing l with
  | nil => exact ⟨l, hl, rfl, fun data hdata => (List.not_mem_nil hdata).elim⟩
  | cons pkt pkts ih =>
    obtain ⟨hpkt, hpkts⟩ := List.forall_mem_cons.mp hpkts
    obtain ⟨l', hl', hattach, hwired⟩ := ih (fun a ha => hl (List.mem_of_mem_drop ha) : l.drop
      CONTROL_SEND_ACK_MAX ⊆ _) hpkts
    refine ⟨l', hl', hattach, ?_⟩
    intro data hdata
    rcases List.mem_cons.mp hdata with rfl | hdata
    · exact h.wired hl (.inl hpkt)
    · exact hwired data hdata

/-- Times and counts of what waits for acknowledgement change, not the packets. -/
theorem lookup_tick {r : Reliable} {f : Unacked → Unacked} (hf : ∀ u, (f u).pkt = u.pkt) {l : List ℕ} :
    ∃ t, l.foldl (fun r pid => { r with unacked := r.unacked.modify pid f }) r = { r with unacked := t } ∧
      ∀ pid, (t.lookup pid).map (·.pkt) = (r.unacked.lookup pid).map (·.pkt) := by
  induction l generalizing r with
  | nil => exact ⟨r.unacked, rfl, fun pid => rfl⟩
  | cons k l ih =>
    obtain ⟨t, ht, hlookup⟩ := @ih { r with unacked := r.unacked.modify k f }
    refine ⟨t, ht, fun pid => ?_⟩
    rw [hlookup, Table.lookup_modify]
    split
    · next h => rw [h, Option.map_map]; congr 1; exact funext hf
    · rfl

theorem Sends.retimed {t : Table ℕ Unacked} (h : Sends e)
    (ht : ∀ pid, (t.lookup pid).map (·.pkt) = (e.rel.unacked.lookup pid).map (·.pkt)) :
    Sends { e with rel := { e.rel with unacked := t } } where
  counter := h.counter
  proper := h.proper
  queued := h.queued
  unacked := by
    intro pid u hu
    obtain ⟨v, hv, hpkt⟩ := Option.map_eq_some_iff.mp ((ht pid).symm.trans (congrArg _ hu))
    exact (h.unacked pid v hv).trans (congrArg some hpkt)

theorem Crosses.retimed {t : Table ℕ Unacked} (h : Crosses s r)
    (ht : ∀ pid, (t.lookup pid).map (·.pkt) = (s.rel.unacked.lookup pid).map (·.pkt)) :
    Crosses { s with rel := { s.rel with unacked := t } } r where
  next := h.next
  buffer := h.buffer
  handed := h.handed
  window := h.window
  acked := by
    intro pid hpid hnone
    refine h.acked pid hpid (Option.map_eq_none_iff.mp ((ht pid).symm.trans ?_))
    rw [hnone]
    rfl

theorem tick_wired {now : Instant} (h : Sends e) : ∀ data ∈ (e.rel.tick now).2, Wired e data := by
  intro data hdata
  obtain ⟨pid, -, hpid⟩ := List.mem_filterMap.mp hdata
  obtain ⟨u, hu, rfl⟩ := Option.map_eq_some_iff.mp hpid
  exact ⟨u.pkt, [], rfl, Nat.zero_le _, fun a ha => (List.not_mem_nil ha).elim,
    .inl (List.mem_of_getElem? (h.unacked pid u hu))⟩

/-! ## Receiving -/

/-- What handing up in order does to the receiving half. -/
structure Drained (built : List ControlPacket) (r r' : Reliable) (bytes : List UInt8) : Prop where
  rest : r' = { r with inCounter := r'.inCounter, inBuf := r'.inBuf }
  le : r.inCounter ≤ r'.inCounter
  next : r'.inCounter ≤ built.length
  bytes : stream (built.take r.inCounter) ++ bytes = stream (built.take r'.inCounter)
  taken : ∀ pid, r.Taken pid → r'.Taken pid
  buffer : ∀ pid p, r'.inBuf.lookup pid = some p → r.inBuf.lookup pid = some p ∧ r'.inCounter < pid

theorem drain_drained {built : List ControlPacket} {n : ℕ} {r : Reliable} (hlen : built.length < 2 ^ 32)
    (hnext : r.inCounter ≤ built.length) (hn : r.inBuf.entries.length ≤ n)
    (hbuf : ∀ pid p, r.inBuf.lookup pid = some p →
      r.inCounter ≤ pid ∧ ∃ b, built[pid]? = some b ∧ p.opcode = b.opcode ∧ p.payload = b.payload) :
    Drained built r (Reliable.drain n r).1 (Reliable.drain n r).2 := by
  induction n generalizing r with
  | zero =>
    refine ⟨rfl, le_rfl, hnext, List.append_nil _, fun pid h => h, fun pid p hp => ?_⟩
    have hnil : r.inBuf.entries = [] := List.length_eq_zero_iff.mp (Nat.le_zero.mp hn)
    have hmem := Table.lookup_eq_some.mp hp
    simp [Reliable.drain, hnil] at hmem
  | succ n ih =>
    rw [Reliable.drain]
    cases hlook : r.inBuf.lookup r.inCounter with
    | none =>
      refine ⟨rfl, le_rfl, hnext, List.append_nil _, fun pid h => h, fun pid p hp => ⟨hp, ?_⟩⟩
      have hle := (hbuf pid p hp).1
      have hne : pid ≠ r.inCounter := by
        rintro rfl
        rw [hlook] at hp
        cases hp
      change r.inCounter < pid
      omega
    | some p =>
      obtain ⟨-, b, hb, hop, hpl⟩ := hbuf _ p hlook
      have hlt := (List.getElem?_eq_some_iff.mp hb).1
      have hmod : (r.inCounter + 1) % 2 ^ 32 = r.inCounter + 1 := Nat.mod_eq_of_lt (by omega)
      simp only [hmod]
      set t : Reliable := { r with inBuf := r.inBuf.erase r.inCounter, inCounter := r.inCounter + 1 } with ht
      have hd : Drained built t (Reliable.drain n t).1 (Reliable.drain n t).2 := by
        refine ih hlt ?_ ?_
        · have herase : t.inBuf.entries.length + 1 = r.inBuf.entries.length :=
            Table.length_erase (by rw [hlook]; rfl)
          omega
        · intro pid q hq
          simp only [ht, Table.lookup_erase_eq] at hq
          split at hq
          · cases hq
          · next hne =>
            obtain ⟨hle, hrest⟩ := hbuf pid q hq
            exact ⟨by change r.inCounter + 1 ≤ pid; omega, hrest⟩
      refine ⟨hd.rest, Nat.le_of_succ_le hd.le, hd.next, ?_, ?_, ?_⟩
      · rw [← hd.bytes]
        change _ = stream (built.take (r.inCounter + 1)) ++ _
        rw [List.take_add_one, hb, stream_append, List.append_assoc]
        simp [stream, hop, hpl]
      · intro pid htaken
        refine hd.taken pid ?_
        simp only [Reliable.Taken, ht, Table.lookup_erase_eq] at htaken ⊢
        split
        · left; omega
        · rcases htaken with h | h
          · left; omega
          · exact .inr h
      · intro pid q hq
        obtain ⟨hold, hgt⟩ := hd.buffer pid q hq
        simp only [ht, Table.lookup_erase_eq] at hold
        split at hold
        · cases hold
        · exact ⟨hold, hgt⟩

/-- What receiving a packet leaves as it is, once it has counted what the packet acknowledges. -/
structure Reliable.SameOut (r r' : Reliable) : Prop where
  outCounter : r'.outCounter = r.outCounter
  unacked : r'.unacked = r.unacked
  held : r'.held = r.held

theorem owe_learnPeer (r : Reliable) (pkt : ControlPacket) (pid : ℕ) :
    ∃ peer l, (r.owe pid).learnPeer pkt = { r with peerId := peer, pendingAck := l } ∧
      ∀ a ∈ l, a ∈ r.pendingAck ∨ a = pid := by
  have howe : ∃ l, r.owe pid = { r with pendingAck := l } ∧ ∀ a ∈ l, a ∈ r.pendingAck ∨ a = pid := by
    unfold Reliable.owe
    split
    · exact ⟨_, rfl, fun a ha => .inl ha⟩
    · exact ⟨_, rfl, fun a ha => by simpa using ha⟩
  obtain ⟨l, hl, hmem⟩ := howe
  rw [hl]
  unfold Reliable.learnPeer
  split
  · exact ⟨_, l, rfl, hmem⟩
  · exact ⟨_, l, rfl, hmem⟩

theorem store_eq (r : Reliable) (pkt : ControlPacket) (pid : ℕ) :
    ∃ t, r.store pid pkt = { r with inBuf := t } ∧ (t.lookup pid).isSome ∧
      (∀ k, (r.inBuf.lookup k).isSome → (t.lookup k).isSome) ∧
      ∀ k p, t.lookup k = some p → r.inBuf.lookup k = some p ∨ k = pid ∧ p = { pkt with ackedPids := [] } := by
  unfold Reliable.store
  split
  · next h => exact ⟨_, rfl, h, fun k hk => hk, fun k p hp => .inl hp⟩
  · refine ⟨_, rfl, by simp [AList.lookup_insert], fun k hk => ?_, fun k p hp => ?_⟩
    · rw [Table.lookup_insert_eq]
      split
      · rfl
      · exact hk
    · rw [Table.lookup_insert_eq] at hp
      split at hp
      · next h => exact .inr ⟨h, (Option.some.inj hp).symm⟩
      · exact .inl hp

def Endpoint.taking (e : Endpoint) (pkt : ControlPacket) (pid : ℕ) : Endpoint :=
  { e with rel := (e.rel.accept pkt pid).1, handed := e.handed ++ (e.rel.accept pkt pid).2 }

theorem Crosses.taking {b : ControlPacket} (pkt : ControlPacket) (hr : Receives r) (h : Crosses s r)
    (hlen : s.built.length < 2 ^ 32)
    (hb : s.built[pid]? = some b) (hop : pkt.opcode = b.opcode) (hpl : pkt.payload = b.payload)
    (hwin : pid < r.rel.inCounter + TLS_RELIABLE_N_REC_BUFFERS) :
    Receives (r.taking pkt pid) ∧ Crosses s (r.taking pkt pid) ∧
      (∀ k, r.rel.Taken k → (r.taking pkt pid).rel.Taken k) ∧ r.rel.SameOut (r.taking pkt pid).rel := by
  have hpid := (List.getElem?_eq_some_iff.mp hb).1
  obtain ⟨peer, l, howe, hl⟩ := owe_learnPeer r.rel pkt pid
  unfold Endpoint.taking Reliable.accept
  rw [howe]
  by_cases hold : pid < r.rel.inCounter
  · simp only [hold, if_true, List.append_nil]
    refine ⟨⟨fun a ha => ?_, hr.ahead, hr.refused⟩, ⟨h.next, h.buffer, h.handed, h.acked,
      h.window⟩, fun k hk => hk,
      ⟨rfl, rfl, rfl⟩⟩
    rcases hl a ha with hmem | rfl
    · exact hr.pending a hmem
    · exact ⟨by omega, .inl hold⟩
  · simp only [hold, if_false]
    obtain ⟨t, hstore, hpidt, hsub, hlook⟩ := store_eq { r.rel with peerId := peer, pendingAck := l } pkt pid
    rw [hstore]
    set q : Reliable := { r.rel with peerId := peer, pendingAck := l, inBuf := t } with hq
    have hbuf : ∀ k p, t.lookup k = some p → r.rel.inCounter ≤ k ∧ k <
      r.rel.inCounter + TLS_RELIABLE_N_REC_BUFFERS ∧
        ∃ b, s.built[k]? = some b ∧ p.opcode = b.opcode ∧ p.payload = b.payload := by
      intro k p hp
      rcases hlook k p hp with hp | ⟨rfl, rfl⟩
      · have hahead := hr.ahead k (Option.isSome_iff_exists.mpr ⟨p, hp⟩)
        exact ⟨hahead.1.le, hahead.2, h.buffer k p hp⟩
      · exact ⟨not_lt.mp hold, hwin, b, hb, hop, hpl⟩
    have hd : Drained s.built q _ _ :=
      drain_drained hlen h.next le_rfl fun k p hp => ⟨(hbuf k p hp).1, (hbuf k p hp).2.2⟩
    have htaken : ∀ k, r.rel.Taken k → q.Taken k := fun k hk => hk.imp id (hsub k)
    have hle : r.rel.inCounter ≤ (Reliable.drain q.inBuf.entries.length q).1.inCounter := hd.le
    have hpending : (Reliable.drain q.inBuf.entries.length q).1.pendingAck = l := by rw [hd.rest]
    refine ⟨⟨?_, ?_, hr.refused⟩, ⟨hd.next, ?_, ?_, ?_, ?_⟩, fun k hk => hd.taken k (htaken k hk), ?_⟩
    · intro a ha
      rw [hpending] at ha
      rcases hl a ha with hmem | rfl
      · exact ⟨(hr.pending a hmem).1, hd.taken a (htaken a (hr.pending a hmem).2)⟩
      · exact ⟨by omega, hd.taken a (.inr hpidt)⟩
    · intro k hk
      obtain ⟨p, hp⟩ := Option.isSome_iff_exists.mp hk
      obtain ⟨hpt, hgt⟩ := hd.buffer k p hp
      have hlt := (hbuf k p hpt).2.1
      exact ⟨hgt, lt_of_lt_of_le hlt (Nat.add_le_add_right hle _)⟩
    · intro k p hp
      exact (hbuf k p (hd.buffer k p hp).1).2.2
    · rw [h.handed]
      exact hd.bytes
    · intro k hk hnone
      exact hd.taken k (htaken k (h.acked k hk hnone))
    · exact h.window.trans (Nat.add_le_add_right hle _)
    · rw [hd.rest]
      exact ⟨rfl, rfl, rfl⟩

theorem lookup_purge {r : Reliable} {acked : List ℕ} :
    (r.purge acked).unacked.lookup pid = if pid ∈ acked then none else r.unacked.lookup pid := by
  unfold Reliable.purge
  change (acked.foldl (fun t pid => t.erase pid) r.unacked).lookup pid = _
  induction acked generalizing r with
  | nil => simp
  | cons a acked ih =>
    rw [List.foldl_cons]
    refine (@ih { r with unacked := r.unacked.erase a }).trans ?_
    simp only [Table.lookup_erase_eq, List.mem_cons]
    split <;> split <;> simp_all

/-- An end that has counted what a packet acknowledges. -/
def Endpoint.purged (e : Endpoint) (acked : List ℕ) : Endpoint := { e with rel := e.rel.purge acked }

theorem Sends.purged (h : Sends e) {acked : List ℕ} : Sends (e.purged acked) where
  counter := h.counter
  proper := h.proper
  queued := h.queued
  unacked := by
    intro pid u hu
    rw [Endpoint.purged, lookup_purge] at hu
    split at hu
    · cases hu
    · exact h.unacked pid u hu

theorem Crosses.purged (h : Crosses s r) {acked : List ℕ} (hacked : ∀ a ∈ acked, r.rel.Taken a) :
    Crosses (s.purged acked) r where
  next := h.next
  buffer := h.buffer
  handed := h.handed
  window := h.window
  acked := by
    intro pid hpid hnone
    rw [Endpoint.purged, lookup_purge] at hnone
    split at hnone
    · next hmem => exact hacked pid hmem
    · exact h.acked pid hpid hnone

/-- One end, against the other. -/
structure Joined (e s : Endpoint) : Prop where
  sends : Sends e
  receives : Receives e
  out : Crosses e s
  back : Crosses s e

/-- What an end has built and taken it does not lose. -/
structure Grows (e e' : Endpoint) : Prop where
  built : e.built <+: e'.built
  taken : ∀ pid, e.rel.Taken pid → e'.rel.Taken pid

/-- Every packet an end is sent passes the checks of the window. -/
theorem check_built (h : Crosses s r) (hlim : s.built.length ≤ ID_LIMIT) {b : ControlPacket}
    (hb : s.built[pid]? = some b) (hp : Proper b pid) (acks : List ℕ) :
    r.rel.check (b.received acks) = .ok (some pid) := by
  have hlt := (List.getElem?_eq_some_iff.mp hb).1
  have hnext := h.next
  have hwindow := h.window
  have hlimit : ID_LIMIT + TLS_RELIABLE_N_REC_BUFFERS < 2 ^ 32 := by decide
  have hmod : (r.rel.inCounter + TLS_RELIABLE_N_REC_BUFFERS) % 2 ^ 32 =
    r.rel.inCounter + TLS_RELIABLE_N_REC_BUFFERS :=
    Nat.mod_eq_of_lt (by omega)
  have hin : ¬ r.rel.inCounter + TLS_RELIABLE_N_REC_BUFFERS ≤ pid := by omega
  have hreset : (Reliable.isReset b.opcode && (some pid != some 0)) = false := by
    cases hr : Reliable.isReset b.opcode with
    | false => rfl
    | true => rw [hp.first hr]; rfl
  have hsize : ¬ b.payload.length > MAX_CONTROL_PAYLOAD := by
    have hmtu : CONTROL_CHANNEL_MTU ≤ MAX_CONTROL_PAYLOAD := by decide
    have hpay := hp.payload
    omega
  simp only [Reliable.check, ControlPacket.received, hp.pid, hp.opcode, if_false, bind, Except.bind, hreset,
    Option.any_some,
    hmod, hin, decide_false, Bool.false_eq_true, hsize]
  rfl

theorem check_ack {r : Reliable} {acks : List ℕ} (hop : pkt.opcode = .ACK_V1) (hpl : pkt.payload = []) :
    r.check (pkt.received acks) = .ok none := by
  simp only [Reliable.check, ControlPacket.received, hop, hpl]
  rfl

theorem receive_cases {data : List UInt8} (hss : Sends s) (h : Crosses s e) (hlim : s.built.length ≤ ID_LIMIT)
    (hw : Wired s data) :
    e.receive data = { e with refused := e.refused ++ [.otherSession] } ∨
    ∃ acks : List ℕ, (∀ a ∈ acks, s.rel.Taken a) ∧ (e.receive data = e.purged acks ∨
      ∃ pid b, s.built[pid]? = some b ∧ e.receive data = (e.purged acks).taking (b.received acks) pid) := by
  have hlimit : ID_LIMIT < 2 ^ 32 := by decide
  obtain ⟨pkt, acks, rfl, hlen, hacks, hpkt⟩ := hw
  have hfour : CONTROL_SEND_ACK_MAX = 4 := rfl
  have hparse : ControlPacket.parse (pkt.toBytes acks) = .ok (pkt.received acks) := by
    rcases hpkt with hmem | ⟨hop, hpid, -⟩
    · obtain ⟨i, hi⟩ := List.mem_iff_getElem?.mp hmem
      have hp := hss.proper i pkt hi
      have hlt := (List.getElem?_eq_some_iff.mp hi).1
      refine parse_toBytes hp.small ?_ ?_ (by omega) fun a ha => (hacks a ha).1
      · simp [hp.pid, hp.opcode]
      · intro j hj
        rw [hp.pid] at hj
        cases hj
        omega
    · refine parse_toBytes (by rw [hop]; decide) ?_ ?_ (by omega) fun a ha => (hacks a ha).1
      · simp [hpid, hop]
      · simp [hpid]
  unfold Endpoint.receive Reliable.recv
  rw [hparse]
  unfold Reliable.recvPacket
  by_cases hother : !(pkt.received acks).ackedPids.isEmpty && (pkt.received acks).remoteId != e.rel.localId
  · exact .inl (by simp only [hother, if_true])
  · refine .inr ⟨acks, fun a ha => (hacks a ha).2, ?_⟩
    simp only [hother, Bool.false_eq_true, if_false]
    rcases hpkt with hmem | ⟨hop, -, hpl⟩
    · obtain ⟨i, hi⟩ := List.mem_iff_getElem?.mp hmem
      have hcheck := check_built (r := e.purged acks) ⟨h.next, h.buffer, h.handed, h.acked, h.window⟩ hlim hi
        (hss.proper i pkt hi) acks
      refine .inr ⟨i, pkt, hi, ?_⟩
      rw [show (e.rel.purge (pkt.received acks).ackedPids).check (pkt.received acks) = .ok (some i) from hcheck]
      rfl
    · refine .inl ?_
      rw [show (e.rel.purge (pkt.received acks).ackedPids).check (pkt.received acks) =
        .ok none from check_ack hop hpl]
      simp only [List.append_nil]
      rfl

theorem Joined.receive {data : List UInt8} (h : Joined e s) (hss : Sends s) (hlim : s.built.length ≤ ID_LIMIT)
    (hw : Wired s data) : Joined (e.receive data) s ∧ Grows e (e.receive data) := by
  have hlimit : ID_LIMIT < 2 ^ 32 := by decide
  rcases receive_cases hss h.back hlim hw with hrec | ⟨acks, hacks, hrec | ⟨pid, b, hb, hrec⟩⟩
  · rw [hrec]
    refine ⟨⟨?_, ⟨h.receives.pending, h.receives.ahead, ?_⟩, ?_, ?_⟩, ⟨List.prefix_refl _, fun _ ht => ht⟩⟩
    · exact ⟨h.sends.counter, h.sends.proper, h.sends.unacked, h.sends.queued⟩
    · simpa using h.receives.refused
    · exact ⟨h.out.next, h.out.buffer, h.out.handed, h.out.acked, h.out.window⟩
    · exact ⟨h.back.next, h.back.buffer, h.back.handed, h.back.acked, h.back.window⟩
  · rw [hrec]
    have hback : Crosses s (e.purged acks) := ⟨h.back.next, h.back.buffer, h.back.handed,
      h.back.acked, h.back.window⟩
    exact ⟨⟨h.sends.purged, ⟨h.receives.pending, h.receives.ahead, h.receives.refused⟩, h.out.purged hacks, hback⟩,
      ⟨List.prefix_refl _, fun _ ht => ht⟩⟩
  · rw [hrec]
    have hback : Crosses s (e.purged acks) := ⟨h.back.next, h.back.buffer, h.back.handed,
      h.back.acked, h.back.window⟩
    have hreceives : Receives (e.purged acks) := ⟨h.receives.pending, h.receives.ahead, h.receives.refused⟩
    have hpid := (List.getElem?_eq_some_iff.mp hb).1
    obtain ⟨hr', hback', htaken, hsame⟩ :=
      Crosses.taking (b.received acks) hreceives hback (by omega) hb rfl rfl (lt_of_lt_of_le hpid hback.window)
    have hsends : Sends (e.purged acks) := h.sends.purged
    have hout := h.out.purged hacks
    refine ⟨⟨⟨?_, hsends.proper, ?_, ?_⟩, hr', ⟨hout.next, hout.buffer, hout.handed, ?_, hout.window⟩, hback'⟩,
      ⟨List.prefix_refl _, htaken⟩⟩
    · exact hsame.outCounter.trans hsends.counter
    · rw [hsame.unacked]
      exact hsends.unacked
    · rw [hsame.held]
      exact hsends.queued
    · rw [hsame.unacked]
      exact hout.acked

end PktKit.Ovpn
