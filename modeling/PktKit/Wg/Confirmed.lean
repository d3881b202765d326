import PktKit.Foundations.Histories
import PktKit.Wg.Sessions

/-! # Nothing is sent under a key that is not confirmed

What a run notes of its keypairs, read from the end: a packet goes out only under a keypair that the
peer is known to hold, and no counter serves twice.
-/

namespace PktKit.Wg
open Foundations Foundations.Actions Foundations.Histories SlidingWindow

/-- The peer holds the keypair: its response to us made it, or it has sent under it. -/
def Confirmed (log : List Event) (kp : Keypair) : Prop :=
  if kp.isInitiator then .completed kp ∈ log
  else ∃ counter peer judged aged, .opened kp counter peer judged aged ∈ log

/-- The counters of the packets let in under a keypair. -/
def openedUnder (id : ℕ) (log : List Event) : Set ℕ :=
  { c | ∃ kp peer judged aged, .opened kp c peer judged aged ∈ log ∧ kp.id = id }

/-- The counters of the packets sent under a keypair. -/
def sealedUnder (id : ℕ) (log : List Event) : Set ℕ :=
  { c | ∃ kp peer judged aged, .sealed kp c peer judged aged ∈ log ∧ kp.id = id }

def Event.draws (id : ℕ) : Event → Bool
  | .drawn kp _ => kp.id == id
  | _ => false

/-- How many counters were taken for sending under a keypair, packets that were then refused
included. -/
def drawnCount (id : ℕ) (log : List Event) : ℕ := log.countP (Event.draws id)

def Noted (log : List Event) : Event → Prop
  | .completed _ => True
  | .drawn kp counter => counter = drawnCount kp.id log % 2 ^ 64
  | .sealed kp counter peer judged aged => Confirmed log kp ∧ Handler.authorized peer judged = true ∧
      aged - kp.created ≤ REJECT_AFTER_TIME ∧ ∃ log', log = log' ++ [.drawn kp counter]
  | .opened kp counter peer judged aged => Handler.authorized peer judged = true ∧
      aged - kp.created ≤ REJECT_AFTER_TIME ∧ counter ∉ openedUnder kp.id log

/-- A keypair has one identity, the next one is not ours, and the current one is confirmed. -/
structure Slots (h : Handler) : Prop where
  id_lt : ∀ idx kp, h.keypairs.lookup idx = some kp → kp.id < h.nextId
  id_inj : ∀ i j a b, h.keypairs.lookup i = some a → h.keypairs.lookup j = some b → a.id = b.id → a = b
  next : ∀ key x kp, h.sessions.lookup key = some x → x.keypairNext = some kp → kp.isInitiator = false
  current : ∀ key x kp, h.sessions.lookup key = some x → x.keypairCurrent = some kp → Confirmed h.log kp

/-- The counters and windows kept agree with what was noted. -/
structure Ledger (h : Handler) : Prop where
  noted : Every Noted h.log
  sent : ∀ id, (h.cells id).sendCounter = BitVec.ofNat 64 (drawnCount id h.log)
  window : ∀ id, Tracks (h.cells id).replayFilter (openedUnder id h.log)

section

variable {P : Primitives} {s s' : Running} {h h' : Handler} {kp : Keypair} {log log' : List Event} {id : ℕ}

theorem Confirmed.mono (hc : Confirmed log kp) (hsub : log ⊆ log') : Confirmed log' kp := by
  unfold Confirmed at hc ⊢
  split
  · next hi =>
    rw [if_pos hi] at hc
    exact hsub hc
  · next hi =>
    rw [if_neg hi] at hc
    obtain ⟨counter, peer, judged, aged, hm⟩ := hc
    exact ⟨counter, peer, judged, aged, hsub hm⟩

/-- Keypairs and sessions lose something, or nothing, and no identity is given out. -/
theorem Slots.fewer (hs : Slots h) (hid : h'.nextId = h.nextId) (hlog : h'.log = h.log)
    (hk : ∀ idx kp, h'.keypairs.lookup idx = some kp → h.keypairs.lookup idx = some kp)
    (hx : ∀ key y, h'.sessions.lookup key = some y → ∃ x, h.sessions.lookup key = some x ∧
      (∀ kp, y.keypairCurrent = some kp → x.keypairCurrent = some kp) ∧
      ∀ kp, y.keypairNext = some kp → x.keypairNext = some kp) : Slots h' where
  id_lt idx kp hl := hid ▸ hs.id_lt idx kp (hk idx kp hl)
  id_inj i j a b ha hb := hs.id_inj i j a b (hk i a ha) (hk j b hb)
  next key y kp hy hn := by
    obtain ⟨x, hx, -, hnext⟩ := hx key y hy
    exact hs.next key x kp hx (hnext kp hn)
  current key y kp hy hc := by
    obtain ⟨x, hx, hcur, -⟩ := hx key y hy
    exact hlog ▸ hs.current key x kp hx (hcur kp hc)

theorem Slots.noted (hs : Slots h) (hk : h'.keypairs = h.keypairs) (hx : h'.sessions = h.sessions)
    (hid : h.nextId ≤ h'.nextId) (hlog : h.log ⊆ h'.log) : Slots h' where
  id_lt idx kp hl := (hs.id_lt idx kp (hk ▸ hl)).trans_le hid
  id_inj i j a b ha hb := hs.id_inj i j a b (hk ▸ ha) (hk ▸ hb)
  next key x kp hl := hs.next key x kp (hx ▸ hl)
  current key x kp hl hc := (hs.current key x kp (hx ▸ hl) hc).mono hlog

theorem Ledger.congr (hl : Ledger h) (hcells : h'.cells = h.cells) (hlog : h'.log = h.log) : Ledger h' where
  noted := hlog ▸ hl.noted
  sent id := by
    rw [hcells, hlog]
    exact hl.sent id
  window id := by
    rw [hcells, hlog]
    exact hl.window id

/-! ## What each move keeps -/

theorem openedUnder_snoc_opened {counter : ℕ} {peer : Option PeerEntry} {judged aged : Instant} :
    openedUnder id (log ++ [.opened kp counter peer judged aged]) =
      if kp.id = id then insert counter (openedUnder id log) else openedUnder id log := by
  ext c
  simp only [openedUnder, List.mem_append, List.mem_singleton, Event.opened.injEq]
  split
  · next hid =>
    constructor
    · rintro ⟨kp', p, j, a, hm | ⟨rfl, rfl, rfl, rfl, rfl⟩, hid'⟩
      · exact .inr ⟨kp', p, j, a, hm, hid'⟩
      · exact .inl rfl
    · rintro (rfl | ⟨kp', p, j, a, hm, hid'⟩)
      · exact ⟨kp, peer, judged, aged, .inr ⟨rfl, rfl, rfl, rfl, rfl⟩, hid⟩
      · exact ⟨kp', p, j, a, .inl hm, hid'⟩
  · next hid =>
    constructor
    · rintro ⟨kp', p, j, a, hm | ⟨rfl, rfl, rfl, rfl, rfl⟩, hid'⟩
      · exact ⟨kp', p, j, a, hm, hid'⟩
      · exact absurd hid' hid
    · rintro ⟨kp', p, j, a, hm, hid'⟩
      exact ⟨kp', p, j, a, .inl hm, hid'⟩

theorem openedUnder_snoc {ev : Event} (hev : ∀ kp c p j a, ev ≠ .opened kp c p j a) :
    openedUnder id (log ++ [ev]) = openedUnder id log := by
  ext c
  simp only [openedUnder, List.mem_append, List.mem_singleton, Set.mem_ofPred_eq]
  constructor
  · rintro ⟨kp, p, j, a, hm | rfl, hid⟩
    · exact ⟨kp, p, j, a, hm, hid⟩
    · exact absurd rfl (hev kp c p j a)
  · rintro ⟨kp, p, j, a, hm, hid⟩
    exact ⟨kp, p, j, a, .inl hm, hid⟩

theorem drawnCount_snoc {ev : Event} :
    drawnCount id (log ++ [ev]) = drawnCount id log + if ev.draws id then 1 else 0 := by
  simp [drawnCount, List.countP_append, List.countP_singleton]

theorem Ledger.note (hl : Ledger h) {ev : Event} (hn : Noted h.log ev) (hd : ∀ id, ev.draws id = false)
    (hev : ∀ kp c p j a, ev ≠ .opened kp c p j a) : Ledger (h.note ev) where
  noted := every_snoc.mpr ⟨hl.noted, hn⟩
  sent id := by
    rw [Handler.note, drawnCount_snoc, hd, hl.sent id]
    simp
  window id := by
    rw [Handler.note, openedUnder_snoc hev]
    exact hl.window id

theorem Ledger.mint (hl : Ledger h) : Ledger (h.mint kp) := by
  cases hi : kp.isInitiator with
  | true =>
    have hnote : Ledger (h.note (.completed kp)) := hl.note trivial (fun _ => rfl) (by simp)
    exact hnote.congr rfl (by simp [Handler.mint, Handler.note, hi])
  | false => exact hl.congr rfl (by simp [Handler.mint, hi])

theorem Ledger.draw (hl : Ledger h) : Ledger (h.draw kp) where
  noted := by
    refine every_snoc.mpr ⟨hl.noted, ?_⟩
    simp [Noted, hl.sent, Handler.setCell]
  sent id := by
    simp only [Handler.draw, Handler.note, Handler.setCell, drawnCount_snoc, Event.draws]
    by_cases hid : kp.id = id
    · subst hid
      simp [hl.sent, BitVec.ofNat_add]
    · simp [hid, Function.update_of_ne (Ne.symm hid), hl.sent]
  window id := by
    simp only [Handler.draw, Handler.note, Handler.setCell]
    rw [openedUnder_snoc (by simp)]
    by_cases hid : kp.id = id
    · subst hid
      simpa using hl.window kp.id
    · simpa [Function.update_of_ne (Ne.symm hid)] using hl.window id

theorem Ledger.opened (hl : Ledger h) {counter : ℕ} {peer : Option PeerEntry} {judged aged : Instant}
    (hrep : ((h.cells kp.id).replayFilter.checkReplay counter).2 = false)
    (hauth : Handler.authorized peer judged = true) (hage : aged - kp.created ≤ REJECT_AFTER_TIME) :
    Ledger ((h.slide kp counter).note (.opened kp counter peer judged aged)) where
  noted := every_snoc.mpr ⟨hl.noted, hauth, hage, ((hl.window kp.id).checkReplay.1 hrep).2.1⟩
  sent id := by
    simp only [Handler.slide, Handler.note, Handler.setCell, drawnCount_snoc, Event.draws]
    by_cases hid : kp.id = id
    · subst hid
      simp [hl.sent]
    · simp [Function.update_of_ne (Ne.symm hid), hl.sent]
  window id := by
    simp only [Handler.slide, Handler.note, Handler.setCell, openedUnder_snoc_opened]
    by_cases hid : kp.id = id
    · subst hid
      simpa using ((hl.window kp.id).checkReplay.1 hrep).2.2
    · simpa [hid, Function.update_of_ne (Ne.symm hid)] using hl.window id

theorem Ledger.refused (hl : Ledger h) {counter : ℕ}
    (hrep : ((h.cells kp.id).replayFilter.checkReplay counter).2 = true) : Ledger (h.slide kp counter) where
  noted := hl.noted
  sent id := by
    simp only [Handler.slide, Handler.setCell]
    by_cases hid : kp.id = id
    · subst hid
      simp [hl.sent]
    · simp [Function.update_of_ne (Ne.symm hid), hl.sent]
  window id := by
    simp only [Handler.slide, Handler.setCell]
    by_cases hid : kp.id = id
    · subst hid
      simpa using (hl.window kp.id).checkReplay.2 hrep
    · simpa [Function.update_of_ne (Ne.symm hid)] using hl.window id

theorem place_current {x : Session} {c : Keypair} (hc : (Handler.place kp.isInitiator x
    kp).1.keypairCurrent = some c) :
    (kp.isInitiator = true ∧ c = kp) ∨ x.keypairCurrent = some c := by
  cases hi : kp.isInitiator with
  | false =>
    rw [hi] at hc
    exact .inr hc
  | true =>
    rw [hi] at hc
    simp only [Handler.place, if_true, Handler.placeInitiator] at hc
    split at hc <;> exact .inl ⟨rfl, (Option.some.inj hc).symm⟩

theorem place_next {x : Session} {n : Keypair} (hn : (Handler.place kp.isInitiator x kp).1.keypairNext = some n) :
    kp.isInitiator = false ∧ n = kp := by
  cases hi : kp.isInitiator with
  | false =>
    rw [hi] at hn
    exact ⟨rfl, (Option.some.inj hn).symm⟩
  | true =>
    rw [hi] at hn
    simp only [Handler.place, if_true, Handler.placeInitiator] at hn
    split at hn
    · cases hn
    · next hnone =>
      rw [hnone] at hn
      cases hn

/-- A new keypair in its place: one we initiated is confirmed by the response, one we answered for
waits. -/
theorem Slots.install (hs : Slots h) {received sent : Instant} (hid : kp.id = h.nextId) :
    Slots ((h.mint kp).installed kp (Handler.place kp.isInitiator (h.sessionOr kp.peerKey received sent) kp)) := by
  have hold : ∀ i a, ((h.mint kp).installed kp
      (Handler.place kp.isInitiator (h.sessionOr kp.peerKey received sent) kp)).keypairs.lookup i = some a →
      a = kp ∨ h.keypairs.lookup i = some a := by
    intro i a ha
    have hins := (lookup_unindex_eq_some.mp ha).1
    rw [Table.lookup_insert_eq] at hins
    split at hins
    · exact .inl (Option.some.inj hins).symm
    · exact .inr hins
  have hsub : h.log ⊆ (h.mint kp).log := List.subset_append_left _ _
  have hsess : ∀ k, (h.sessions.insert kp.peerKey
      (Handler.place kp.isInitiator (h.sessionOr kp.peerKey received sent) kp).1).lookup k =
      if k = kp.peerKey then some (Handler.place kp.isInitiator (h.sessionOr kp.peerKey received sent) kp).1
      else h.sessions.lookup k := fun k => Table.lookup_insert_eq
  have hcur : ∀ c, (h.sessionOr kp.peerKey received sent).keypairCurrent = some c → Confirmed h.log c := by
    intro c hc
    unfold Handler.sessionOr at hc
    cases hx : h.sessions.lookup kp.peerKey with
    | none => simp [hx] at hc
    | some x =>
      rw [hx] at hc
      exact hs.current _ x c hx hc
  refine ⟨?_, ?_, ?_, ?_⟩
  · intro i a ha
    rcases hold i a ha with rfl | ha
    · exact hid ▸ Nat.lt_succ_self _
    · exact (hs.id_lt i a ha).trans (Nat.lt_succ_self _)
  · intro i j a b ha hb hab
    rcases hold i a ha with rfl | ha' <;> rcases hold j b hb with rfl | hb'
    · rfl
    · exact absurd (hs.id_lt j b hb') (by omega)
    · exact absurd (hs.id_lt i a ha') (by omega)
    · exact hs.id_inj i j a b ha' hb' hab
  · intro k z n hz hn
    replace hz := (hsess k).symm.trans hz
    split at hz
    · cases hz
      obtain ⟨hi, rfl⟩ := place_next hn
      exact hi
    · exact hs.next k z n hz hn
  · intro k z c hz hc
    replace hz := (hsess k).symm.trans hz
    split at hz
    · cases hz
      rcases place_current hc with ⟨hi, rfl⟩ | hc
      · simp [Confirmed, hi, Handler.installed, Handler.mint]
      · exact (hcur c hc).mono hsub
    · exact (hs.current k z c hz hc).mono hsub

theorem Slots.promote (hs : Slots h) (hc : Confirmed h.log kp) (x : Session) (key : PublicKey) :
    Slots { h with
      sessions := h.sessions.insert key (x.promoted kp)
      keypairs := Handler.unindex h.keypairs x.keypairPrev.toList } := by
  have hsess : ∀ k, (h.sessions.insert key (x.promoted kp)).lookup k =
      if k = key then some (x.promoted kp) else h.sessions.lookup k := fun k => Table.lookup_insert_eq
  refine ⟨?_, ?_, ?_, ?_⟩
  · exact fun i a ha => hs.id_lt i a (lookup_unindex_eq_some.mp ha).1
  · exact fun i j a b ha hb => hs.id_inj i j a b (lookup_unindex_eq_some.mp ha).1 (lookup_unindex_eq_some.mp hb).1
  · intro k z n hz hzn
    replace hz := (hsess k).symm.trans hz
    split at hz
    · cases hz
      cases hzn
    · exact hs.next k z n hz hzn
  · intro k z c hz hzc
    replace hz := (hsess k).symm.trans hz
    split at hz
    · cases hz
      cases hzc
      exact hc
    · exact hs.current k z c hz hzc

/-- What holds of keypairs, counters and the log between any two moves. -/
structure Sound (s : Running) : Prop where
  consistent : Consistent s
  slots : Slots s.handler
  ledger : Ledger s.handler

/-- A next keypair that a packet was let in under is confirmed by it. -/
theorem Sound.promote (hs : Sound s) {idx : Index} {counter : ℕ} {peer : Option PeerEntry} {judged aged : Instant}
    (hkp : s.handler.keypairs.lookup idx = some kp) (hlog : .opened kp counter peer judged aged ∈ s.handler.log) :
    Slots (s.handler.receivedWithKeypair kp) := by
  rcases receivedWithKeypair_cases s.handler kp with he | ⟨x, next, hx, hn, hid, hq⟩
  · rw [he]
    exact hs.slots
  · have hslot := hs.consistent.slot _ x next hx (mem_slots.mpr (.inr (.inr hn)))
    obtain rfl : next = kp := hs.slots.id_inj _ _ _ _ hslot.2 hkp hid
    have hconf : Confirmed s.handler.log next := by
      simp only [Confirmed, hs.slots.next _ x next hx hn]
      exact ⟨counter, peer, judged, aged, hlog⟩
    refine (hs.slots.promote hconf x _).fewer hq.nextId hq.log (fun _ _ hl => hq.keypairs ▸ hl) fun k y hy => ?_
    exact ⟨y, hq.sessions ▸ hy, fun _ => id, fun _ => id⟩

theorem Move.sound (hm : Move P s s') (hs : Sound s) : Sound s' := by
  refine ⟨hm.consistent hs.consistent, ?_, ?_⟩
  · cases hm with
    | tick => exact hs.slots
    | quiet hq =>
      refine hs.slots.fewer hq.nextId hq.log (fun _ _ hl => hq.keypairs ▸ hl) fun k y hy => ?_
      exact ⟨y, hq.sessions ▸ hy, fun _ => id, fun _ => id⟩
    | @touch key f hf =>
      refine hs.slots.fewer rfl rfl (fun _ _ => id) fun k y hy => ?_
      replace hy := Table.lookup_modify.symm.trans hy
      split at hy
      · next he =>
        subst he
        obtain ⟨x, hx, rfl⟩ := Option.map_eq_some_iff.mp hy
        obtain ⟨hc, -, hn⟩ := hf x
        exact ⟨x, hx, fun _ h => hc ▸ h, fun _ h => hn ▸ h⟩
      · exact ⟨y, hy, fun _ => id, fun _ => id⟩
    | forget gone =>
      obtain ⟨peers, tombstones, he⟩ := takePeers_eq s.handler gone
      rw [Running.on, he]
      refine hs.slots.fewer rfl rfl (fun i a ha => ?_) fun k y hy => ?_
      · exact (Option.filter_eq_some_iff.mp (Table.lookup_retain.symm.trans ha)).1
      · replace hy := lookup_foldl_erase.symm.trans hy
        split at hy
        · cases hy
        · exact ⟨y, hy, fun _ => id, fun _ => id⟩
    | mint hid => exact hs.slots.noted rfl rfl (Nat.le_succ _) (List.subset_append_left _ _)
    | install hid => exact hs.slots.install hid
    | promote hkp hlog => exact hs.promote hkp hlog
    | dropExpired =>
      refine hs.slots.fewer rfl rfl (fun i a ha => (lookup_unindex_eq_some.mp ha).1) fun k y hy => ?_
      replace hy := Option.filter_eq_some_iff.mp (Table.lookup_retain.symm.trans hy)
      obtain ⟨x, hx, rfl⟩ := Option.map_eq_some_iff.mp (Table.lookup_mapValues.symm.trans hy.1)
      exact ⟨x, hx, fun _ h => (Option.filter_eq_some_iff.mp h).1, fun _ h => (Option.filter_eq_some_iff.mp h).1⟩
    | close => constructor <;> simp [Running.on, Handler.close]
    | draw => exact hs.slots.noted rfl rfl le_rfl (List.subset_append_left _ _)
    | sealed => exact hs.slots.noted rfl rfl le_rfl (List.subset_append_left _ _)
    | opened => exact hs.slots.noted rfl rfl le_rfl (List.subset_append_left _ _)
    | refused => exact hs.slots.noted rfl rfl le_rfl (List.Subset.refl _)
    | _ => exact hs.slots.noted rfl rfl le_rfl (List.Subset.refl _)
  · cases hm with
    | quiet hq => exact hs.ledger.congr hq.cells hq.log
    | forget gone =>
      obtain ⟨peers, tombstones, he⟩ := takePeers_eq s.handler gone
      rw [Running.on, he]
      exact hs.ledger.congr rfl rfl
    | mint => exact hs.ledger.mint
    | install => exact hs.ledger.mint.congr rfl rfl
    | @promote _ kp =>
      rcases receivedWithKeypair_cases s.handler kp with he | ⟨x, next, -, -, -, hq⟩
      · rw [he]
        exact hs.ledger
      · exact hs.ledger.congr hq.cells hq.log
    | draw => exact hs.ledger.draw
    | @sealed key x kp log counter judged aged hx hcur hlog _ hauth hage =>
      have hkey := (hs.consistent.slot key x kp hx (mem_slots.mpr (.inl hcur))).1
      subst hkey
      exact hs.ledger.note ⟨hs.slots.current _ x kp hx hcur, hauth, hage, log, hlog⟩ (fun _ => rfl) (by simp)
    | opened _ hrep hauth hage => exact hs.ledger.opened hrep hauth hage
    | refused _ hrep => exact hs.ledger.refused hrep
    | _ => exact hs.ledger.congr rfl rfl

theorem sound_new (e : Env) (privateKey : PrivateKey) (threshold limit : Option ℕ) (t : Instant) :
    Sound ⟨Handler.new P e privateKey threshold limit, t⟩ where
  consistent := consistent_new e privateKey threshold limit t
  slots := by constructor <;> simp [Handler.new]
  ledger := by
    refine ⟨every_nil, fun _ => rfl, fun id => ?_⟩
    have hnone : openedUnder id [] = ∅ := by simp [openedUnder]
    exact hnone ▸ tracks_new

/-! ## Whole runs -/

/-- What the log may say of packets. A packet goes out only under a confirmed keypair; one goes out or
is let in only under a keypair that is not too old, for a peer that is authorized, and with a counter
new to the keypair; the send counter starts again after `2 ^ 64` attempts. -/
def Proper (log : List Event) : Event → Prop
  | .sealed kp counter peer judged aged => Confirmed log kp ∧ Handler.authorized peer judged = true ∧
      aged - kp.created ≤ REJECT_AFTER_TIME ∧ (drawnCount kp.id log ≤ 2 ^ 64 → counter ∉ sealedUnder kp.id log)
  | .opened kp counter peer judged aged => Handler.authorized peer judged = true ∧
      aged - kp.created ≤ REJECT_AFTER_TIME ∧ counter ∉ openedUnder kp.id log
  | _ => True

/-- Two packets with one counter are `2 ^ 64` attempts apart. -/
theorem sealed_counter_new {counter : ℕ} {peer : Option PeerEntry} {judged aged : Instant}
    (hlog : Every Noted log) (hn : Noted log (.sealed kp counter peer judged aged))
    (hfew : drawnCount kp.id log ≤ 2 ^ 64) : counter ∉ sealedUnder kp.id log := by
  rintro ⟨kp', p, j, a, hm, hid⟩
  obtain ⟨-, -, -, before, rfl⟩ := hn
  obtain ⟨pre, post, he⟩ := List.append_of_mem hm
  obtain ⟨-, -, -, first, rfl⟩ := hlog pre _ post he
  -- the earlier packet and its own draw come before the last draw
  obtain ⟨post, rfl⟩ : ∃ post', post = post' ++ [.drawn kp counter] := by
    rcases List.eq_nil_or_concat post with rfl | ⟨post, c, rfl⟩
    · cases (List.append_inj' he rfl).2
    · rw [List.concat_eq_append, ← List.cons_append, ← List.append_assoc] at he
      exact ⟨post, by rw [List.concat_eq_append, (List.append_inj' he rfl).2]⟩
  rw [← List.cons_append, ← List.append_assoc] at he
  obtain rfl := (List.append_inj' he rfl).1
  have hlast : counter = drawnCount kp.id _ % 2 ^ 64 := hlog _ (.drawn kp counter) [] rfl
  have hfirst : counter = drawnCount kp'.id first % 2 ^ 64 :=
    hlog first (.drawn kp' counter) (.sealed kp' counter p j a :: post ++ [.drawn kp counter]) (by simp)
  rw [hid] at hfirst
  simp only [drawnCount, List.countP_append, List.countP_cons, Event.draws, hid, beq_self_eq_true, if_true,
    List.countP_nil] at hlast hfirst hfew
  omega

theorem Ledger.proper (hl : Ledger h) : Every Proper h.log := by
  intro pre ev post he
  have hn := hl.noted pre ev post he
  cases ev with
  | completed => trivial
  | drawn => trivial
  | sealed kp counter peer judged aged =>
    have hpre : Every Noted pre := fun a b c hp => hl.noted a b (c ++ _ :: post)
      (by rw [he, hp, List.append_assoc]; rfl)
    exact ⟨hn.1, hn.2.1, hn.2.2.1, sealed_counter_new hpre hn⟩
  | opened => exact hn

/-- A session ready to send under `kp` in a call that reads the clock as `now` says, with the counter `c`
next. -/
structure Ready (key : PublicKey) (kp : Keypair) (now : ℕ → Instant) (c : BitVec 64) (h : Handler) : Prop where
  authorized : h.isAuthorizedPeer key (now 0) = true
  current : (h.sessions.lookup key).bind (·.keypairCurrent) = some kp
  age : now 2 - kp.created ≤ REJECT_AFTER_TIME
  counter : (h.cells kp.id).sendCounter = c

/-- A change to an entry that leaves its deadline leaves it authorized. -/
theorem authorized_modify {t : Table PublicKey PeerEntry} {key k : PublicKey}
    {f : PeerEntry → PeerEntry} {now : Instant}
    (hf : ∀ p, (f p).expiresAt = p.expiresAt) :
    Handler.authorized ((t.modify key f).lookup k) now = Handler.authorized (t.lookup k) now := by
  rw [Table.lookup_modify]
  split
  · next he =>
    subst he
    cases hp : t.lookup k <;> simp [Handler.authorized, hf]
  · rfl

theorem isAuthorizedPeer_withTimers {key k : PublicKey} {f : PeerTimers → PeerTimers} {now : Instant} :
    (h.withTimers key f).isAuthorizedPeer k now = h.isAuthorizedPeer k now :=
  authorized_modify (f := fun p => { p with timers := f p.timers }) fun _ => rfl

theorem isAuthorizedPeer_touchPeerHandshake {key k : PublicKey} {seen now : Instant} :
    (h.touchPeerHandshake key seen).isAuthorizedPeer k now = h.isAuthorizedPeer k now :=
  authorized_modify (f := fun p => { p with lastHandshake := some seen }) fun _ => rfl

theorem Ready.withTimers {key : PublicKey} {now : ℕ → Instant} {c : BitVec 64} (hr : Ready key kp now c h)
    (f : PeerTimers → PeerTimers) : Ready key kp now c (h.withTimers key f) where
  authorized := isAuthorizedPeer_withTimers.trans hr.authorized
  current := hr.current
  age := hr.age
  counter := hr.counter

/-- An attempt to send takes the next counter, and seals with it unless it is past the limit. -/
theorem Ready.encrypt {key : PublicKey} {e : Env} {c : BitVec 64} (hr : Ready key kp e.now c h) (P : Primitives)
    (data : List UInt8) :
    wp (Handler.encryptDataPacket P e data key) (fun r h' => Ready key kp e.now (c + 1) h' ∧ h.log ⊆ h'.log ∧
      (c.toNat < REJECT_AFTER_MESSAGES → r.isOk = true ∧ ∃ peer judged aged,
        h'.log = h.log ++ [.drawn kp c.toNat] ++ [.sealed kp c.toNat peer judged aged])) (fun _ _ => False) h := by
  have hdraw : ∀ log, Ready key kp e.now (c + 1)
      { (h.touchSessionSent key (e.now 1)).setCell kp.id ⟨c + 1, (h.cells kp.id).replayFilter⟩ with log := log } := by
    intro log
    refine ⟨hr.authorized, ?_, hr.age, by simp [Handler.setCell]⟩
    obtain ⟨x, hx, hcur⟩ := Option.bind_eq_some_iff.mp hr.current
    simp [Handler.touchSessionSent, Handler.setCell, Table.lookup_modify, hx, hcur]
  have hcells : (h.touchSessionSent key (e.now 1)).cells = h.cells := rfl
  simp only [Handler.encryptDataPacket, Handler.encryptInto, Handler.withCurrentKeypair, ↓wp_bind,
    ↓wp_ite, ↓wp_pure,
    ↓wp_get, lt_irrefl, Env.after, hr.authorized, hr.current, ↓wp_set, ↓wp_modify, hcells, hr.counter]
  refine ⟨fun h => h.elim, fun _ => ⟨fun h => by simp at h, fun _ => ⟨fun ho => absurd hr.age (not_le.mpr ho), fun _ =>
    ⟨fun hl => ?_, fun hl => ?_⟩⟩⟩⟩
  · exact ⟨(hdraw _).withTimers _, List.subset_append_left _ _, fun hlt => absurd hlt (not_lt.mpr hl)⟩
  · exact ⟨(hdraw _).withTimers _, List.Subset.trans (List.subset_append_left _ _) (List.subset_append_left _ _),
      fun _ => ⟨rfl, _, _, _, rfl⟩⟩

theorem step_of_wp {c : Call} {Q : Handler → Prop} (hlast : s.last ≤ c.clock.at_ 0)
    (hw : wp (c.op.perform P c.env) (fun _ => Q) (fun err h => err ≠ .drawing ∧ Q h) s.handler) :
    ∃ h', s.step P c = some ⟨h', c.clock.stop⟩ ∧ Q h' := by
  simp only [wp] at hw
  rw [Running.step, if_pos hlast]
  cases hr : c.op.perform P c.env s.handler with
  | ok a h' =>
    rw [hr] at hw
    exact ⟨h', rfl, hw⟩
  | error err h' =>
    rw [hr] at hw
    cases err with
    | error kind text => exact ⟨h', rfl, hw.2⟩
    | drawing => exact absurd rfl hw.1

theorem Ready.encrypt_step {key : PublicKey} {t : Instant} {c : BitVec 64} (hr : Ready key kp (fun _ => t) c h) :
    ∃ h', Running.step P ⟨h, t⟩ (.still t 0 (.encrypt [] key)) = some ⟨h', t⟩ ∧
      Ready key kp (fun _ => t) (c + 1) h' ∧
      h.log ⊆ h'.log ∧ (c.toNat < REJECT_AFTER_MESSAGES → ∃ peer judged aged,
        h'.log = h.log ++ [.drawn kp c.toNat] ++ [.sealed kp c.toNat peer judged aged]) := by
  refine step_of_wp (s := ⟨h, t⟩) (c := .still t 0 (.encrypt [] key)) le_rfl ?_
  simp only [Call.still, Op.perform, Handler.encrypt, ↓wp_discard, ↓wp_bind]
  refine wp_mono ?_ (fun _ _ => False.elim) (Ready.encrypt hr P [])
  rintro (err | ⟨packet, rekey⟩) h' ⟨hr', hsub, hlog⟩
  · exact ⟨by simp, hr', hsub, fun hc => (hlog hc).2⟩
  · exact ⟨hr', hsub, fun hc => (hlog hc).2⟩

theorem Ready.attempts {key : PublicKey} {t : Instant} {c : BitVec 64} (n : ℕ)
    (hr : Ready key kp (fun _ => t) c h) :
    ∃ h', Runs.run (Running.step P) ⟨h, t⟩ (List.replicate n (.still t 0 (.encrypt [] key))) = some ⟨h', t⟩ ∧
      Ready key kp (fun _ => t) (c + BitVec.ofNat 64 n) h' ∧ h.log ⊆ h'.log := by
  induction n generalizing h c with
  | zero => exact ⟨h, rfl, by simpa using hr, List.Subset.refl _⟩
  | succ n ih =>
    obtain ⟨h1, hstep, hr1, hlog1, -⟩ := hr.encrypt_step (P := P)
    obtain ⟨h', hrun, hr', hlog'⟩ := ih hr1
    refine ⟨h', Runs.run_cons.mpr ⟨_, hstep, hrun⟩, ?_, List.Subset.trans hlog1 hlog'⟩
    rwa [Nat.add_comm, BitVec.ofNat_add, ← BitVec.add_assoc]

/-- Under one keypair `2 ^ 64` attempts bring its first counter back. -/
theorem counter_used_again {kp : Keypair} {peer : Option PeerEntry} {judged aged t : Instant} {key : PublicKey}
    (hr : Ready key kp (fun _ => t) 1 h) (hfirst : .sealed kp 0 peer judged aged ∈ h.log) :
    ∃ h' pre peer' judged' aged', Runs.run (Running.step P) ⟨h, t⟩
      (List.replicate (2 ^ 64) (.still t 0 (.encrypt [] key))) = some ⟨h', t⟩ ∧
      h'.log = pre ++ [.sealed kp 0 peer' judged' aged'] ∧ 0 ∈ sealedUnder kp.id pre := by
  obtain ⟨h1, hrun, hr1, hlog⟩ := hr.attempts (P := P) (2 ^ 64 - 1)
  have hzero : (1 : BitVec 64) + BitVec.ofNat 64 (2 ^ 64 - 1) = 0 := by decide
  rw [hzero] at hr1
  obtain ⟨h', hstep, -, -, hsealed⟩ := hr1.encrypt_step (P := P)
  obtain ⟨peer', judged', aged', he⟩ := hsealed (by decide)
  refine ⟨h', _, peer', judged', aged', ?_, he, kp, peer, judged, aged, ?_, rfl⟩
  · rw [show 2 ^ 64 = 2 ^ 64 - 1 + 1 from rfl, List.replicate_add]
    exact Runs.run_append.mpr ⟨_, hrun, Runs.run_cons.mpr ⟨_, hstep, rfl⟩⟩
  · exact List.mem_append_left _ (hlog hfirst)

/-- The first packet under the keypair is out, and another may follow. -/
def Handler.sentOnce (h : Handler) (key : PublicKey) (t : Instant) : Bool :=
  match (h.sessions.lookup key).bind (·.keypairCurrent) with
  | none => false
  | some kp => h.isAuthorizedPeer key t && decide (t - kp.created ≤ REJECT_AFTER_TIME) &&
      decide ((h.cells kp.id).sendCounter = 1) && h.log.any fun
        | .sealed kp' counter .. => decide (kp' = kp ∧ counter = 0)
        | _ => false

theorem ready_of_sentOnce {key : PublicKey} {t : Instant} (hs : h.sentOnce key t = true) :
    ∃ kp, Ready key kp (fun _ => t) 1 h ∧ ∃ peer judged aged, .sealed kp 0 peer judged aged ∈ h.log := by
  unfold Handler.sentOnce at hs
  split at hs
  · cases hs
  next kp hkp =>
  simp only [Bool.and_eq_true, decide_eq_true_eq, List.any_eq_true] at hs
  obtain ⟨⟨⟨hauth, hage⟩, hc⟩, ev, hmem, hev⟩ := hs
  refine ⟨kp, ⟨hauth, hkp, hage, hc⟩, ?_⟩
  cases ev with
  | sealed kp' counter peer judged aged =>
    obtain ⟨rfl, rfl⟩ := of_decide_eq_true hev
    exact ⟨peer, judged, aged, hmem⟩
  | _ => cases hev

end

end PktKit.Wg
