import PktKit.Foundations.Actions
import PktKit.Wg.Calls

/-! # What a call can do to a handler

Every call is a chain of moves, each with the guard under which the code makes it. An invariant of the
moves is an invariant of every run. The clock is part of the state: a keypair is created at the time
shown by it.
-/

namespace PktKit.Wg
open Foundations Foundations.Actions Relation

/-- Nothing but what is kept of known peers beside their keys, the load, the cookies and the memory of
removed peers changes. -/
structure Quiet (h h' : Handler) : Prop where
  privateKey : h'.privateKey = h.privateKey := by rfl
  publicKey : h'.publicKey = h.publicKey := by rfl
  mac1Key : h'.cookieChecker.mac1Key = h.cookieChecker.mac1Key := by rfl
  handshakes : h'.handshakes = h.handshakes := by rfl
  keypairs : h'.keypairs = h.keypairs := by rfl
  sessions : h'.sessions = h.sessions := by rfl
  cells : h'.cells = h.cells := by rfl
  nextId : h'.nextId = h.nextId := by rfl
  log : h'.log = h.log := by rfl
  peers : ∀ key, (h'.peers.lookup key).map (fun p => (p.publicKey, p.cookieGen.mac1Key)) =
    (h.peers.lookup key).map fun p => (p.publicKey, p.cookieGen.mac1Key) := by exact fun _ => rfl

def Handler.place (initiator : Bool) : Session → Keypair → Session × List Keypair :=
  if initiator then Handler.placeInitiator else Handler.placeResponder

namespace Handler

def sessionOr (h : Handler) (key : PublicKey) (received sent : Instant) : Session :=
  (h.sessions.lookup key).getD { lastReceived := received, lastSent := sent }

def installed (h : Handler) (kp : Keypair) (s : Session × List Keypair) : Handler :=
  { h with
    sessions := h.sessions.insert kp.peerKey s.1
    keypairs := unindex (h.keypairs.insert kp.localIndex kp) s.2 }

end Handler

def Running.on (s : Running) (h : Handler) : Running := { s with handler := h }

namespace Handler

def draw (h : Handler) (kp : Keypair) : Handler :=
  let cell := h.cells kp.id
  (h.setCell kp.id { cell with sendCounter := cell.sendCounter + 1 }).note (.drawn kp cell.sendCounter.toNat)

def slide (h : Handler) (kp : Keypair) (counter : ℕ) : Handler :=
  let cell := h.cells kp.id
  h.setCell kp.id { cell with replayFilter := (cell.replayFilter.checkReplay counter).1 }

end Handler

inductive Move (P : Primitives) : Running → Running → Prop
  | tick {s t} : s.last ≤ t → Move P s { s with last := t }
  | quiet {s h} : Quiet s.handler h → Move P s (s.on h)
  | touch {s key} {f : Session → Session} : (∀ x, (f x).keypairCurrent = x.keypairCurrent ∧
      (f x).keypairPrev = x.keypairPrev ∧ (f x).keypairNext = x.keypairNext) →
      Move P s (s.on { s.handler with sessions := s.handler.sessions.modify key f })
  | addPeer {s key p} : p.publicKey = key → p.cookieGen.mac1Key = P.calculateMac1Key key →
      Move P s (s.on { s.handler with peers := s.handler.peers.insert key p })
  | forget {s} (gone : List PublicKey) : Move P s (s.on ((gone.foldl Handler.takePeerLocked
    s.handler).forgetPeers gone))
  | supersede {s} (key : PublicKey) : Move P s (s.on { s.handler with
      handshakes := s.handler.handshakes.retain fun _ old => old.remoteStatic != key })
  | pend {s idx hs} : s.handler.inUse idx = false → hs.localIndex = idx →
      (s.handler.peers.lookup hs.remoteStatic).isSome = true →
      (∀ i old, s.handler.handshakes.lookup i = some old → old.remoteStatic ≠ hs.remoteStatic) →
      Move P s (s.on { s.handler with handshakes := s.handler.handshakes.insert idx hs })
  | complete {s} (idx : Index) : Move P s (s.on { s.handler with handshakes := s.handler.handshakes.erase idx })
  | mint {s kp} : kp.id = s.handler.nextId → Move P s (s.on (s.handler.mint kp))
  | install {s kp received sent} : kp.id = s.handler.nextId → kp.created = s.last →
      s.handler.handshakes.lookup kp.localIndex = none → s.handler.keypairs.lookup kp.localIndex = none →
      (s.handler.peers.lookup kp.peerKey).isSome = true →
      Move P s (s.on ((s.handler.mint kp).installed kp
        (Handler.place kp.isInitiator (s.handler.sessionOr kp.peerKey received sent) kp)))
  | promote {s idx kp counter peer judged aged} : s.handler.keypairs.lookup idx = some kp →
      .opened kp counter peer judged aged ∈ s.handler.log →
      Move P s (s.on (s.handler.receivedWithKeypair kp))
  | dropStale {s now} : Move P s (s.on (s.handler.cleanupHandshakes now))
  | dropExpired {s now} : Move P s (s.on (s.handler.cleanupSessions now))
  | close {s} : Move P s (s.on s.handler.close)
  | draw {s key x kp} : s.handler.sessions.lookup key = some x → x.keypairCurrent = some kp →
      Move P s (s.on (s.handler.draw kp))
  | sealed {s key x kp log counter judged aged} : s.handler.sessions.lookup key = some x →
      x.keypairCurrent = some kp → s.handler.log = log ++ [.drawn kp counter] →
      counter < REJECT_AFTER_MESSAGES → Handler.authorized (s.handler.peers.lookup key) judged = true →
      aged - kp.created ≤ REJECT_AFTER_TIME →
      Move P s (s.on (s.handler.note (.sealed kp counter (s.handler.peers.lookup kp.peerKey) judged aged)))
  | opened {s idx kp counter judged aged} : s.handler.keypairs.lookup idx = some kp →
      ((s.handler.cells kp.id).replayFilter.checkReplay counter).2 = false →
      Handler.authorized (s.handler.peers.lookup kp.peerKey) judged = true →
      aged - kp.created ≤ REJECT_AFTER_TIME →
      Move P s (s.on ((s.handler.slide kp counter).note
        (.opened kp counter (s.handler.peers.lookup kp.peerKey) judged aged)))
  | refused {s idx kp counter} : s.handler.keypairs.lookup idx = some kp →
      ((s.handler.cells kp.id).replayFilter.checkReplay counter).2 = true →
      Move P s (s.on (s.handler.slide kp counter))

/-! ## Chains of moves -/

/-- `h` comes about by a chain of moves while the clock of `s` stands. -/
def Calm (P : Primitives) (s : Running) (h : Handler) : Prop := ReflTransGen (Move P) s (s.on h)

/-- An action is a chain of moves, however it ends. -/
def Walks (P : Primitives) {α : Type} (m : Action α) : Prop :=
  ∀ s h, Calm P s h → wp m (fun _ => Calm P s) (fun _ => Calm P s) h

/-- What tells the initiations of a peer apart: its key and its last timestamp. -/
def PeerEntry.mark (p : PeerEntry) : PublicKey × Option (Bytes 12) :=
  (p.publicKey, if p.hasTimestamp then some p.lastTimestamp else none)

def Handler.marks (h : Handler) (key : PublicKey) : Option (PublicKey × Option (Bytes 12)) :=
  (h.peers.lookup key).map PeerEntry.mark

/-- Which peers there are, their timestamps and those of removed peers are the same. -/
structure Keeps (h h' : Handler) : Prop where
  marks : ∀ key, h'.marks key = h.marks key := by exact fun _ => rfl
  tombstones : h'.tombstones = h.tombstones := by rfl

/-- A chain of moves that leaves timestamps alone. -/
structure Still (P : Primitives) (s : Running) (h : Handler) : Prop where
  calm : Calm P s h
  keeps : Keeps s.handler h

/-- An action is a chain of moves that leaves timestamps alone, however it ends. -/
def Rests (P : Primitives) {α : Type} (m : Action α) : Prop :=
  ∀ s h, Still P s h → wp m (fun _ => Still P s) (fun _ => Still P s) h

section

variable {P : Primitives} {s : Running} {h h' : Handler}

theorem Calm.refl : Calm P s s.handler := ReflTransGen.refl

theorem Calm.step (hc : Calm P s h) (hm : Move P (s.on h) (s.on h')) : Calm P s h' := ReflTransGen.tail hc hm

theorem Calm.quiet (hc : Calm P s h) (hq : Quiet h h') : Calm P s h' := hc.step (.quiet hq)

end

/-! ## Quiet changes -/

section

variable {h : Handler} {key : PublicKey}

theorem quiet_modifyPeer {f : PeerEntry → PeerEntry}
    (hf : ∀ p, ((f p).publicKey, (f p).cookieGen.mac1Key) = (p.publicKey, p.cookieGen.mac1Key)) :
    Quiet h { h with peers := h.peers.modify key f } where
  peers _ := Table.map_lookup_modify hf

theorem quiet_insertPeer {p p' : PeerEntry} (hp : h.peers.lookup key = some p)
    (hm : (p'.publicKey, p'.cookieGen.mac1Key) = (p.publicKey, p.cookieGen.mac1Key)) :
    Quiet h { h with peers := h.peers.insert key p' } where
  peers _ := Table.map_lookup_insert hp hm

theorem quiet_withTimers {f : PeerTimers → PeerTimers} : Quiet h (h.withTimers key f) :=
  quiet_modifyPeer fun _ => rfl

theorem quiet_touchPeerHandshake {now : Instant} : Quiet h (h.touchPeerHandshake key now) :=
  quiet_modifyPeer fun _ => rfl

theorem quiet_setPeerExpiry {at_ : Instant} : Quiet h (h.setPeerExpiry key at_) :=
  quiet_modifyPeer fun _ => rfl

theorem addMacs_mac1Key (P : Primitives) (g : CookieGenerator) (msg : List UInt8) (now : Instant) :
    (g.addMacs P msg now).1.mac1Key = g.mac1Key := by
  unfold CookieGenerator.addMacs
  split <;> rfl

theorem quiet_cookieAddMacs (P : Primitives) {pkt : List UInt8} {now : Instant} :
    Quiet h (h.cookieAddMacs P key pkt now).1 := by
  unfold Handler.cookieAddMacs
  split
  · next p hp => exact quiet_insertPeer hp (congrArg (Prod.mk _) (addMacs_mac1Key P _ _ _))
  · split <;> exact {}

end

/-! ## Changes that leave timestamps alone -/

section

variable {P : Primitives} {s h h' : Handler} {key : PublicKey}

theorem Keeps.same (hp : h'.peers = h.peers) (ht : h'.tombstones = h.tombstones) : Keeps h h' where
  marks key := by rw [Handler.marks, hp, Handler.marks]
  tombstones := ht

theorem Keeps.trans (hs : Keeps s h) (hh : Keeps h h') : Keeps s h' where
  marks key := (hh.marks key).trans (hs.marks key)
  tombstones := hh.tombstones.trans hs.tombstones

theorem keeps_insert {p p' : PeerEntry} (hp : h.peers.lookup key = some p) (hm : p'.mark = p.mark) :
    Keeps h { h with peers := h.peers.insert key p' } where
  marks _ := Table.map_lookup_insert hp hm

theorem keeps_of_modify {f : PeerEntry → PeerEntry} (hp : h'.peers = h.peers.modify key f)
    (ht : h'.tombstones = h.tombstones) (hf : ∀ p, (f p).mark = p.mark) : Keeps h h' where
  marks k := by
    rw [Handler.marks, hp]
    exact Table.map_lookup_modify hf
  tombstones := ht

theorem keeps_withTimers {f : PeerTimers → PeerTimers} : Keeps h (h.withTimers key f) :=
  keeps_of_modify rfl rfl fun _ => rfl

theorem keeps_cookieAddMacs {pkt : List UInt8} {now : Instant} : Keeps h (h.cookieAddMacs P key pkt now).1 := by
  unfold Handler.cookieAddMacs
  split
  · next p hp => exact keeps_insert hp rfl
  · split <;> exact .same rfl rfl

theorem keeps_receivedWithKeypair {kp : Keypair} : Keeps h (h.receivedWithKeypair kp) := by
  unfold Handler.receivedWithKeypair
  split
  · exact .same rfl rfl
  · split
    · exact .same rfl rfl
    · dsimp only
      split <;> exact Keeps.trans (.same (by rfl) (by rfl)) keeps_withTimers

end

section

variable {P : Primitives} {s : Running} {h h' : Handler} {key : PublicKey}

theorem Still.refl : Still P s s.handler := ⟨.refl, .same rfl rfl⟩

theorem Still.step (hc : Still P s h) (hm : Move P (s.on h) (s.on h')) (hk : Keeps h h') : Still P s h' :=
  ⟨hc.calm.step hm, hc.keeps.trans hk⟩

theorem Still.timers {f : PeerTimers → PeerTimers} (hc : Still P s h) : Still P s (h.withTimers key f) :=
  hc.step (.quiet quiet_withTimers) keeps_withTimers

theorem Rests.walks {α : Type} {m : Action α} (hm : Rests P m) : Walks P m := by
  intro s h hc
  exact wp_mono (fun _ _ hr => ReflTransGen.trans hc hr.calm) (fun _ _ hr => ReflTransGen.trans hc hr.calm)
    (hm (s.on h) h .refl)

end

/-! ## The calls, walked through -/

section

variable {P : Primitives} {e : Env}

theorem rests_withCurrentKeypair {s : Running} {h : Handler} {key : PublicKey} (hc : Still P s h) :
    wp (Handler.withCurrentKeypair e key) (fun r h' => Still P s h' ∧ h'.log = h.log ∧
      h'.peers = h.peers ∧ ∀ kp age, r = some (kp, age) → age = e.now 1 - kp.created ∧
        ∃ x, h'.sessions.lookup key = some x ∧ x.keypairCurrent = some kp) (fun _ => Still P s) h := by
  simp only [Handler.withCurrentKeypair, ↓wp_bind, ↓wp_get]
  cases hk : (h.sessions.lookup key).bind (·.keypairCurrent) with
  | none => simpa using hc
  | some kp =>
    obtain ⟨x, hx, hcur⟩ := Option.bind_eq_some_iff.mp hk
    simp only [↓wp_bind, ↓wp_set, ↓wp_pure, Option.some.injEq, Prod.mk.injEq, and_imp]
    refine ⟨hc.step (.touch fun _ => ⟨rfl, rfl, rfl⟩) (.same rfl rfl), rfl, rfl, ?_⟩
    rintro _ _ rfl rfl
    refine ⟨rfl, { x with lastSent := e.now 0 }, ?_, hcur⟩
    rw [Handler.touchSessionSent, Table.lookup_modify, if_pos rfl, hx]
    rfl

theorem rests_encryptInto {dstLen : ℕ} {data : List UInt8} {key : PublicKey} :
    Rests P (Handler.encryptInto P e dstLen data key) := by
  intro s h hc
  simp only [Handler.encryptInto, ↓wp_bind, ↓wp_ite, ↓wp_pure, ↓wp_get]
  refine ⟨fun _ => hc, fun _ => ⟨fun _ => hc, fun hauth => ?_⟩⟩
  refine wp_mono ?_ (fun _ _ => id) (rests_withCurrentKeypair hc)
  rintro (_ | ⟨kp, age⟩) h1 ⟨hc1, hlog, hpeers, hr⟩
  · exact hc1.timers
  obtain ⟨rfl, x, hx, hcur⟩ := hr kp age rfl
  simp only [↓wp_bind, ↓wp_ite, ↓wp_modify, ↓wp_pure, ↓wp_get]
  refine ⟨fun _ => hc1.timers, fun hage => ?_⟩
  have hdraw : Still P s (h1.draw kp) := hc1.step (.draw hx hcur) (.same rfl rfl)
  refine ⟨fun _ => hdraw.timers, fun hlim => ?_⟩
  refine (hdraw.step (.sealed hx hcur rfl (not_le.mp hlim) ?_ (not_lt.mp hage)) (.same rfl rfl)).timers
  have hpeer : h1.peers.lookup key = h.peers.lookup key := by rw [hpeers]
  simpa [Running.on, Handler.draw, Handler.note, Handler.setCell, hpeer, Handler.isAuthorizedPeer] using hauth

@[simp] theorem wp_fail {α : Type} {kind : ErrorKind} {text : String} {Q : α → Handler → Prop}
    {E : Failure → Handler → Prop} {h : Handler} : wp (fail kind text) Q E h = E (.error kind text) h := rfl

theorem rests_encrypt {data : List UInt8} {key : PublicKey} : Rests P (Handler.encrypt P e data key) := by
  intro s h hc
  simp only [Handler.encrypt, Handler.encryptDataPacket, ↓wp_bind]
  refine wp_mono ?_ (fun _ _ => id) (rests_encryptInto s h hc)
  rintro (err | ⟨packet, rekey⟩) h' hc'
  · exact hc'
  · exact hc'

theorem wp_allocateIndex {h : Handler} :
    wp (Handler.allocateIndex e) (fun idx h' => h' = h ∧ h.inUse idx = false) (fun _ h' => h' = h) h := by
  simp only [Handler.allocateIndex, ↓wp_bind, ↓wp_get]
  split
  · next idx hidx =>
    have hfree := List.find?_some hidx
    simp only [Bool.and_eq_true, Bool.not_eq_true'] at hfree
    exact ⟨rfl, hfree.1.2⟩
  · rfl

theorem wp_insertHandshake {s : Running} {h : Handler} {idx : Index} {hs : Handshake} (hc : Still P s h)
    (hidx : hs.localIndex = idx) (hpeer : (h.peers.lookup hs.remoteStatic).isSome = true) :
    wp (Handler.insertHandshake idx hs) (fun _ => Still P s) (fun _ => Still P s) h := by
  simp only [Handler.insertHandshake, ↓wp_bind, ↓wp_modify, ↓wp_get, ↓wp_ite, ↓wp_fail, ↓wp_set]
  have hsup := hc.step (.supersede hs.remoteStatic) (.same rfl rfl)
  refine ⟨fun _ => hsup, fun hfree => hsup.step (.pend (Bool.eq_false_iff.mpr hfree) hidx hpeer ?_) (.same rfl rfl)⟩
  intro i old hold
  have hret := Option.filter_eq_some_iff.mp (Table.lookup_retain.symm.trans hold)
  simpa using hret.2

theorem isSome_of_isAuthorizedPeer {h : Handler} {key : PublicKey} {now : Instant}
    (ha : ¬ (!h.isAuthorizedPeer key now) = true) : (h.peers.lookup key).isSome = true := by
  unfold Handler.isAuthorizedPeer Handler.authorized at ha
  cases hp : h.peers.lookup key with
  | none => simp [hp] at ha
  | some p => rfl

theorem rests_initiateHandshakeAt {key : PublicKey} {at_ : Instant} :
    Rests P (Handler.initiateHandshakeAt P e key at_) := by
  intro s h hc
  simp only [Handler.initiateHandshakeAt, ↓wp_bind, ↓wp_get, ↓wp_ite, ↓wp_fail, ↓wp_ofExcept, ↓wp_pure, ↓wp_set]
  refine ⟨fun _ => hc, fun hauth => ⟨fun ss _ => ⟨fun es _ => ⟨fun _ => hc, fun _ => ⟨fun _ => hc, fun _ => ?_⟩⟩,
    fun _ _ => hc⟩, fun _ _ => hc⟩⟩
  refine wp_mono ?_ (by rintro _ _ rfl; exact hc) wp_allocateIndex
  rintro idx _ ⟨rfl, -⟩
  refine wp_mono ?_ (fun _ _ => id) (wp_insertHandshake hc rfl (isSome_of_isAuthorizedPeer hauth))
  intro _ h1 hc1
  exact (hc1.step (.quiet (quiet_cookieAddMacs P)) keeps_cookieAddMacs).timers

theorem consumeReply_mac1Key {g g' : CookieGenerator} {nonce : Bytes 24} {ct : List UInt8} {now : Instant}
    (hg : g.consumeReply P nonce ct now = .ok g') : g'.mac1Key = g.mac1Key := by
  unfold CookieGenerator.consumeReply at hg
  split at hg
  · cases hg
  · cases hx : P.xaeadOpen g.encryptionKey nonce ct g.lastMac1.val with
    | error => simp [hx, bind, Except.bind] at hg
    | ok pt =>
      simp only [hx, bind, Except.bind] at hg
      split at hg
      · cases hg
      · cases hg
        rfl

theorem rests_processCookieReply {data : List UInt8} : Rests P (Handler.processCookieReply P e data) := by
  intro s h hc
  simp only [Handler.processCookieReply, ↓wp_bind, ↓wp_get, ↓wp_ite, ↓wp_fail]
  refine ⟨fun _ => hc, fun _ => ?_⟩
  split
  · exact hc
  next hs hhs =>
  split
  · exact hc
  next p hp =>
  simp only [↓wp_bind, ↓wp_ofExcept, ↓wp_set, ↓wp_pure]
  exact ⟨fun g hg => hc.step (.quiet (quiet_insertPeer hp (congrArg (Prod.mk _) (consumeReply_mac1Key hg))))
    (keeps_insert hp rfl), fun _ _ => hc⟩

theorem still_acceptData {s : Running} {h : Handler} {idx : Index} {kp : Keypair} {hasData : Bool} {counter : ℕ}
    {peer : Option PeerEntry} {judged aged : Instant} (hc : Still P s h) (hkp : h.keypairs.lookup idx = some kp)
    (hlog : .opened kp counter peer judged aged ∈ h.log) : Still P s (h.acceptData e kp hasData) :=
  (hc.step (.promote hkp hlog) keeps_receivedWithKeypair).timers.step (.touch fun _ => ⟨rfl, rfl, rfl⟩)
    (.same rfl rfl)

theorem rests_processDataPacket {data : List UInt8} : Rests P (Handler.processDataPacket P e data) := by
  intro s h hc
  simp only [Handler.processDataPacket, ↓wp_bind, ↓wp_get, ↓wp_ite, ↓wp_fail]
  refine ⟨fun _ => hc, fun _ => ⟨fun _ => hc, fun _ => ?_⟩⟩
  split
  · exact hc
  next kp hkp =>
  simp only [↓wp_bind, ↓wp_ite, ↓wp_fail, ↓wp_throw, ↓wp_ofExcept, ↓wp_modify, ↓wp_pure]
  refine ⟨fun _ => hc, fun hage => ⟨fun _ => hc, fun hauth =>
    ⟨fun _ => hc, fun _ => ⟨fun pt _ => ?_, fun _ _ => hc⟩⟩⟩⟩
  refine ⟨fun hrep => hc.step (.refused hkp hrep) (.same rfl rfl), fun hrep => ?_⟩
  have hopen := hc.step (.opened hkp (Bool.eq_false_iff.mpr hrep)
    (by simpa [Running.on, Handler.isAuthorizedPeer] using hauth)
    (not_lt.mp hage)) (.same rfl rfl)
  exact still_acceptData hopen hkp (List.mem_append_right _ (List.mem_singleton_self _))

theorem rests_attempt {α : Type} {m : Action α} (hm : Rests P m) : Rests P (Handler.attempt m) := by
  intro s h hc
  have hw := hm s h hc
  simp only [wp, Handler.attempt] at hw ⊢
  cases hr : m h with
  | ok a t => simpa only [hr] using hw
  | error err t => cases err <;> simpa only [hr] using hw

theorem rests_pollHandshake {now : Instant} {key : PublicKey} {due : Option Bool} :
    Rests P (Handler.pollHandshake P e now key due) := by
  intro s h hc
  unfold Handler.pollHandshake
  split
  · exact hc
  · exact hc
  · simp only [↓wp_bind]
    refine wp_mono ?_ (fun _ _ => id) (rests_attempt rests_initiateHandshakeAt s h hc)
    rintro (_ | packet) h' hc' <;> exact hc'

theorem rests_pollKeepalive {key : PublicKey} : Rests P (Handler.pollKeepalive P e key) := by
  intro s h hc
  simp only [Handler.pollKeepalive, ↓wp_bind, ↓wp_get, ↓wp_ite, ↓wp_modify, ↓wp_pure]
  refine ⟨fun _ => ?_, fun _ => hc.timers⟩
  refine wp_mono ?_ (fun _ _ => id) (rests_attempt rests_encrypt s h hc)
  rintro (_ | packet) h' hc' <;> exact hc'

theorem rests_pollPeer {now : Instant} {key : PublicKey} : Rests P (Handler.pollPeer P e now key) := by
  intro s h hc
  simp only [Handler.pollPeer, ↓wp_bind, ↓wp_get]
  split
  · exact hc
  simp only [↓wp_bind, ↓wp_set]
  refine wp_mono ?_ (fun _ _ => id) (rests_pollHandshake s _ (hc.timers))
  intro first h1 hc1
  simp only [↓wp_ite, ↓wp_bind, ↓wp_pure]
  refine ⟨fun _ => ?_, fun _ => hc1⟩
  exact wp_mono (fun _ _ => id) (fun _ _ => id) (rests_pollKeepalive s h1 hc1)

theorem rests_mapM {α β : Type} {f : α → Action β} (hf : ∀ a, Rests P (f a)) (l : List α) :
    Rests P (l.mapM f) := by
  induction l with
  | nil => exact fun s h hc => hc
  | cons a l ih =>
    intro s h hc
    simp only [List.mapM_cons, ↓wp_bind, ↓wp_pure]
    refine wp_mono ?_ (fun _ _ => id) (hf a s h hc)
    intro b h1 hc1
    exact wp_mono (fun _ _ => id) (fun _ _ => id) (ih s h1 hc1)

theorem rests_pollTimers {rands : ℕ → Env} : Rests P (Handler.pollTimers P e rands) := by
  intro s h hc
  simp only [Handler.pollTimers, ↓wp_bind, ↓wp_get, ↓wp_pure]
  exact wp_mono (fun _ _ => id) (fun _ _ => id) (rests_mapM (fun _ => rests_pollPeer) _ s h hc)

/-! ## Peers -/

theorem newEntry_keys {h : Handler} {key : PublicKey} {psk : PresharedKey} {hasPsk : Bool} :
    (h.newEntry P key psk hasPsk).publicKey = key ∧
      (h.newEntry P key psk hasPsk).cookieGen.mac1Key = P.calculateMac1Key key := by
  simp only [Handler.newEntry, Tombstones.restore]
  split <;> exact ⟨rfl, rfl⟩

theorem calm_addPeerLocked {s : Running} {h : Handler} {key : PublicKey} {unknown : Bool} (hc : Calm P s h) :
    Calm P s (h.addPeerLocked P key unknown) := by
  unfold Handler.addPeerLocked
  split
  · next p hp => exact hc.quiet (quiet_insertPeer hp rfl)
  · exact hc.step (.addPeer newEntry_keys.1 newEntry_keys.2)

theorem calm_addPeerWithPsk {s : Running} {h : Handler} {key : PublicKey} {psk : PresharedKey} (hc : Calm P s h) :
    Calm P s (h.addPeerWithPsk P key psk) := by
  unfold Handler.addPeerWithPsk
  split
  · next p hp => exact hc.quiet (quiet_insertPeer hp rfl)
  · exact hc.step (.addPeer newEntry_keys.1 newEntry_keys.2)

theorem forgetPeers_addPeerLocked {h : Handler} {key : PublicKey} {unknown : Bool} {gone : List PublicKey} :
    (h.addPeerLocked P key unknown).forgetPeers gone = (h.forgetPeers gone).addPeerLocked P key unknown := by
  unfold Handler.addPeerLocked
  rw [show (h.forgetPeers gone).peers = h.peers from rfl]
  split <;> rfl

theorem walks_addUnknownPeer {key : PublicKey} : Walks P (Handler.addUnknownPeer P e key) := by
  intro s h hc
  simp only [Handler.addUnknownPeer, ↓wp_bind, ↓wp_get, ↓wp_ite, ↓wp_set]
  refine ⟨fun _ => ?_, fun _ => calm_addPeerLocked hc⟩
  split
  · exact hc
  · next v hv =>
    rw [wp_set, forgetPeers_addPeerLocked]
    exact calm_addPeerLocked (hc.step (.forget [v]))

theorem calm_pruneExpiredPeers {s : Running} {h : Handler} {now : Instant} (hc : Calm P s h) :
    Calm P s (h.pruneExpiredPeers now) := by
  unfold Handler.pruneExpiredPeers
  dsimp only
  split
  · next hnil =>
    rw [List.isEmpty_iff.mp hnil]
    exact hc
  · exact hc.step (.forget _)

theorem calm_maintenance {s : Running} {h : Handler} (hc : Calm P s h) : Calm P s (Handler.maintenance e h) :=
  ((calm_pruneExpiredPeers hc).step .dropStale).step .dropExpired

/-! ## Handshakes that end in a keypair -/

def Session.promoted (x : Session) (next : Keypair) : Session :=
  { x with keypairNext := none, keypairPrev := x.keypairCurrent, keypairCurrent := some next }

theorem receivedWithKeypair_cases (h : Handler) (kp : Keypair) : h.receivedWithKeypair kp = h ∨
    ∃ x next, h.sessions.lookup kp.peerKey = some x ∧ x.keypairNext = some next ∧ next.id = kp.id ∧
      Quiet { h with
        sessions := h.sessions.insert kp.peerKey (x.promoted next)
        keypairs := Handler.unindex h.keypairs x.keypairPrev.toList } (h.receivedWithKeypair kp) := by
  unfold Handler.receivedWithKeypair
  split
  · exact .inl rfl
  next x hx =>
  split
  · exact .inl rfl
  next hn =>
  obtain ⟨next, hnext, hid⟩ : ∃ next, x.keypairNext = some next ∧ next.id = kp.id := by
    simpa [Option.any_eq_true] using hn
  refine .inr ⟨x, next, hx, hnext, hid, ?_⟩
  dsimp only
  rw [hnext]
  cases x.keypairPrev with
  | none => exact quiet_withTimers
  | some old => exact quiet_withTimers

/-- A pending handshake is kept under its own index. -/
def Handler.Own (h : Handler) : Prop := ∀ idx hs, h.handshakes.lookup idx = some hs → hs.localIndex = idx

/-- Taking peers out touches nothing else but the memory of them. -/
theorem takePeers_eq (h : Handler) (gone : List PublicKey) : ∃ peers tombstones,
    gone.foldl Handler.takePeerLocked h = { h with peers := peers, tombstones := tombstones } := by
  induction gone generalizing h with
  | nil => exact ⟨h.peers, h.tombstones, rfl⟩
  | cons k gone ih =>
    obtain ⟨peers, tombstones, he⟩ := ih (h.takePeerLocked k)
    refine ⟨peers, tombstones, ?_⟩
    rw [List.foldl_cons, he, Handler.takePeerLocked]
    split <;> rfl

theorem lookup_takePeers {h : Handler} {gone : List PublicKey} {key : PublicKey} :
    (gone.foldl Handler.takePeerLocked h).peers.lookup key = if key ∈ gone then none else h.peers.lookup key := by
  induction gone generalizing h with
  | nil => simp
  | cons g gone ih =>
    have hone : (h.takePeerLocked g).peers.lookup key = if key = g then none else h.peers.lookup key := by
      unfold Handler.takePeerLocked
      split
      · exact Table.lookup_erase_eq
      · next hg =>
        split
        · next he => exact he ▸ hg
        · rfl
    rw [List.foldl_cons, ih, hone]
    by_cases h1 : key ∈ gone <;> by_cases h2 : key = g <;> simp [h1, h2]

theorem Move.own {s s' : Running} (hm : Move P s s') (ho : s.handler.Own) : s'.handler.Own := by
  intro idx hs hl
  cases hm with
  | quiet hq => exact ho idx hs (hq.handshakes ▸ hl)
  | forget gone =>
    obtain ⟨peers, tombstones, he⟩ := takePeers_eq s.handler gone
    simp only [Running.on, he, Handler.forgetPeers, Table.lookup_retain, Option.filter_eq_some_iff] at hl
    exact ho idx hs hl.1
  | supersede =>
    simp only [Running.on, Table.lookup_retain, Option.filter_eq_some_iff] at hl
    exact ho idx hs hl.1
  | pend _ hidx _ _ =>
    simp only [Running.on, Table.lookup_insert_eq] at hl
    split at hl
    · next he =>
      cases hl
      rw [hidx, he]
    · exact ho idx hs hl
  | complete =>
    simp only [Running.on, Table.lookup_erase_eq] at hl
    split at hl
    · cases hl
    · exact ho idx hs hl
  | @promote _ kp =>
    rcases receivedWithKeypair_cases s.handler kp with he | ⟨x, next, -, -, -, hq⟩
    · exact ho idx hs (by rwa [Running.on, he] at hl)
    · exact ho idx hs (hq.handshakes ▸ hl)
  | dropStale =>
    simp only [Running.on, Handler.cleanupHandshakes, Table.lookup_retain, Option.filter_eq_some_iff] at hl
    exact ho idx hs hl.1
  | close => simp [Running.on, Handler.close] at hl
  | _ => exact ho idx hs hl

theorem own_of_chain {s s' : Running} (hc : ReflTransGen (Move P) s s') (ho : s.handler.Own) : s'.handler.Own := by
  induction hc with
  | refl => exact ho
  | tail _ hm ih => exact hm.own ih

/-- `h` comes about by a chain of moves during a call that reads the clock as `e` says. -/
def Along (P : Primitives) (e : Env) (s : Running) (h : Handler) : Prop :=
  ∃ t, ReflTransGen (Move P) s ⟨h, t⟩ ∧ ∃ i, t ≤ e.now i

theorem Calm.along {s : Running} {h : Handler} (hs : s.last ≤ e.now 0) (hc : Calm P s h) : Along P e s h :=
  ⟨s.last, hc, 0, hs⟩

/-- What installing leaves: on success the keypair in its place, else nothing changed. -/
theorem wp_install {h : Handler} {key : PublicKey} {kp : Keypair}
    {place : Session → Keypair → Session × List Keypair}
    (hkey : kp.peerKey = key) :
    wp (Handler.install e key kp place) (fun _ h' => (h.peers.lookup key).isSome = true ∧
      h.keypairs.lookup kp.localIndex = none ∧
      h' = h.installed kp (place (h.sessionOr key (e.now 1) (e.now 2)) kp)) (fun _ h' => h' = h) h := by
  subst hkey
  simp only [Handler.install, ↓wp_bind, ↓wp_get, ↓wp_ite, ↓wp_fail, ↓wp_set]
  refine ⟨fun _ => trivial, fun hauth => ⟨fun _ => trivial, fun hfree => ?_⟩⟩
  exact ⟨isSome_of_isAuthorizedPeer hauth, by simpa using hfree, rfl⟩

theorem along_install {e' : Env} {s : Running} {h : Handler} {key : PublicKey} {kp : Keypair} (hc : Calm P s h)
    (hlast : s.last ≤ kp.created) (hid : kp.id = h.nextId) (hfree : h.handshakes.lookup kp.localIndex = none)
    (hkey : kp.peerKey = key) :
    wp (Handler.install e' key kp (Handler.place kp.isInitiator))
      (fun _ h' => ReflTransGen (Move P) s ⟨h', kp.created⟩) (fun _ => Calm P s) (h.mint kp) := by
  refine wp_mono ?_ ?_ (wp_install hkey)
  · rintro _ h' ⟨hpeer, hkp, rfl⟩
    have htick : ReflTransGen (Move P) s ⟨h, kp.created⟩ := ReflTransGen.tail hc (.tick hlast)
    subst hkey
    exact htick.tail (Move.install (s := ⟨h, kp.created⟩) hid rfl hfree hkp hpeer)
  · rintro _ h' rfl
    exact hc.step (.mint hid)

theorem openResponse_lookup {h : Handler} {data : List UInt8} {hs : Handshake} {chainKey : Bytes 32}
    (hr : h.openResponse P e data = .ok (hs, chainKey)) :
    h.handshakes.lookup (BitVec.ofNat 32 (ofLeBytes (slice data 8 12))) = some hs := by
  simp only [Handler.openResponse, except_guard_ok] at hr
  obtain ⟨-, -, hr⟩ := hr
  split at hr
  · cases hr
  next hs' hlook =>
  simp only [except_guard_ok, except_bind_ok] at hr
  obtain ⟨-, -, _, -, _, -, _, -, -, hr⟩ := hr
  cases hr
  exact hlook

theorem walks_processHandshakeResponse {s : Running} {h : Handler} {data : List UInt8} (he : Monotone e.now)
    (hs : s.last ≤ e.now 0) (ho : s.handler.Own) (hc : Calm P s h) :
    wp (Handler.processHandshakeResponse P e data) (fun _ => Along P e s) (fun _ => Along P e s) h := by
  have hcalm : ∀ {h'}, Calm P s h' → Along P e s h' := Calm.along hs
  simp only [Handler.processHandshakeResponse, ↓wp_bind, ↓wp_get, ↓wp_ite, ↓wp_fail, ↓wp_ofExcept, ↓wp_modify,
    ↓wp_set, ↓wp_pure, Handler.completeHandshake]
  refine ⟨fun r hr => ?_, fun _ _ => hcalm hc⟩
  obtain ⟨hs', chainKey⟩ := r
  have hdone := hc.step (.complete (BitVec.ofNat 32 (ofLeBytes (slice data 8 12))))
  refine ⟨fun _ => hcalm hdone, fun _ => ?_⟩
  have htimers := hdone.quiet (@quiet_withTimers _ hs'.remoteStatic
    fun t => t.handshakeComplete.packetReceived (e.now 1) false)
  refine wp_mono ?_ (fun _ _ => hcalm) (along_install htimers (hs.trans (he (Nat.zero_le 2))) rfl ?_ rfl)
  · intro _ h1 hchain
    have hc1 : Calm P ⟨h1, e.now 2⟩ (h1.touchPeerHandshake hs'.remoteStatic (e.now 6)) :=
      Calm.refl.quiet quiet_touchPeerHandshake
    refine wp_mono ?_ ?_ (rests_encryptInto.walks ⟨h1, e.now 2⟩ _ hc1)
    · rintro (err | ⟨keepalive, rekey⟩) h2 hc2 <;> exact ⟨e.now 2, hchain.trans hc2, 2, le_rfl⟩
    · exact fun _ h2 hc2 => ⟨e.now 2, hchain.trans hc2, 2, le_rfl⟩
  · have hown : hs'.localIndex = BitVec.ofNat 32 (ofLeBytes (slice data 8 12)) :=
      own_of_chain hc ho _ hs' (openResponse_lookup hr)
    exact hown ▸ AList.lookup_erase _ _

theorem quiet_underLoad {h : Handler} {count : Bool} {now : Instant} : Quiet h (h.underLoad count now).1 where

theorem maybeRefresh_mac1Key {c : CookieChecker} {random : Bytes 32} {now again : Instant} :
    (c.maybeRefresh random now again).mac1Key = c.mac1Key := by
  unfold CookieChecker.maybeRefresh
  split <;> rfl

theorem rests_admitInitiation {replay : Bool} {data : List UInt8} {addr : SocketAddr} :
    Rests P (Handler.admitInitiation P e replay data addr) := by
  intro s h hc
  simp only [Handler.admitInitiation, ↓wp_bind, ↓wp_get, ↓wp_set, ↓wp_ite, ↓wp_pure, ↓wp_fail]
  have hquiet : ∀ {h'}, Quiet h h' → Keeps h h' → Still P s h' := fun hq hk => hc.step (.quiet hq) hk
  have hload := hquiet (@quiet_underLoad h (!replay) (e.now 0)) (.same rfl rfl)
  refine ⟨fun _ => hload, fun _ => ⟨fun _ => hquiet { mac1Key := maybeRefresh_mac1Key } (.same rfl rfl), fun _ =>
    ⟨fun _ => hload, fun _ => ⟨fun _ => hquiet {} (.same rfl rfl), fun _ => hquiet {} (.same rfl rfl)⟩⟩⟩⟩

theorem walks_acceptPeerInitiation {key : PublicKey} {ts : List UInt8} {now : Instant} :
    Walks P (Handler.acceptPeerInitiation key ts now) := by
  intro s h hc
  simp only [Handler.acceptPeerInitiation, ↓wp_bind, ↓wp_get]
  split
  · exact hc
  next p hp =>
  simp only [↓wp_bind, ↓wp_ite, ↓wp_fail, ↓wp_set]
  exact ⟨fun _ => hc, fun _ => ⟨fun _ => hc, fun _ => hc.quiet (quiet_insertPeer hp rfl)⟩⟩

theorem walks_processHandshakeInitiation {s : Running} {h : Handler} {replay : Bool} {data : List UInt8}
    {addr : SocketAddr} (he : Monotone e.now) (hs : s.last ≤ e.now 0) (hc : Calm P s h) :
    wp (Handler.processHandshakeInitiation P e replay data addr) (fun _ => Along P e s)
      (fun _ => Along P e s) h := by
  have hcalm : ∀ {h'}, Calm P s h' → Along P e s h' := Calm.along hs
  simp only [Handler.processHandshakeInitiation, ↓wp_bind, ↓wp_get, ↓wp_ite, ↓wp_fail]
  refine ⟨fun _ => hcalm hc, fun _ => ⟨fun _ => hcalm hc, fun _ => ?_⟩⟩
  refine wp_mono ?_ (fun _ _ => hcalm) (rests_admitInitiation.walks s h hc)
  rintro (_ | reply) h1 hc1
  swap
  · exact hcalm hc1
  simp only [↓wp_bind, ↓wp_get, ↓wp_ofExcept, ↓wp_ite, ↓wp_fail]
  refine ⟨fun i _ => ⟨fun _ => hcalm hc1, fun _ => ?_⟩, fun _ _ => hcalm hc1⟩
  refine wp_mono ?_ (fun _ _ => hcalm) (walks_acceptPeerInitiation s h1 hc1)
  intro _ h2 hc2
  refine wp_mono ?_ ?_ wp_allocateIndex
  swap
  · rintro _ h3 rfl
    exact hcalm hc2
  rintro localIdx h3 ⟨rfl, hfree⟩
  simp only [↓wp_modify, ↓wp_set, ↓wp_pure]
  refine ⟨fun r _ => ?_, fun _ _ => hcalm hc2⟩
  obtain ⟨body, chainKey⟩ := r
  have hnone : h3.handshakes.lookup localIdx = none := by
    simp only [Handler.inUse, Bool.or_eq_false_iff] at hfree
    simpa using hfree.1
  refine wp_mono ?_ (fun _ _ => hcalm) (along_install hc2 (hs.trans (he (Nat.zero_le 7))) rfl hnone rfl)
  intro _ h4 hchain
  exact ⟨e.now 7, hchain.tail (Move.quiet (s := ⟨h4, e.now 7⟩) quiet_touchPeerHandshake), 7, le_rfl⟩

/-! ## Calls -/

theorem walks_processPacketAs {s : Running} {h : Handler} {replay : Bool} {data : List UInt8} {addr : SocketAddr}
    (he : Monotone e.now) (hs : s.last ≤ e.now 0) (ho : s.handler.Own) (hc : Calm P s h) :
    wp (Handler.processPacketAs P e replay data addr) (fun _ => Along P e s) (fun _ => Along P e s) h := by
  have hcalm : ∀ {h'}, Calm P s h' → Along P e s h' := Calm.along hs
  simp only [Handler.processPacketAs, ↓wp_bind, ↓wp_ite, ↓wp_fail]
  refine ⟨fun _ => hcalm hc, fun _ => ⟨fun _ => ?_, fun _ => ⟨fun _ => ?_, fun _ => ⟨fun _ => ?_, fun _ =>
    ⟨fun _ => ?_, fun _ => hcalm hc⟩⟩⟩⟩⟩
  · exact walks_processHandshakeInitiation he hs hc
  · exact walks_processHandshakeResponse he hs ho hc
  · exact wp_mono (fun _ _ => hcalm) (fun _ _ => hcalm) (rests_processCookieReply.walks s h hc)
  · exact wp_mono (fun _ _ => hcalm) (fun _ _ => hcalm) (rests_processDataPacket.walks s h hc)

theorem monotone_after (he : Monotone e.now) (k : ℕ) : Monotone (e.after k).now :=
  fun _ _ hij => he (Nat.add_le_add_left hij k)

theorem walks_acceptUnknownPeer {s : Running} {h : Handler} {key : PublicKey} {packet : List UInt8}
    {addr : SocketAddr} (he : Monotone e.now) (hs : s.last ≤ e.now 0) (ho : s.handler.Own) (hc : Calm P s h) :
    wp (Handler.acceptUnknownPeer P e key packet addr) (fun _ => Along P e s) (fun _ => Along P e s) h := by
  have hcalm : ∀ {h'}, Calm P s h' → Along P e s h' := Calm.along hs
  have hafter : ∀ {h'}, Along P (e.after 2) s h' → Along P e s h' :=
    fun ⟨t, hchain, i, hi⟩ => ⟨t, hchain, 2 + i, hi⟩
  simp only [Handler.acceptUnknownPeer, ↓wp_bind, ↓wp_get, ↓wp_ite, ↓wp_fail, ↓wp_pure]
  refine wp_mono ?_ (fun _ _ => hcalm) (walks_addUnknownPeer s h hc)
  intro _ h1 hc1
  refine ⟨fun _ => hcalm hc1, fun _ => ?_⟩
  exact wp_mono (fun _ _ => hafter) (fun _ _ => hafter)
    (walks_processPacketAs (monotone_after he 2) (hs.trans (he (Nat.zero_le 2))) ho hc1)

theorem walks_perform {s : Running} {op : Op} (he : Monotone e.now) (hs : s.last ≤ e.now 0) (ho : s.handler.Own) :
    wp (op.perform P e) (fun _ => Along P e s) (fun _ => Along P e s) s.handler := by
  have hcalm : ∀ {h'}, Calm P s h' → Along P e s h' := Calm.along hs
  have hwalk : ∀ {α : Type} {m : Action α}, Rests P m →
      wp (discard m) (fun _ => Along P e s) (fun _ => Along P e s) s.handler := by
    intro α m hm
    rw [wp_discard]
    exact wp_mono (fun _ _ => hcalm) (fun _ _ => hcalm) (hm.walks s s.handler .refl)
  cases op with
  | processPacket data addr =>
    rw [Op.perform, wp_discard]
    exact walks_processPacketAs he hs ho .refl
  | encrypt data key => exact hwalk rests_encrypt
  | initiateHandshake key => exact hwalk rests_initiateHandshakeAt
  | addPeer key => exact hcalm (calm_addPeerLocked .refl)
  | addPeerWithPsk key psk => exact hcalm (calm_addPeerWithPsk .refl)
  | removePeer key => exact hcalm (Calm.refl.step (.forget [key]))
  | setPeerExpiry key at_ => exact hcalm (Calm.refl.quiet quiet_setPeerExpiry)
  | acceptUnknownPeer key packet addr =>
    rw [Op.perform, wp_discard]
    exact walks_acceptUnknownPeer he hs ho .refl
  | setPersistentKeepalive key interval => exact hcalm (Calm.refl.quiet quiet_withTimers)
  | pollTimers rands => exact hwalk rests_pollTimers
  | maintenance => exact hcalm (calm_maintenance .refl)
  | close => exact hcalm (Calm.refl.step .close)

theorem chain_of_step {s s' : Running} {c : Call} (ho : s.handler.Own) (h : s.step P c = some s') :
    ReflTransGen (Move P) s s' := by
  unfold Running.step at h
  split at h
  swap
  · cases h
  next hlast =>
  have hw : wp (c.op.perform P c.env) (fun _ => Along P c.env s) (fun _ => Along P c.env s) s.handler :=
    walks_perform c.clock.mono hlast ho
  have hend : ∀ {h'}, Along P c.env s h' → ReflTransGen (Move P) s ⟨h', c.clock.stop⟩ := by
    rintro h' ⟨t, hchain, i, hi⟩
    exact hchain.tail (Move.tick (s := ⟨h', t⟩) (hi.trans (c.clock.le_stop i)))
  simp only [wp] at hw
  split at h
  · next h' hr =>
    rw [hr] at hw
    cases h
    exact hend hw
  · next h' hr =>
    rw [hr] at hw
    cases h
    exact hend hw
  · cases h

theorem run_moves {I : Running → Prop} {s s' : Running} {calls : List Call}
    (hI : ∀ s s', Move P s s' → I s → I s') (h : Runs.run (Running.step P) s calls = some s')
    (ho : s.handler.Own) (hs : I s) : I s' := by
  have hboth := Runs.run_invariant (P := fun s => s.handler.Own ∧ I s) ?_ h ⟨ho, hs⟩
  · exact hboth.2
  · rintro s c t ⟨ho, hs⟩ hstep
    have hchain := chain_of_step ho hstep
    refine ⟨own_of_chain hchain ho, ?_⟩
    clear hstep
    induction hchain with
    | refl => exact hs
    | tail _ hm ih => exact hI _ _ hm ih

end

end PktKit.Wg
