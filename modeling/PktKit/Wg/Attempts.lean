import PktKit.Wg.Moves

/-! # Handshake attempts

The timers of one peer over whole runs: initiations are paced, an unanswered attempt is given up after a
fixed number of them, and then nothing is begun until something happens.
-/

namespace PktKit.Wg

/-- How a keepalive that is due ends: sealed, refused by the session, or without one. -/
inductive Keepalive
  | sent (rekey : Bool)
  | refused (want : Bool)
  | noSession (authorized : Bool)

/-- One poll of a peer's timers: what it draws, whether the initiation could be built, and when and how a
keepalive ends. -/
structure Poll where
  now : Instant
  random : ℕ
  built : Option ℕ
  stop : Instant
  keepalive : Keepalive

namespace PeerTimers

def keepalivePoll (t : PeerTimers) (now : Instant) : Keepalive → PeerTimers
  | .sent rekey =>
    let t := t.packetSent now false
    { t with wantHandshake := t.wantHandshake || rekey }
  | .refused want => { t with wantHandshake := t.wantHandshake || want }
  | .noSession authorized =>
    { t with keepaliveDueSince := none, wantHandshake := t.wantHandshake || authorized }

/-- The timers after a poll, and whether it begins an initiation; `none` is an attempt given up. -/
def poll (t : PeerTimers) (p : Poll) : PeerTimers × Option Bool :=
  let (t, due) := t.handshakeDue p.now
  let t := if due = some true then t.initiationSent p.now p.random else t
  let keepalive := t.keepaliveDue p.now
  let t := if due = some true then p.built.elim t (t.initiationSent p.now) else t
  let t := if keepalive then t.keepalivePoll p.stop p.keepalive else t
  (t, due)

end PeerTimers

/-- What happens to the timers of a peer. A send is an attempt to seal a packet: `refused` is one that
finds no keypair fit for it. -/
inductive TimerEvent
  | poll (p : Poll)
  | sent (now : Instant) (data want : Bool)
  | refused (now : Instant)
  | received (now : Instant) (data want : Bool)
  | completed (now : Instant)
  | initiated (now : Instant) (random : ℕ)
  | setKeepalive (now : Instant) (interval : Option Duration)

namespace TimerEvent

def start : TimerEvent → Instant
  | .poll p => p.now
  | .sent now _ _ | .refused now | .received now _ _ | .completed now | .initiated now _ | .setKeepalive now _ =>
    now

def stop : TimerEvent → Instant
  | .poll p => p.stop
  | ev => ev.start

/-- No handshake completes, none is started by another call, and the initiation can be built. -/
def Unanswered : TimerEvent → Prop
  | .poll p => p.built.isSome = true
  | .completed _ | .initiated .. => False
  | .sent .. | .refused _ | .received .. | .setKeepalive .. => True

def Ordered : Instant → List TimerEvent → Prop
  | _, [] => True
  | t, ev :: evs => t ≤ ev.start ∧ ev.start ≤ ev.stop ∧ Ordered ev.stop evs

def LATE : Duration := REKEY_TIMEOUT + .fromMillis REKEY_TIMEOUT_JITTER_MAX_MS

/-- How many of the polls come late enough after `since`, each after the one before, that an initiation
unanswered since then is sent again whatever the jitter. -/
def lapses (since : Instant) : List TimerEvent → ℕ
  | [] => 0
  | .poll p :: evs =>
    if since + LATE ≤ p.now then lapses p.now evs + 1
    else lapses since evs
  | _ :: evs => lapses since evs

end TimerEvent

theorem TimerEvent.Ordered.init {clock : Instant} {evs : List TimerEvent} {ev : TimerEvent}
    (h : TimerEvent.Ordered clock (evs ++ [ev])) : TimerEvent.Ordered clock evs := by
  induction evs generalizing clock with
  | nil => trivial
  | cons ev' evs ih => exact ⟨h.1, h.2.1, ih h.2.2⟩

namespace PeerTimers
open TimerEvent

def after (t : PeerTimers) : TimerEvent → PeerTimers
  | .poll p => (t.poll p).1
  | .sent now data want =>
    let t := t.packetSent now data
    { t with wantHandshake := t.wantHandshake || want }
  | .refused _ => { t with wantHandshake := true }
  | .received now data want =>
    let t := t.packetReceived now data
    { t with wantHandshake := t.wantHandshake || want }
  | .completed _ => t.handshakeComplete
  | .initiated now random => t.initiationSent now random
  | .setKeepalive _ interval => { t with persistentKeepalive := interval }

def run (t : PeerTimers) (evs : List TimerEvent) : PeerTimers := evs.foldl after t

def begins (t : PeerTimers) : TimerEvent → Bool
  | .poll p => (t.poll p).2 == some true
  | _ => false

def fails (t : PeerTimers) : TimerEvent → Bool
  | .poll p => (t.poll p).2 == none
  | _ => false

/-- How many initiations the polls begin. -/
def initiations (t : PeerTimers) : List TimerEvent → ℕ
  | [] => 0
  | ev :: evs => (if t.begins ev then 1 else 0) + (t.after ev).initiations evs

def givesUp (t : PeerTimers) : List TimerEvent → Bool
  | [] => false
  | ev :: evs => t.fails ev || (t.after ev).givesUp evs

def persistentDue (t : PeerTimers) (now : Instant) : Bool :=
  t.persistentKeepalive.any fun every => t.lastSent.all fun last => every ≤ now - last

/-- Nothing but polls that find no persistent keepalive due, and settings of the interval. -/
def Undisturbed (t : PeerTimers) : List TimerEvent → Prop
  | [] => True
  | .poll p :: evs => t.persistentDue p.now = false ∧ (t.after (.poll p)).Undisturbed evs
  | .setKeepalive now interval :: evs => (t.after (.setKeepalive now interval)).Undisturbed evs
  | _ => False

variable {t : PeerTimers} {p q : Poll} {ev : TimerEvent} {evs : List TimerEvent} {n : ℕ}
  {l now clock since : Instant}

theorem poll_snd : (t.poll p).2 = (t.handshakeDue p.now).2 := rfl

/-! ## Pacing -/

theorem lastInitiation_keepalivePoll {k : Keepalive} : (t.keepalivePoll now k).lastInitiation =
    t.lastInitiation := by
  cases k
  all_goals rfl

theorem lastInitiation_handshakeDue : (t.handshakeDue now).1.lastInitiation = t.lastInitiation := by
  simp only [handshakeDue]
  split
  · split
    · rfl
    · split
      all_goals rfl
  · dsimp only
    split
    all_goals rfl

theorem lastInitiation_initiationSent {random : ℕ} : (t.initiationSent now random).lastInitiation = some now := rfl

theorem lastInitiation_poll : (t.poll p).1.lastInitiation =
    if (t.poll p).2 = some true then some p.now else t.lastInitiation := by
  rw [poll_snd]
  simp only [poll]
  by_cases hdue : (t.handshakeDue p.now).2 = some true
  · simp only [if_pos hdue]
    split
    · rw [lastInitiation_keepalivePoll]
      cases p.built
      all_goals rfl
    · cases p.built
      all_goals rfl
  · simp only [if_neg hdue]
    split
    · rw [lastInitiation_keepalivePoll, lastInitiation_handshakeDue]
    · rw [lastInitiation_handshakeDue]

theorem add_le_of_le_sub {d l now : ℕ} (hd : 0 < d) (h : d ≤ now - l) : l + d ≤ now := by omega

theorem spaced_of_begins (h : (t.handshakeDue now).2 = some true) (hl : t.lastInitiation = some l) :
    l + REKEY_TIMEOUT ≤ now := by
  apply add_le_of_le_sub (by decide)
  simp only [handshakeDue, hl, Option.getD_some] at h
  cases hstart : t.attemptStarted with
  | some start =>
    simp only [hstart] at h
    split at h
    · cases h
    · next hlate => exact (Nat.le_add_right _ _).trans (not_lt.mp hlate)
  | none =>
    simp only [hstart, Option.some.injEq, Bool.and_eq_true] at h
    have hmay := h.2
    split at hmay
    all_goals simpa [hl] using hmay

theorem lastInitiation_after (hl : t.lastInitiation = some l) (hle : l ≤ ev.start) :
    ∃ l', l ≤ l' ∧ l' ≤ ev.start ∧ (t.after ev).lastInitiation = some l' := by
  cases ev with
  | poll p =>
    rw [after, lastInitiation_poll]
    split
    · exact ⟨p.now, hle, le_rfl, rfl⟩
    · exact ⟨l, le_rfl, hle, hl⟩
  | initiated now random => exact ⟨now, hle, le_rfl, rfl⟩
  | _ => exact ⟨l, le_rfl, hle, hl⟩

theorem lastInitiation_run (hl : t.lastInitiation = some l) (hle : l ≤ clock) (hord : Ordered clock evs) :
    ∃ l', l ≤ l' ∧ (t.run evs).lastInitiation = some l' := by
  induction evs generalizing t clock l with
  | nil => exact ⟨l, le_rfl, hl⟩
  | cons ev evs ih =>
    obtain ⟨hstart, hstop, hrest⟩ := hord
    obtain ⟨l₁, hl₁, hbefore, hlast⟩ := lastInitiation_after hl (hle.trans hstart)
    obtain ⟨l₂, hl₂, hrun⟩ := ih hlast (hbefore.trans hstop) hrest
    exact ⟨l₂, hl₁.trans hl₂, hrun⟩

/-! ## An attempt -/

/-- An attempt under way: its retries so far, and when its last initiation went out. -/
structure Trying (t : PeerTimers) (n : ℕ) (l : Instant) : Prop where
  started : t.attemptStarted.isSome = true
  attempts : t.attempts = n
  last : t.lastInitiation = some l
  jitter : t.jitter ≤ .fromMillis REKEY_TIMEOUT_JITTER_MAX_MS

theorem jitter_le (random : ℕ) : Duration.fromMillis (random % REKEY_TIMEOUT_JITTER_MAX_MS) ≤
    .fromMillis REKEY_TIMEOUT_JITTER_MAX_MS :=
  Nat.mul_le_mul_right _ (Nat.mod_lt _ (by decide)).le

theorem Trying.of_eq {t' : PeerTimers} (h : t.Trying n l) (hs : t'.attemptStarted = t.attemptStarted)
    (ha : t'.attempts = t.attempts) (hl : t'.lastInitiation = t.lastInitiation) (hj : t'.jitter = t.jitter) :
    t'.Trying n l :=
  ⟨hs ▸ h.started, ha.trans h.attempts, hl.trans h.last, hj ▸ h.jitter⟩

theorem Trying.keepalivePoll {k : Keepalive} (h : t.Trying n l) : (t.keepalivePoll now k).Trying n l := by
  cases k
  all_goals exact h.of_eq rfl rfl rfl rfl

theorem trying_initiationSent {random : ℕ} (hs : t.attemptStarted.isSome = true) (ha : t.attempts = n) :
    (t.initiationSent now random).Trying n now := by
  have hnone : t.attemptStarted.isNone = false := by simpa using hs
  simp only [initiationSent, hnone]
  exact ⟨hs, ha, rfl, jitter_le random⟩

/-- What is left of a poll once it is known whether it begins an initiation. -/
theorem trying_poll_of_begins (hdue : (t.handshakeDue p.now).2 = some true)
    (h : ((t.handshakeDue p.now).1.initiationSent p.now p.random).Trying n p.now) :
      (t.poll p).1.Trying n p.now := by
  have hbuilt : (p.built.elim ((t.handshakeDue p.now).1.initiationSent p.now p.random)
      (((t.handshakeDue p.now).1.initiationSent p.now p.random).initiationSent p.now)).Trying n p.now := by
    cases p.built with
    | none => exact h
    | some random => exact trying_initiationSent h.started h.attempts
  simp only [PeerTimers.poll, if_pos hdue]
  split
  · exact hbuilt.keepalivePoll
  · exact hbuilt

theorem begins_trying (hnone : t.attemptStarted = none) (hdue : (t.poll p).2 = some true) :
    (t.poll p).1.Trying 0 p.now := by
  refine trying_poll_of_begins hdue ?_
  have hstart : (t.handshakeDue p.now).1.attemptStarted.isNone = true := by
    simp only [handshakeDue, hnone]
    split
    all_goals simp [hnone]
  simp only [initiationSent, hstart]
  exact ⟨rfl, rfl, rfl, jitter_le _⟩

/-- During an attempt a poll waits, gives up or begins another initiation. -/
theorem Trying.poll (h : t.Trying n l) :
    ((t.poll p).2 = some false ∧ p.now - l < LATE ∧ (t.poll p).1.Trying n l) ∨
      ((t.poll p).2 = none ∧ MAX_TIMER_HANDSHAKES < n) ∨
      ((t.poll p).2 = some true ∧ n ≤ MAX_TIMER_HANDSHAKES ∧ (t.poll p).1.Trying (n + 1) p.now) := by
  obtain ⟨start, hstart⟩ := Option.isSome_iff_exists.mp h.started
  have hdue : t.handshakeDue p.now = if p.now - l < REKEY_TIMEOUT + t.jitter then (t, some false)
      else if t.attempts > MAX_TIMER_HANDSHAKES then
        ({ t with attemptStarted := none, wantHandshake := false, replyDueSince := none,
                  keepaliveDueSince := none }, none)
      else ({ t with attempts := t.attempts + 1 }, some true) := by
    simp only [handshakeDue, hstart, h.last, Option.getD_some]
  by_cases hwait : p.now - l < REKEY_TIMEOUT + t.jitter
  · rw [if_pos hwait] at hdue
    refine .inl ⟨by rw [poll_snd, hdue], hwait.trans_le (Nat.add_le_add_left h.jitter _), ?_⟩
    simp only [PeerTimers.poll, hdue, Option.some.injEq, Bool.false_eq_true, if_false]
    split
    · exact Trying.keepalivePoll h
    · exact h
  rw [if_neg hwait] at hdue
  by_cases hmax : t.attempts > MAX_TIMER_HANDSHAKES
  · rw [if_pos hmax] at hdue
    exact .inr (.inl ⟨by rw [poll_snd, hdue], h.attempts ▸ hmax⟩)
  · rw [if_neg hmax] at hdue
    have hsnd : (t.handshakeDue p.now).2 = some true := by rw [hdue]
    refine .inr (.inr ⟨hsnd, h.attempts ▸ not_lt.mp hmax, trying_poll_of_begins hsnd ?_⟩)
    rw [hdue]
    exact trying_initiationSent h.started (congrArg (· + 1) h.attempts)

/-- Nothing else ends an unanswered attempt. -/
theorem Trying.after (h : t.Trying n l) (hun : ev.Unanswered) (hpoll : ∀ p, ev ≠ .poll p) :
    (t.after ev).Trying n l := by
  cases ev with
  | poll p => exact absurd rfl (hpoll p)
  | completed _ => exact hun.elim
  | initiated _ _ => exact hun.elim
  | _ => exact h.of_eq rfl rfl rfl rfl

theorem not_begins (hpoll : ∀ p, ev ≠ .poll p) : t.begins ev = false := by
  cases ev with
  | poll p => exact absurd rfl (hpoll p)
  | _ => rfl

theorem begins_eq : t.begins (.poll p) = true ↔ (t.poll p).2 = some true := beq_iff_eq

theorem fails_eq : t.fails (.poll p) = true ↔ (t.poll p).2 = none := beq_iff_eq

/-- An attempt that is not given up has had its initiations counted. -/
theorem Trying.run (h : t.Trying n l) (hn : n ≤ MAX_TIMER_HANDSHAKES + 1) (hun : ∀ ev ∈ evs, ev.Unanswered)
    (hno : t.givesUp evs = false) :
    ∃ l', (t.run evs).Trying (n + t.initiations evs) l' ∧ n + t.initiations evs ≤ MAX_TIMER_HANDSHAKES + 1 := by
  induction evs generalizing t n l with
  | nil => exact ⟨l, h, hn⟩
  | cons ev evs ih =>
    obtain ⟨hev, hrest⟩ := List.forall_mem_cons.mp hun
    obtain ⟨hfails, hno⟩ := Bool.or_eq_false_iff.mp hno
    by_cases hpoll : ∃ p, ev = .poll p
    · obtain ⟨p, rfl⟩ := hpoll
      rcases h.poll (p := p) with ⟨hdue, -, hkeep⟩ | ⟨hdue, -⟩ | ⟨hdue, hmax, hnext⟩
      · have hbegins : t.begins (.poll p) = false := by rw [begins, hdue]; rfl
        rw [initiations, hbegins, if_neg Bool.false_ne_true, Nat.zero_add]
        exact ih hkeep hn hrest hno
      · rw [fails_eq.mpr hdue] at hfails
        cases hfails
      · rw [initiations, begins_eq.mpr hdue, if_pos rfl, ← Nat.add_assoc]
        exact ih hnext (Nat.succ_le_succ hmax) hrest hno
    · have hpoll' : ∀ p, ev ≠ .poll p := fun p hp => hpoll ⟨p, hp⟩
      rw [initiations, not_begins hpoll', if_neg Bool.false_ne_true, Nat.zero_add]
      exact ih (h.after hev hpoll') hn hrest hno

theorem le_sub_of_late {a b c d : ℕ} (hab : a ≤ b) (h : b + d ≤ c) : d ≤ c - a := by omega

theorem lapses_cons (hpoll : ∀ p, ev ≠ .poll p) : lapses since (ev :: evs) = lapses since evs := by
  cases ev with
  | poll p => exact absurd rfl (hpoll p)
  | _ => rfl

/-- Every lapse is a retry, but for one just after a retry that came between two of them. -/
theorem Trying.lapses_le (h : t.Trying n l) (since : Instant) (hn : n ≤ MAX_TIMER_HANDSHAKES + 1) (hle : l ≤ clock)
    (hord : Ordered clock evs) (hun : ∀ ev ∈ evs, ev.Unanswered) (hno : t.givesUp evs = false) :
    lapses since evs ≤ MAX_TIMER_HANDSHAKES + 1 - n + if l ≤ since then 0 else 1 := by
  induction evs generalizing t n l clock since with
  | nil => exact Nat.zero_le _
  | cons ev evs ih =>
    obtain ⟨hev, hrest⟩ := List.forall_mem_cons.mp hun
    obtain ⟨hfails, hno⟩ := Bool.or_eq_false_iff.mp hno
    obtain ⟨hstart, hstop, hord⟩ := hord
    by_cases hpoll : ∃ p, ev = .poll p
    · obtain ⟨p, rfl⟩ := hpoll
      rw [lapses]
      rcases h.poll (p := p) with ⟨-, hwait, hkeep⟩ | ⟨hdue, -⟩ | ⟨-, hmax, hnext⟩
      · have hlast : l ≤ p.now := hle.trans hstart
        split
        · next hlate =>
          -- not due yet: the last initiation went out after `since`
          have hafter : ¬l ≤ since := fun hl => absurd hwait (not_lt.mpr (le_sub_of_late hl hlate))
          have hrec := ih hkeep p.now hn (hlast.trans hstop) hord hrest hno
          rw [if_pos hlast] at hrec
          rw [if_neg hafter]
          exact Nat.succ_le_succ hrec
        · exact ih hkeep since hn (hlast.trans hstop) hord hrest hno
      · rw [fails_eq.mpr hdue] at hfails
        cases hfails
      · split
        · have hrec := ih hnext p.now (Nat.succ_le_succ hmax) hstop hord hrest hno
          rw [if_pos le_rfl] at hrec
          omega
        · have hrec := ih hnext since (Nat.succ_le_succ hmax) hstop hord hrest hno
          split at hrec
          all_goals split
          all_goals omega
    · have hpoll' : ∀ p, ev ≠ .poll p := fun p hp => hpoll ⟨p, hp⟩
      rw [lapses_cons hpoll']
      exact ih (h.after hev hpoll') since hn (hle.trans (hstart.trans hstop)) hord hrest hno

/-! ## After an attempt -/

/-- Nothing wants a handshake. -/
structure Resting (t : PeerTimers) : Prop where
  started : t.attemptStarted = none
  want : t.wantHandshake = false
  reply : t.replyDueSince = none
  keepalive : t.keepaliveDueSince = none

theorem keepaliveDue_eq (h : t.keepaliveDueSince = none) : t.keepaliveDue now = t.persistentDue now := by
  simp [keepaliveDue, persistentDue, h]

theorem Resting.poll (h : t.Resting) (hp : t.persistentDue p.now = false) :
    (t.poll p).2 = some false ∧ (t.poll p).1 = t := by
  have hdue : t.handshakeDue p.now = (t, some false) := by
    simp [handshakeDue, h.started, h.reply, h.want]
  refine ⟨by rw [poll_snd, hdue], ?_⟩
  simp [PeerTimers.poll, hdue, keepaliveDue_eq h.keepalive, hp]

theorem fails_resting (h : (t.poll q).2 = none) (hq : t.persistentDue q.now = false) : (t.poll q).1.Resting := by
  have hdue : t.handshakeDue q.now = ({ t with
      attemptStarted := none, wantHandshake := false, replyDueSince := none, keepaliveDueSince :=
        none }, none) := by
    rw [poll_snd] at h
    simp only [handshakeDue] at h ⊢
    split at h
    · split at h
      · cases h
      · split at h
        · next hwait hmax => rw [if_neg hwait, if_pos hmax]
        · cases h
    · cases h
  have hkeep : t.persistentDue q.now = false → PeerTimers.keepaliveDue { t with
      attemptStarted := none, wantHandshake := false, replyDueSince := none, keepaliveDueSince := none } q.now =
        false := fun hq => (keepaliveDue_eq rfl).trans hq
  simp only [PeerTimers.poll, hdue, reduceCtorEq, if_false, hkeep hq, Bool.false_eq_true]
  exact ⟨rfl, rfl, rfl, rfl⟩

theorem Resting.run (h : t.Resting) (hu : t.Undisturbed evs) : t.initiations evs = 0 := by
  induction evs generalizing t with
  | nil => rfl
  | cons ev evs ih =>
    cases ev with
    | poll p =>
      obtain ⟨hdue, hsame⟩ := h.poll hu.1
      have hbegins : t.begins (.poll p) = false := by rw [begins, hdue]; rfl
      rw [initiations, hbegins, if_neg Bool.false_ne_true, Nat.zero_add]
      exact ih (by rw [PeerTimers.after, hsame]; exact h) hu.2
    | setKeepalive now interval =>
      rw [initiations, not_begins (by simp), if_neg Bool.false_ne_true, Nat.zero_add]
      exact ih ⟨h.started, h.want, h.reply, h.keepalive⟩ hu
    | _ => exact hu.elim

end PeerTimers

/-! ## The handler's polls -/

namespace Handler
open Foundations Foundations.Actions

variable {P : Primitives} {e : Env} {h : Handler} {key : PublicKey} {t : PeerTimers} {now : Instant}

def timersOf (h : Handler) (key : PublicKey) : Option PeerTimers := (h.peers.lookup key).map (·.timers)

theorem timersOf_withTimers {f : PeerTimers → PeerTimers} (ht : h.timersOf key = some t) :
    (h.withTimers key f).timersOf key = some (f t) := by
  obtain ⟨p, hp, rfl⟩ := Option.map_eq_some_iff.mp ht
  rw [timersOf, withTimers, Table.lookup_modify, if_pos rfl, hp]
  rfl

theorem timersOf_cookieAddMacs {pkt : List UInt8} (ht : h.timersOf key = some t) :
    (h.cookieAddMacs P key pkt now).1.timersOf key = some t := by
  obtain ⟨p, hp, rfl⟩ := Option.map_eq_some_iff.mp ht
  simp [timersOf, cookieAddMacs, hp]

theorem timersOf_wantHandshake (ht : h.timersOf key = some t) :
    (h.wantHandshake key).timersOf key = some { t with wantHandshake := t.wantHandshake || true } := by
  rw [wantHandshake, timersOf_withTimers ht, Bool.or_true]

theorem wants_eq (t : PeerTimers) (want : Bool) :
    (if want then { t with wantHandshake := true } else t) =
      { t with wantHandshake := t.wantHandshake || want } := by
  cases want
  all_goals simp

/-- An initiation that can be built is noted as sent; one that cannot is not. -/
theorem timers_initiateHandshakeAt {at_ : Instant} (ht : h.timersOf key = some t) :
    wp (initiateHandshakeAt P e key at_) (fun _ h' => h'.timersOf key = some (t.initiationSent at_ e.random))
      (fun _ h' => h'.timersOf key = some t) h := by
  simp only [initiateHandshakeAt, ↓wp_bind, ↓wp_get, ↓wp_ite, ↓wp_fail, ↓wp_ofExcept, ↓wp_pure, ↓wp_set]
  refine ⟨fun _ => ht, fun _ => ⟨fun ss _ => ⟨fun es _ => ⟨fun _ => ht, fun _ => ⟨fun _ => ht, fun _ => ?_⟩⟩,
    fun _ _ => ht⟩, fun _ _ => ht⟩⟩
  refine wp_mono ?_ (by rintro _ _ rfl; exact ht) wp_allocateIndex
  rintro idx _ ⟨rfl, -⟩
  simp only [insertHandshake, ↓wp_bind, ↓wp_modify, ↓wp_get, ↓wp_ite, ↓wp_fail, ↓wp_set]
  exact ⟨fun _ => ht, fun _ => timersOf_withTimers (timersOf_cookieAddMacs ht)⟩

/-- A packet sealed for a peer is noted as sent; one that cannot be may ask for a handshake. -/
theorem timers_encrypt {data : List UInt8} (ht : h.timersOf key = some t) :
    wp (encrypt P e data key)
      (fun _ h' => ∃ want, h'.timersOf key = some (t.after (.sent (e.now 3) (!data.isEmpty) want)))
      (fun _ h' => ∃ want, h'.timersOf key = some { t with wantHandshake := t.wantHandshake || want }) h := by
  have hkeep : some t = some { t with wantHandshake := t.wantHandshake || false } := by simp
  simp only [encrypt, encryptDataPacket, encryptInto, withCurrentKeypair, ↓wp_bind, ↓wp_ite, ↓wp_pure, ↓wp_get]
  refine ⟨fun _ => ⟨false, ht.trans hkeep⟩, fun _ => ⟨fun _ => ⟨false, ht.trans hkeep⟩, fun _ => ?_⟩⟩
  cases (h.sessions.lookup key).bind (·.keypairCurrent) with
  | none => exact ⟨true, timersOf_wantHandshake ht⟩
  | some kp =>
    simp only [↓wp_bind, ↓wp_set, ↓wp_pure, ↓wp_ite, ↓wp_modify, ↓wp_get]
    refine ⟨fun _ => ⟨true, timersOf_wantHandshake ?_⟩, fun _ => ⟨fun _ => ⟨true, timersOf_wantHandshake ?_⟩,
      fun _ => ⟨_, (timersOf_withTimers (t := t) ?_).trans (congrArg some (wants_eq _ _))⟩⟩⟩
    all_goals exact ht

theorem timers_attempt {α : Type} {m : Action α} {Q : α → Handler → Prop} {E : Handler → Prop}
    (hm : wp m Q (fun _ => E) h) :
    wp (attempt m) (fun a h' => match a with
      | some a => Q a h'
      | none => E h') (fun _ _ => True) h := by
  simp only [wp, attempt] at hm ⊢
  cases hr : m h with
  | ok a t => simpa only [hr] using hm
  | error err t =>
    cases err with
    | drawing => trivial
    | error kind text => simpa only [hr] using hm

def reports (key : PublicKey) (built : Option ℕ) : Option Bool → List TimerAction → Prop
  | none, acts => .handshakeFailed key ∈ acts
  | some false, acts => (∀ packet, .sendHandshake key packet ∉ acts) ∧ .handshakeFailed key ∉ acts
  | some true, acts => match built with
    | some _ => ∃ packet, .sendHandshake key packet ∈ acts
    | none => .handshakeFailed key ∈ acts

theorem reports_append {built : Option ℕ} {due : Option Bool} {first second : List TimerAction}
    (hfirst : reports key built due first) (hsecond : reports key built (some false) second) :
    reports key built due (first ++ second) := by
  match due, built, hfirst with
  | none, _, hfirst => exact List.mem_append_left _ hfirst
  | some false, _, hfirst =>
    refine ⟨fun packet hmem => ?_, fun hmem => ?_⟩
    · exact (List.mem_append.mp hmem).elim (hfirst.1 packet) (hsecond.1 packet)
    · exact (List.mem_append.mp hmem).elim hfirst.2 hsecond.2
  | some true, some _, ⟨packet, hmem⟩ => exact ⟨packet, List.mem_append_left _ hmem⟩
  | some true, none, hfirst => exact List.mem_append_left _ hfirst

theorem timers_pollHandshake {due : Option Bool} (ht : h.timersOf key = some t) :
    wp (pollHandshake P e now key due) (fun acts h' => ∃ built,
      h'.timersOf key = some (if due = some true then built.elim t (t.initiationSent now) else t) ∧
        reports key built due acts) (fun _ _ => True) h := by
  match due with
  | none => exact ⟨none, ht, List.mem_singleton_self _⟩
  | some false => exact ⟨none, ht, by simp [reports]⟩
  | some true =>
    simp only [pollHandshake, ↓wp_bind]
    refine wp_mono ?_ (fun _ _ => id) (timers_attempt (timers_initiateHandshakeAt ht))
    rintro (_ | packet) h' ht'
    · exact ⟨none, ht', List.mem_singleton_self _⟩
    · exact ⟨some e.random, ht', packet, List.mem_singleton_self _⟩

theorem timers_pollKeepalive (built : Option ℕ) (ht : h.timersOf key = some t) :
    wp (pollKeepalive P e key) (fun acts h' => ∃ at_ k, h'.timersOf key = some (t.keepalivePoll at_ k) ∧
      reports key built (some false) acts) (fun _ _ => True) h := by
  simp only [pollKeepalive, ↓wp_bind, ↓wp_get, ↓wp_ite, ↓wp_modify, ↓wp_pure]
  refine ⟨fun _ => ?_, fun _ => ?_⟩
  · refine wp_mono ?_ (fun _ _ => id) (timers_attempt (timers_encrypt ht))
    rintro (_ | packet) h' ⟨want, ht'⟩
    · exact ⟨0, .refused want, ht', by simp [reports]⟩
    · exact ⟨_, .sent want, ht', by simp [reports]⟩
  · exact ⟨0, .noSession (h.isAuthorizedPeer key (e.now 2)), timersOf_withTimers ht, by simp [reports]⟩

theorem timers_pollPeer (ht : h.timersOf key = some t) :
    wp (pollPeer P e now key) (fun acts h' => ∃ p : Poll, p.now = now ∧
      h'.timersOf key = some (t.poll p).1 ∧ reports key p.built (t.poll p).2 acts) (fun _ _ => True) h := by
  obtain ⟨peer, hpeer, rfl⟩ := Option.map_eq_some_iff.mp ht
  simp only [pollPeer, ↓wp_bind, ↓wp_get, hpeer, ↓wp_set]
  refine wp_mono ?_ (fun _ _ => id) (timers_pollHandshake (timersOf_withTimers ht))
  rintro first h₁ ⟨built, ht₁, hfirst⟩
  simp only [↓wp_ite, ↓wp_bind, ↓wp_pure]
  refine ⟨fun hdue => ?_, fun hdue => ?_⟩
  · refine wp_mono ?_ (fun _ _ => id) (timers_pollKeepalive built ht₁)
    rintro second h₂ ⟨at_, k, ht₂, hsecond⟩
    refine ⟨⟨now, e.random, built, at_, k⟩, rfl, ?_, reports_append hfirst hsecond⟩
    simp only [PeerTimers.poll, if_pos hdue]
    exact ht₂
  · refine ⟨⟨now, e.random, built, now, .noSession false⟩, rfl, ?_, by rw [List.append_nil]; exact hfirst⟩
    simp only [PeerTimers.poll, if_neg hdue]
    exact ht₁

end Handler

/-! ## Runs -/

namespace PeerTimers
open TimerEvent Foundations.Actions

def pollAt (now : Instant) : Poll := ⟨now, 0, some 0, now, .noSession false⟩

end PeerTimers

end PktKit.Wg
