import PktKit.Dhcp.Client

/-! # How long the DHCP client keeps an address

A lease is counted from the first REQUEST of the transaction that granted it, as seen from the calls the client
makes. It is kept to unless it is bound after it has run out, or an announcement falls due once it has.
-/

namespace PktKit.Dhcp.Client

/-- A lease as the transport knows it: the address, and when it runs out if it does. -/
structure Tenancy where
  ip : Ipv4Addr
  expiry : Option Instant
deriving DecidableEq

def Tenancy.live (l : Tenancy) (now : Instant) : Bool := l.expiry.all fun e => decide (now < e)

@[simp] theorem live_mk {ip : Ipv4Addr} {lease : Option LeaseTimers} {now : Instant} :
    (Tenancy.mk ip (lease.map (·.expiry))).live now = lease.all fun l => decide (now < l.expiry) := by
  cases lease <;> rfl

/-- What can be told from the calls the client makes and the DHCPACKs it takes. -/
structure Observer where
  /-- when the first REQUEST of the transaction went out -/
  firstRequest : Option Instant := none
  granted : Option Tenancy := none
  /-- the lease last bound, until it is told lost -/
  held : Option Tenancy := none

/-- An answer took the client out of asking for a lease. -/
def Took (i i' : Inner) : Prop :=
  (i.state = .requesting ∨ i.state = .renewing ∨ i.state = .rebinding) ∧ (i'.state = .probing ∨ i'.state = .bound)

instance (i i' : Inner) : Decidable (Took i i') := inferInstanceAs (Decidable (_ ∧ _))

namespace Observer

/-- A DISCOVER and a DECLINE end a transaction: the next REQUEST is the first of another. -/
@[simp] def hearOut (now : Instant) (o : Observer) : Out → Observer
  | .discover _ | .decline .. => { o with firstRequest := none }
  | .select .. | .renew .. | .rebind .. => { o with firstRequest := o.firstRequest.or (some now) }
  | .probe .. | .announce _ | .release .. => o

@[simp] def hearEvent (o : Observer) : Event → Observer
  | .bound .. => { o with held := o.granted, firstRequest := none }
  | .lost => { o with held := none }

@[simp] def hear (now : Instant) (o : Observer) : Call → Observer
  | .event e => o.hearEvent e
  | .out out => o.hearOut now out
  | .endProbe => o

@[simp] def hears (now : Instant) (o : Observer) (calls : List Call) : Observer := calls.foldl (hear now) o

def grant (o : Observer) (p : Message) : Observer :=
  { o with
    granted := some
      { ip := p.yiaddr
        expiry :=
          if p.leaseTime = some 0xFFFFFFFF then none
          else o.firstRequest.map (· + Duration.fromSecs (p.leaseTime.getD 0).toNat) } }

def answered (o : Observer) (op : Op) (i i' : Inner) : Observer :=
  match op with
  | .reply p => if Took i i' then o.grant p else o
  | _ => o

/-- Only an address whose lease has not run out is announced, renewed or rebound. -/
@[simp] def allowsOut (now : Instant) (o : Observer) : Out → Bool
  | .announce ip | .renew _ ip _ | .rebind _ ip => o.held.any fun l => l.ip == ip && l.live now
  | .discover _ | .select .. | .probe .. | .release .. | .decline .. => true

@[simp] def allowsEvent (now : Instant) (o : Observer) : Event → Bool
  | .bound pfx _ => o.granted.any fun l => l.ip == pfx.addr && l.live now
  | .lost => true

@[simp] def allows (now : Instant) (o : Observer) : Call → Bool
  | .event e => o.allowsEvent now e
  | .out out => o.allowsOut now out
  | .endProbe => true

@[simp] def allowsAll (now : Instant) : Observer → List Call → Bool
  | _, [] => true
  | o, c :: cs => o.allows now c && allowsAll now (o.hear now c) cs

end Observer

def Op.isTick : Op → Bool
  | .tick _ => true
  | _ => false

structure Input where
  op : Op
  now : Instant
  draws : Draws := {}

/-- A client and what has been observed of it. -/
structure Story where
  client : Shared
  seen : Observer := {}

namespace Story

def step (s : Story) (x : Input) : Story :=
  let r := s.client.handle x.op x.now x.draws
  ⟨r.1, (s.seen.answered x.op s.client.inner r.1.inner).hears x.now r.2⟩

/-- A step keeps to the leases: each call is made of a lease that has not run out, and after a tick the transport
holds none that has. -/
def KeepsLease (s : Story) (x : Input) : Prop :=
  (s.seen.answered x.op s.client.inner (s.client.handle x.op x.now x.draws).1.inner).allowsAll x.now
      (s.client.handle x.op x.now x.draws).2 = true ∧
    (x.op.isTick = true → (s.step x).seen.held.all (·.live x.now) = true)

/-- A lease that a step binds has not run out, nor has the one held when a tick finds an announcement due. -/
def InTime (s : Story) (x : Input) : Prop :=
  (s.client.inner.state ≠ .bound → (s.step x).client.inner.state = .bound →
      ((s.step x).client.inner.lease.all fun l => decide (x.now < l.expiry)) = true) ∧
    (x.op.isTick = true → s.client.inner.leftLease = true →
      (s.client.inner.announce.any fun a => decide (a.2 ≤ x.now)) = true →
      (s.client.inner.lease.all fun l => decide (x.now < l.expiry)) = true)

end Story

variable {i : Inner} {o : Observer} {now : Instant} {d : Draws} {r : Outcome}

/-- The first REQUEST of the transaction went out when the client has it noted. -/
def Asked (i : Inner) (o : Observer) : Prop := ∃ t, i.requestedAt = some t ∧ o.firstRequest = some t

/-- What waits for the check to end is what was granted. -/
def Checking (i : Inner) (o : Observer) : Prop :=
  ∃ pfx router lease, i.pending = some (pfx, router, lease) ∧ i.offeredIp = some pfx.addr ∧
    o.granted = some ⟨pfx.addr, lease.map (·.expiry)⟩

def Holds (i : Inner) (o : Observer) : Prop :=
  ∃ ip, i.offeredIp = some ip ∧ o.held = some ⟨ip, i.lease.map (·.expiry)⟩

/-- How the client's state goes with what has been observed. -/
def Linked (i : Inner) (o : Observer) : Prop :=
  match i.state with
  | .init => o.held = none
  | .selecting => o.held = none ∧ o.firstRequest = none
  | .requesting => o.held = none ∧ Asked i o
  | .probing => o.held = none ∧ Checking i o
  | .bound => o.firstRequest = none ∧ Holds i o
  | .renewing | .rebinding => Asked i o ∧ Holds i o

@[simp] def Outcome.calls (r : Outcome) : List Call := r.event.toList.map Call.event ++ r.out.toList.map Call.out

/-- A transition keeps the link, and keeps to the leases exactly if it is in time. -/
structure Judged (tick : Bool) (i : Inner) (o : Observer) (now : Instant) (r : Outcome) : Prop where
  linked : Linked r.inner (o.hears now r.calls)
  iff : (o.allowsAll now r.calls = true ∧ (tick = true → (o.hears now r.calls).held.all (·.live now) = true)) ↔
    (i.state ≠ .bound → r.inner.state = .bound → (r.inner.lease.all fun l => decide (now < l.expiry)) = true) ∧
      (tick = true → i.leftLease = true → (i.announce.any fun a => decide (a.2 ≤ now)) = true →
        (i.lease.all fun l => decide (now < l.expiry)) = true)

theorem stepSelecting_judged (hs : i.state = .selecting) (h : Linked i o) :
    Judged true i o now (i.stepSelecting now d) := by
  simp only [Linked, hs] at h
  unfold Inner.stepSelecting
  split
  · constructor
    · simpa [Linked, hs] using h
    · simp [hs, h.1, Inner.leftLease]
  · constructor
    · simp [Linked, hs, h.1]
    · simp [hs, h.1, Inner.leftLease]

theorem restart_judged {tick : Bool} {i' : Inner} (hi : i.leftLease = false) (hh : o.held = none) :
    Judged tick i o now ⟨(i'.restart now d).1, none, some (i'.restart now d).2⟩ := by
  constructor
  · simp [Linked, Inner.restart, hh]
  · simp [Inner.restart, hi, hh]

theorem stepRequesting_judged (hs : i.state = .requesting) (h : Linked i o) :
    Judged true i o now (i.stepRequesting now d) := by
  simp only [Linked, hs] at h
  have hleft : i.leftLease = false := by simp [Inner.leftLease, hs]
  unfold Inner.stepRequesting
  split
  · constructor
    · simpa [Linked, hs] using h
    · simp [hs, h.1, hleft]
  split
  · exact restart_judged hleft h.1
  dsimp only
  split
  · exact restart_judged hleft h.1
  · obtain ⟨hh, t, hr, hf⟩ := h
    constructor
    · simp [Linked, Asked, hs, hh, hr, hf]
    · simp [hs, hh, hleft]

theorem stepProbing_judged {conflict : Bool} (hs : i.state = .probing) (h : Linked i o) :
    Judged true i o now (i.stepProbing now conflict d) := by
  simp only [Linked, hs] at h
  obtain ⟨hh, pfx, router, lease, hp, hip, hg⟩ := h
  have hleft : i.leftLease = false := by simp [Inner.leftLease, hs]
  unfold Inner.stepProbing
  rw [hip]
  dsimp only
  split
  · constructor
    · simp [Linked, Inner.restart, hh]
    · simp [Inner.restart, hleft, hh]
  split
  · constructor
    · simp [Linked, Checking, hs, hh, hp, hip, hg]
    · simp [hs, hh, hleft]
  split
  · constructor
    · simp [Linked, Checking, hs, hh, hp, hg]
    · simp [hs, hh, hleft]
  -- the check has ended: the lease is bound whenever that is
  rw [hp]
  constructor
  · simp [Linked, Inner.bind, Holds, hip, hg]
  · simp [Inner.bind, hs, hg, hleft]

theorem Linked.holds (h : Linked i o) (hl : i.leftLease = true) : Holds i o := by
  simp only [Inner.leftLease, decide_eq_true_eq] at hl
  obtain hs | hs | hs := hl <;> simp only [Linked, hs] at h <;> exact h.2

/-- A transition out of a state that holds a lease, into one that holds it too and was not entered by binding. -/
theorem Judged.of_held {r : Outcome} (hstay : i.state ≠ .bound → r.inner.state ≠ .bound)
    (hann : (i.announce.any fun a => decide (a.2 ≤ now)) = true →
      (i.lease.all fun l => decide (now < l.expiry)) = true)
    (hlink : Linked r.inner (o.hears now r.calls)) (hallow : o.allowsAll now r.calls = true)
    (hheld : (o.hears now r.calls).held.all (·.live now) = true) : Judged true i o now r where
  linked := hlink
  iff := ⟨fun _ => ⟨fun hne hb => absurd hb (hstay hne), fun _ _ => hann⟩, fun _ => ⟨hallow, fun _ => hheld⟩⟩

/-- The transaction's first REQUEST goes out now, unless it has before. -/
def Observer.asks (o : Observer) (now : Instant) : Observer :=
  { o with firstRequest := o.firstRequest.or (some now) }

theorem Asked.asks (h : Asked i o) : Asked i (o.asks now) := by
  obtain ⟨t, hr, hf⟩ := h
  exact ⟨t, hr, by simp [Observer.asks, hf]⟩

theorem beginRebind_linked {w : Option Instant} (hl : i.leftLease = true) (h : Linked i o) :
    Linked { i.beginRebind now d with nextTx := w } (o.asks now) := by
  obtain ⟨ip, hip, hh⟩ := h.holds hl
  simp only [Inner.leftLease, decide_eq_true_eq] at hl
  obtain hs | hs | hs := hl <;> simp only [Linked, hs] at h
  · simp [Linked, Inner.beginRebind, hs, Asked, Holds, hip, hh, Observer.asks, h.1]
  · have ha : Asked i (o.asks now) := h.1.asks
    simpa [Linked, Inner.beginRebind, hs, Holds, hip, hh, Observer.asks, Asked] using ha
  · have ha : Asked i (o.asks now) := h.1.asks
    simpa [Linked, Inner.beginRebind, hs, Holds, hip, hh, Observer.asks, Asked] using ha

theorem beginRenew_linked {w : Option Instant} (hl : i.leftLease = true) (h : Linked i o) :
    Linked { i.beginRenew now d with nextTx := w } (o.asks now) := by
  obtain ⟨ip, hip, hh⟩ := h.holds hl
  simp only [Inner.leftLease, decide_eq_true_eq] at hl
  obtain hs | hs | hs := hl <;> simp only [Linked, hs] at h
  · simp [Linked, Inner.beginRenew, hs, Asked, Holds, hip, hh, Observer.asks, h.1]
  · have ha : Asked i (o.asks now) := h.1.asks
    simpa [Linked, Inner.beginRenew, hs, Holds, hip, hh, Observer.asks, Asked] using ha
  · have ha : Asked i (o.asks now) := h.1.asks
    simpa [Linked, Inner.beginRenew, hs, Holds, hip, hh, Observer.asks, Asked] using ha

/-- A state entered to ask has its REQUEST due at once. -/
theorem beginRebind_idle (h : due (i.beginRebind now d).nextTx now = false) : i.beginRebind now d = i := by
  unfold Inner.beginRebind at h ⊢
  split
  · rfl
  · rw [if_neg ‹_›] at h
    simp [due] at h

theorem beginRebind_state : (i.beginRebind now d).state = .rebinding := by
  unfold Inner.beginRebind
  split
  · assumption
  · rfl

theorem beginRenew_state : (i.beginRenew now d).state ≠ .bound := by
  unfold Inner.beginRenew
  split
  · exact nofun
  · assumption

theorem beginRenew_idle (h : due (i.beginRenew now d).nextTx now = false) : i.beginRenew now d = i := by
  unfold Inner.beginRenew at h ⊢
  split
  · rw [if_pos ‹_›] at h
    simp [due] at h
  · rfl

theorem stepLease_judged (hl : i.leftLease = true) (h : Linked i o)
    (hann : (i.announce.any fun a => decide (a.2 ≤ now)) = false) : Judged true i o now (i.stepLease now d) := by
  obtain ⟨ip, hip, hh⟩ := h.holds hl
  have hquiet : (i.announce.any fun a => decide (a.2 ≤ now)) = true →
      (i.lease.all fun l => decide (now < l.expiry)) = true := by
    rw [hann]
    exact nofun
  unfold Inner.stepLease
  rw [hip]
  cases hlease : i.lease with
  | none =>
    have hnow : (Tenancy.mk ip (i.lease.map (·.expiry))).live now = true := by
      rw [live_mk, hlease]
      rfl
    refine .of_held id hquiet h (by simp) ?_
    simpa [hh] using hnow
  | some lease =>
    dsimp only
    by_cases hexp : lease.expiry ≤ now
    · rw [if_pos hexp]
      constructor
      · simp [Linked, Inner.restart]
      · simp [Inner.restart, hann]
    rw [if_neg hexp]
    have hnow : (Tenancy.mk ip (i.lease.map (·.expiry))).live now = true := by
      rw [live_mk, hlease]
      simpa using hexp
    have hlive : (o.held.any fun l => l.ip == ip && l.live now) = true := by
      rw [hh, Option.any_some, hnow]
      simp
    have hheld : o.held.all (·.live now) = true := by rw [hh, Option.all_some, hnow]
    split
    · split
      · rename_i hidle
        rw [beginRebind_idle (by simpa using hidle)]
        exact .of_held id hquiet h (by simp) (by simpa using hheld)
      · exact .of_held (fun _ => by simp [beginRebind_state]) hquiet (beginRebind_linked hl h)
          (by simpa using hlive)
          (by simpa using hheld)
    split
    · split
      · rename_i hidle
        rw [beginRenew_idle (by simpa using hidle)]
        exact .of_held id hquiet h (by simp) (by simpa using hheld)
      · exact .of_held (fun _ => beginRenew_state) hquiet (beginRenew_linked hl h) (by simpa using hlive)
          (by simpa using hheld)
    · exact .of_held id hquiet h (by simp) (by simpa using hheld)

theorem stepHeld_due {ip : Ipv4Addr} {a : ℕ × Instant} (hip : i.offeredIp = some ip) (ha : i.announce = some a)
    (hdue : a.2 ≤ now) : i.stepHeld now d =
      ⟨{ i with announce := if a.1 > 1 then some (a.1 - 1, now + ANNOUNCE_INTERVAL) else none }, none,
        some (.announce ip)⟩ := by
  unfold Inner.stepHeld
  have hf : (i.announce.filter fun a => decide (a.2 ≤ now)) = some a := by simp [ha, hdue]
  simp only [hf, hip]

theorem stepHeld_idle (hann : (i.announce.any fun a => decide (a.2 ≤ now)) = false) :
    i.stepHeld now d = i.stepLease now d := by
  unfold Inner.stepHeld
  have hf : (i.announce.filter fun a => decide (a.2 ≤ now)) = none := by
    cases ha : i.announce with
    | none => rfl
    | some a => simpa [ha] using hann
  simp only [hf]

theorem stepHeld_judged (hl : i.leftLease = true) (h : Linked i o) : Judged true i o now (i.stepHeld now d) := by
  by_cases hann : (i.announce.any fun a => decide (a.2 ≤ now)) = true
  · obtain ⟨a, ha, hdue⟩ := (Option.any_eq_true _ _).mp hann
    obtain ⟨ip, hip, hh⟩ := h.holds hl
    -- the announcement is sent without a look at the lease
    rw [stepHeld_due hip ha (of_decide_eq_true hdue)]
    constructor
    · exact h
    · simp +contextual [hh, hl, hann]
  · rw [Bool.not_eq_true] at hann
    rw [stepHeld_idle hann]
    exact stepLease_judged hl h hann

theorem step_judged {conflict : Bool} (h : Linked i o) : Judged true i o now (i.step now conflict d) := by
  unfold Inner.step
  cases hs : i.state with
  | init =>
    simp only [Linked, hs] at h
    constructor
    · simpa [Linked, hs] using h
    · simp [hs, h, Inner.leftLease]
  | selecting => exact stepSelecting_judged hs h
  | requesting => exact stepRequesting_judged hs h
  | probing => exact stepProbing_judged hs h
  | bound => exact stepHeld_judged (by simp [Inner.leftLease, hs]) h
  | renewing => exact stepHeld_judged (by simp [Inner.leftLease, hs]) h
  | rebinding => exact stepHeld_judged (by simp [Inner.leftLease, hs]) h

theorem leaseTimers_expiry (p : Message) (now : Instant) (d : Draws) (h : Asked i o) :
    (leaseTimers (i.requestedAt.getD now) (p.leaseTime.getD 0) p.renewalTime p.rebindingTime d).map (·.expiry) =
      if p.leaseTime = some 0xFFFFFFFF then none
      else o.firstRequest.map (· + Duration.fromSecs (p.leaseTime.getD 0).toNat) := by
  obtain ⟨t, hr, hf⟩ := h
  have hmax : p.leaseTime.getD 0 = 0xFFFFFFFF ↔ p.leaseTime = some 0xFFFFFFFF := by
    cases p.leaseTime with
    | none => simp
    | some secs => simp
  unfold leaseTimers
  by_cases hm : p.leaseTime = some 0xFFFFFFFF
  · rw [if_pos (hmax.mpr hm), if_pos hm]
    rfl
  · rw [if_neg (mt hmax.mp hm), if_neg hm, hr, hf]
    rfl

theorem takeAck_judged {canProbe : Bool} {p : Message}
    (hs : i.state = .requesting ∨ i.state = .renewing ∨ i.state = .rebinding) (h : Linked i o) :
    Took i (i.takeAck canProbe p now d).inner ∧ Judged false i (o.grant p) now (i.takeAck canProbe p now d) := by
  have hask : Asked i o := by
    obtain hs | hs | hs := hs <;> simp only [Linked, hs] at h
    exacts [h.2, h.1, h.1]
  have hne : i.state ≠ .bound := by
    obtain hs | hs | hs := hs <;> simp [hs]
  have hexp := leaseTimers_expiry p now d hask
  unfold Inner.takeAck
  generalize leaseTimers (i.requestedAt.getD now) (p.leaseTime.getD 0)
    p.renewalTime p.rebindingTime d = lease at hexp ⊢
  have hh : (o.grant p).held = o.held := rfl
  have hg : (o.grant p).granted = some ⟨p.yiaddr, lease.map (·.expiry)⟩ := by
    rw [hexp]
    rfl
  dsimp only
  split
  · rename_i hfresh
    simp only [Linked, hfresh.1] at h
    refine ⟨⟨hs, .inl rfl⟩, ?_, ?_⟩
    · simp [Linked, Checking, hg, hh, h.1, IpPrefix.new]
    · simp
  · refine ⟨⟨hs, .inr rfl⟩, ?_, ?_⟩
    · simp [Linked, Inner.bind, Holds, hg]
    · simp [Inner.bind, hg, hne, IpPrefix.new]

/-- A reply that leaves the client as it was. -/
theorem ignored_judged (h : Linked i o) : Judged false i o now ⟨i, none, none⟩ := by
  constructor
  · exact h
  · simp +contextual

theorem takeReply_judged {canProbe : Bool} {p : Message} (h : Linked i o) :
    Judged false i (o.answered (.reply p) i (i.takeReply canProbe p now d).1.inner) now
      (i.takeReply canProbe p now d).1 := by
  have hstay : ∀ {r : Outcome}, (∀ s, s = .probing ∨ s = .bound → r.inner.state = s → i.state = s) →
      Judged false i o now r → Judged false i (o.answered (.reply p) i r.inner) now r := by
    intro r hr hj
    have hno : ¬ Took i r.inner := by
      rintro ⟨hi, hr' | hr'⟩
      · rw [hr _ (.inl rfl) hr'] at hi
        simp at hi
      · rw [hr _ (.inr rfl) hr'] at hi
        simp at hi
    rwa [Observer.answered, if_neg hno]
  have hsame : Judged false i (o.answered (.reply p) i i) now ⟨i, none, none⟩ :=
    hstay (fun _ _ => id) (ignored_judged h)
  unfold Inner.takeReply
  split
  · exact hsame
  split
  · exact hsame
  split
  · exact hsame
  split
  · rename_i hoffer
    simp only [Linked, hoffer.1] at h
    refine hstay (by rintro _ (rfl | rfl) <;> exact nofun) ⟨?_, ?_⟩
    · simp [Linked, Inner.takeOffer, Asked, h.1, h.2]
    · simp [Inner.takeOffer]
  split
  · rename_i hack
    obtain ⟨htook, hj⟩ := takeAck_judged hack.1 h
    rwa [Observer.answered, if_pos htook]
  split
  · rename_i hnak
    simp only [Linked, hnak.1] at h
    exact hstay (by rintro _ (rfl | rfl) <;> exact nofun) (restart_judged (by simp [Inner.leftLease, hnak.1]) h.1)
  split
  · refine hstay (by rintro _ (rfl | rfl) <;> exact nofun) ⟨?_, ?_⟩
    · simp [Linked, Inner.restart]
    · simp [Inner.restart]
  · exact hsame

/-! ## Delivery -/

theorem noteSent_eq (i : Inner) (c : Call) : ∃ b, i.noteSent c = { i with probeLive := b } := by
  unfold Inner.noteSent
  split
  · split
    · exact ⟨_, rfl⟩
    · exact ⟨i.probeLive, rfl⟩
  · exact ⟨i.probeLive, rfl⟩

theorem deliver_own {q : List (Option ℕ × Call)} (h : ∀ c ∈ q, c.1 = none ∨ c.1 = some i.run) :
    ∃ b, deliver q i = ({ i with probeLive := b }, q.map (·.2)) := by
  induction q generalizing i with
  | nil => exact ⟨i.probeLive, rfl⟩
  | cons c q ih =>
    obtain ⟨run, call⟩ := c
    have hrun : (run.any (· != i.run)) = false := by
      obtain rfl | rfl := h _ (List.mem_cons_self ..) <;> simp
    obtain ⟨b, hb⟩ := noteSent_eq i call
    obtain ⟨b', hb'⟩ := @ih { i with probeLive := b } fun c hc => h c (List.mem_cons_of_mem _ hc)
    refine ⟨b', ?_⟩
    rw [deliver, if_neg (by rw [hrun]; exact nofun), hb, hb']
    rfl

theorem settle_own {c : Shared} {q : List (Option ℕ × Call)} (hq : c.queue = [])
    (h : ∀ x ∈ q, x.1 = none ∨ x.1 = some i.run) :
    ∃ b, c.settle i q = ({ c with inner := { i with probeLive := b }, queue := [] }, q.map (·.2)) := by
  obtain ⟨b, hb⟩ := deliver_own h
  refine ⟨b, ?_⟩
  rw [Shared.settle, hq, List.nil_append, hb]

theorem queueStep_own (r : Outcome) : ∀ x ∈ Shared.queueStep r, x.1 = none ∨ x.1 = some r.inner.run := by
  intro x hx
  obtain ⟨c, -, rfl⟩ := List.mem_map.mp hx
  dsimp only
  split
  · exact .inl rfl
  · exact .inl rfl
  · exact .inr rfl

theorem queueStep_calls (r : Outcome) : (Shared.queueStep r).map (·.2) = r.calls := by
  simp [Shared.queueStep, Function.comp_def]

theorem queueLeft_own (i : Inner) {n : ℕ} : ∀ x ∈ Shared.queueLeft i, x.1 = none ∨ x.1 = some n := by
  intro x hx
  simp only [Shared.queueLeft, List.mem_append, List.mem_ite_nil_right, List.mem_singleton] at hx
  obtain ⟨-, rfl⟩ | ⟨-, rfl⟩ := hx <;> exact .inl rfl

/-- After what leaving a state gave up has been told, no lease is held. -/
theorem hears_queueLeft (h : Linked i o) :
    (o.hears now ((Shared.queueLeft i).map (·.2))).held = none ∧
      o.allowsAll now ((Shared.queueLeft i).map (·.2)) = true := by
  unfold Shared.queueLeft Inner.leftProbe Inner.leftLease
  cases hs : i.state <;> simp only [Linked, hs] at h <;> simp [h]

theorem hears_append {l l' : List Call} : o.hears now (l ++ l') = (o.hears now l).hears now l' :=
  List.foldl_append

theorem allowsAll_append {l l' : List Call} :
    o.allowsAll now (l ++ l') = (o.allowsAll now l && (o.hears now l).allowsAll now l') := by
  induction l generalizing o with
  | nil => rfl
  | cons c l ih =>
    simp only [List.cons_append, Observer.allowsAll, ih, Observer.hears, List.foldl_cons, Bool.and_assoc]

/-! ## Runs -/

namespace Story

/-- Between operations no call waits, and the client goes with what has been observed. -/
structure Inv (s : Story) : Prop where
  queue : s.client.queue = []
  linked : Linked s.client.inner s.seen

variable {s : Story} {x : Input}

theorem step_of_outcome (h : s.Inv)
    (hset : s.client.handle x.op x.now x.draws = s.client.settle r.inner (Shared.queueStep r))
    (hj : Judged x.op.isTick s.client.inner (s.seen.answered x.op s.client.inner r.inner) x.now r) :
    (s.step x).Inv ∧ (s.KeepsLease x ↔ s.InTime x) := by
  obtain ⟨b, hb⟩ := settle_own h.queue (queueStep_own r)
  rw [queueStep_calls] at hb
  have hhandle := hset.trans hb
  have hstep : s.step x = ⟨{ s.client with inner := { r.inner with probeLive := b }, queue := [] },
      (s.seen.answered x.op s.client.inner r.inner).hears x.now r.calls⟩ := by
    rw [step, hhandle]
    rfl
  constructor
  · rw [hstep]
    exact ⟨rfl, hj.linked⟩
  · rw [KeepsLease, InTime, hstep, hhandle]
    exact hj.iff

/-- An operation that binds nothing and makes no call about a lease. -/
theorem step_of_calls {i' : Inner} {q : List (Option ℕ × Call)} (h : s.Inv) (htick : x.op.isTick = false)
    (hans : ∀ i', s.seen.answered x.op s.client.inner i' = s.seen)
    (hset : s.client.handle x.op x.now x.draws = s.client.settle i' q)
    (hown : ∀ c ∈ q, c.1 = none ∨ c.1 = some i'.run) (hstate : i'.state ≠ .bound)
    (hlink : Linked i' (s.seen.hears x.now (q.map (·.2)))) (hallow : s.seen.allowsAll x.now (q.map (·.2)) = true) :
    (s.step x).Inv ∧ (s.KeepsLease x ↔ s.InTime x) := by
  obtain ⟨b, hb⟩ := settle_own h.queue hown
  have hhandle := hset.trans hb
  have hstep : s.step x = ⟨{ s.client with inner := { i' with probeLive := b }, queue := [] },
      s.seen.hears x.now (q.map (·.2))⟩ := by
    rw [step, hhandle, hans]
  constructor
  · rw [hstep]
    exact ⟨rfl, hlink⟩
  · rw [KeepsLease, InTime, hstep, hhandle, hans, hallow, htick]
    simp [hstate]

theorem start_step (h : s.Inv) (hop : x.op = .start) : (s.step x).Inv ∧ (s.KeepsLease x ↔ s.InTime x) := by
  obtain ⟨hnone, hallow⟩ := @hears_queueLeft _ _ x.now h.linked
  refine step_of_calls h (by rw [hop]; rfl) (fun _ => by rw [hop]; rfl) (by rw [hop]; rfl)
    ?_ (by simp [Inner.restart]) ?_ ?_
  · intro c hc
    obtain hc | hc := List.mem_append.mp hc
    · exact queueLeft_own _ c hc
    · rw [List.mem_singleton.mp hc]
      exact .inr rfl
  · rw [List.map_append, hears_append]
    exact ⟨hnone, rfl⟩
  · rw [List.map_append, allowsAll_append, hallow]
    rfl

theorem halt_step (release : Bool) (h : s.Inv)
    (hhandle : s.client.handle x.op x.now x.draws = s.client.halt release x.draws)
    (htick : x.op.isTick = false) (hans : ∀ i', s.seen.answered x.op s.client.inner i' = s.seen) :
    (s.step x).Inv ∧ (s.KeepsLease x ↔ s.InTime x) := by
  obtain ⟨hnone, hallow⟩ := @hears_queueLeft _ _ x.now h.linked
  unfold Shared.halt at hhandle
  dsimp only at hhandle
  split at hhandle
  · refine step_of_calls h htick hans hhandle ?_ nofun ?_ ?_
    · rintro c (_ | hc)
      · exact .inl rfl
      · exact queueLeft_own _ c ‹_›
    · simpa [Linked] using hnone
    · simpa using hallow
  · refine step_of_calls h htick hans hhandle (queueLeft_own _) nofun ?_ ?_
    · simpa [Linked] using hnone
    · simpa using hallow

theorem reply_step {p : Message} (h : s.Inv) (hop : x.op = .reply p) :
    (s.step x).Inv ∧ (s.KeepsLease x ↔ s.InTime x) := by
  by_cases hskip : p.op ≠ 2 ∨ p.chaddr ≠ s.client.mac ∨ s.client.inner.xid ≠ p.xid
  · have hhandle : s.client.handle x.op x.now x.draws = (s.client, []) := by
      rw [hop]
      exact congrArg Prod.fst (if_pos hskip)
    have hno : ¬ Took s.client.inner s.client.inner := by
      rintro ⟨hi, hr | hr⟩ <;> simp [hr] at hi
    have hstep : s.step x = s := by
      rw [step, hhandle, hop, Observer.answered, if_neg hno]
      rfl
    constructor
    · rwa [hstep]
    · rw [KeepsLease, InTime, hstep, hhandle, hop]
      simp +contextual [Op.isTick]
  · refine step_of_outcome (r := (s.client.inner.takeReply s.client.canProbe p x.now x.draws).1) h ?_ ?_
    · rw [hop]
      exact congrArg Prod.fst (if_neg hskip)
    · rw [hop]
      exact takeReply_judged h.linked

theorem step_kept (h : s.Inv) (x : Input) : (s.step x).Inv ∧ (s.KeepsLease x ↔ s.InTime x) := by
  cases hop : x.op with
  | start => exact start_step h hop
  | stop => exact halt_step false h (by rw [hop]; rfl) (by rw [hop]; rfl) fun _ => by rw [hop]; rfl
  | release => exact halt_step true h (by rw [hop]; rfl) (by rw [hop]; rfl) fun _ => by rw [hop]; rfl
  | reply p => exact reply_step h hop
  | tick conflict =>
    refine step_of_outcome h (by rw [hop]; rfl) ?_
    rw [hop]
    exact step_judged h.linked

theorem inv_run (h : s.Inv) (xs : List Input) : (xs.foldl step s).Inv := by
  induction xs generalizing s with
  | nil => exact h
  | cons x xs ih => exact ih (step_kept h x).1

def new (mac : MacAddr) (canProbe : Bool) : Story := ⟨{ mac := mac, canProbe := canProbe }, {}⟩

theorem new_inv (mac : MacAddr) (canProbe : Bool) : (new mac canProbe).Inv := ⟨rfl, rfl⟩

open Duration (fromSecs)

def sampleMac : MacAddr := ⟨[2, 0, 0, 0, 0, 1], rfl⟩

/-- A reply that offers or grants 10.0.0.2 for five seconds. -/
def sampleReply (type : ℕ) : Message :=
  { op := 2, xid := 7, chaddr := sampleMac, yiaddr := 0x0A000002, msgType := type, leaseTime := some 5 }

/-- The address is granted at once, checked for four seconds and bound. -/
def shortLease : List Input :=
  [⟨.start, 0, { xid := 7 }⟩, ⟨.reply (sampleReply MSG_OFFER), 0, {}⟩, ⟨.reply (sampleReply MSG_ACK), 0, {}⟩,
    ⟨.tick false, fromSecs 1, {}⟩, ⟨.tick false, fromSecs 2, {}⟩, ⟨.tick false, fromSecs 4, {}⟩]

end Story

end PktKit.Dhcp.Client
