import PktKit.Foundations.Runs
import PktKit.Time

/-! # The search for the path MTU

Bisection between the largest MTU known to work and the largest not known to
fail, moved by probes, ICMP reports, black holes and the periodic restart. Its
bounds stay in order, and below what ICMP has reported, in exactly the runs in
which no size above that is given up as too large. Answered truthfully, it
converges unless it reaches past what ICMP has reported.
-/

namespace PktKit.Vtcp
open Foundations.Runs

/-- Whether, and when, the connection searches for the path MTU itself. -/
inductive MtuProbing where
  | off
  | onBlackHole
  | always
deriving DecidableEq, Repr

def BASE_MSS : ℕ := 1024
def PROBE_THRESHOLD : ℕ := 8
def PROBE_INTERVAL : Duration := Duration.fromSecs 600
def MAX_PROBES : ℕ := 3

structure Search where
  mode : MtuProbing
  enabled : Bool
  /-- largest MTU known to work -/
  low : ℕ
  /-- largest MTU not known to fail -/
  high : ℕ
  /-- the largest the path could carry -/
  max : ℕ
  /-- the smallest MTU a black hole takes the connection down to -/
  floor : ℕ
  base : ℕ
  /-- failed probes of the size last probed -/
  fails : ℕ
  lastSize : ℕ
  stamp : Instant
deriving DecidableEq, Repr

namespace Search

def new (mode : MtuProbing) (overhead floor : ℕ) (now : Instant) : Search :=
  let base := Max.max (BASE_MSS + overhead) floor
  { mode := mode, enabled := mode == .always, low := base, high := base, max := base, floor := floor,
    base := base, fails := 0, lastSize := 0, stamp := now }

/-- The handshake has set the most the path could carry. -/
def setMax (s : Search) (max : ℕ) : Search :=
  let max := Max.max max s.floor
  { s with max := max, high := max, low := min s.base max }

/-- The path MTU is at most `mtu`, as ICMP reported. -/
def clamp (s : Search) (mtu : ℕ) : Search :=
  let mtu := Max.max mtu s.floor
  { s with max := min s.max mtu, high := min s.high mtu, low := min s.low mtu }

/-- Where a black hole that swallows packets of `size` bytes takes the connection. -/
def blackHoleTarget (s : Search) (size : ℕ) : Option ℕ :=
  if s.mode = .off then none
  else
    let base := min s.base s.max
    let t := if base < size then base else Max.max (size / 2) s.floor
    if t < size then some t else none

/-- A black hole is suspected: the search starts from `low`, taken as what works. -/
def onBlackHole (s : Search) (low : ℕ) (now : Instant) : Search :=
  let low := min low s.max
  { s with enabled := true, low := low, high := Max.max s.high low, fails := 0, stamp := now }

/-- Halfway between what works and what may. -/
def middle (s : Search) : ℕ := s.low + (s.high - s.low + 1) / 2

def nextProbe (s : Search) (now : Instant) : Search × Option ℕ :=
  if !s.enabled then (s, none)
  else if s.high - s.low < PROBE_THRESHOLD then
    if now - s.stamp < PROBE_INTERVAL then (s, none)
    else
      -- the search has rested long enough and starts again
      let s := { s with high := s.max, stamp := now, fails := 0 }
      if s.high - s.low < PROBE_THRESHOLD then (s, none) else (s, some s.middle)
  else (s, some s.middle)

/-- A probe of `mtu` bytes was delivered. -/
def onSuccess (s : Search) (mtu : ℕ) (now : Instant) : Search :=
  let low := Max.max s.low (min mtu s.max)
  { s with low := low, high := Max.max s.high low, fails := 0, stamp := now }

/-- A probe of `mtu` bytes was lost: after `MAX_PROBES` such, the size is taken as too large. -/
def onFailure (s : Search) (mtu : ℕ) (now : Instant) : Search :=
  let s := if mtu ≠ s.lastSize then { s with lastSize := mtu, fails := 0 } else s
  let s := { s with fails := s.fails + 1 }
  let s := if MAX_PROBES ≤ s.fails then { s with high := Max.max (mtu - 1) s.low, fails := 0 } else s
  { s with stamp := now }

def Ordered (s : Search) : Prop := s.floor ≤ s.low ∧ s.low ≤ s.high ∧ s.high ≤ s.max

instance (s : Search) : Decidable s.Ordered := inferInstanceAs (Decidable (_ ∧ _))

/-- The failure of a probe of `mtu` bytes now makes the search give the size up. -/
def givesUp (s : Search) (mtu : ℕ) : Bool := mtu == s.lastSize && MAX_PROBES ≤ s.fails + 1

variable {s : Search}

theorem ordered_new (mode : MtuProbing) (overhead floor : ℕ) (now : Instant) :
    (new mode overhead floor now).Ordered := by
  simp only [Ordered, new]
  omega

/-- The handshake sets the bounds afresh: no later than its own floor and base. -/
theorem Ordered.setMax (hb : s.floor ≤ s.base) (max : ℕ) : (s.setMax max).Ordered := by
  simp only [Ordered, Search.setMax]
  omega

theorem Ordered.clamp (h : s.Ordered) (mtu : ℕ) : (s.clamp mtu).Ordered := by
  simp only [Ordered, Search.clamp] at h ⊢
  omega

theorem Ordered.onBlackHole (h : s.Ordered) (hb : s.floor ≤ s.base) {size low : ℕ}
    (hl : s.blackHoleTarget size = some low) (now : Instant) : (s.onBlackHole low now).Ordered := by
  have hfloor : s.floor ≤ low := by
    have hmax : s.floor ≤ s.max := h.1.trans (h.2.1.trans h.2.2)
    simp only [blackHoleTarget] at hl
    split_ifs at hl <;> simp only [Option.some.injEq] at hl <;> omega
  simp only [Ordered, Search.onBlackHole] at h ⊢
  omega

theorem Ordered.onSuccess (h : s.Ordered) (mtu : ℕ) (now : Instant) : (s.onSuccess mtu now).Ordered := by
  simp only [Ordered, Search.onSuccess] at h ⊢
  omega

theorem onFailure_bounds (s : Search) (mtu : ℕ) (now : Instant) :
    (s.onFailure mtu now).floor = s.floor ∧ (s.onFailure mtu now).low = s.low ∧
      (s.onFailure mtu now).max = s.max ∧ (s.onFailure mtu now).base = s.base ∧
      (s.onFailure mtu now).high = if s.givesUp mtu then Max.max (mtu - 1) s.low else s.high := by
  by_cases hm : mtu = s.lastSize
  · by_cases hf : MAX_PROBES ≤ s.fails + 1 <;> simp [onFailure, givesUp, hm, hf]
  · simp [onFailure, givesUp, hm, MAX_PROBES]

/-- A failure keeps the bounds in order unless it gives up a size above what the path could
carry. -/
theorem ordered_onFailure_iff (h : s.Ordered) (mtu : ℕ) (now : Instant) :
    (s.onFailure mtu now).Ordered ↔ (s.givesUp mtu = true → mtu ≤ s.max + 1) := by
  obtain ⟨h1, h2, h3, -, h5⟩ := onFailure_bounds s mtu now
  simp only [Ordered, h1, h2, h3, h5] at h ⊢
  cases s.givesUp mtu <;> simp <;> omega

/-- A restart may raise the upper bound to the most the path could carry, no further. -/
theorem nextProbe_bounds (s : Search) (now : Instant) :
    (s.nextProbe now).1.floor = s.floor ∧ (s.nextProbe now).1.low = s.low ∧
      (s.nextProbe now).1.max = s.max ∧ (s.nextProbe now).1.base = s.base ∧
      ((s.nextProbe now).1.high = s.high ∨ (s.nextProbe now).1.high = s.max) ∧
      ∀ p, (s.nextProbe now).2 = some p → PROBE_THRESHOLD ≤ (s.nextProbe now).1.high - s.low ∧
        p = s.low + ((s.nextProbe now).1.high - s.low + 1) / 2 := by
  simp only [nextProbe]
  split_ifs <;> simp_all [middle]

theorem Ordered.nextProbe (h : s.Ordered) (now : Instant) : (s.nextProbe now).1.Ordered := by
  obtain ⟨h1, h2, h3, -, h5, -⟩ := nextProbe_bounds s now
  simp only [Ordered, h1, h2, h3] at h ⊢
  omega

theorem Ordered.probe_between (h : s.Ordered) {now : Instant} {p : ℕ} (hp : (s.nextProbe now).2 = some p) :
    s.low < p ∧ p ≤ s.max := by
  obtain ⟨-, -, -, -, h5, h6⟩ := nextProbe_bounds s now
  obtain ⟨h7, rfl⟩ := h6 p hp
  have h8 := h.2.2
  have h9 := h.2.1
  simp only [PROBE_THRESHOLD] at h7
  omega

end Search

inductive SearchOp where
  | setMax (max : ℕ)
  | clamp (mtu : ℕ)
  | blackHole (size : ℕ) (now : Instant)
  | nextProbe (now : Instant)
  | success (mtu : ℕ) (now : Instant)
  | failure (mtu : ℕ) (now : Instant)
deriving DecidableEq, Repr

/-- A search and the sizes it has asked to probe with. -/
structure Probing where
  search : Search
  probed : List ℕ
deriving DecidableEq, Repr

namespace Probing

def init (mode : MtuProbing) (overhead floor : ℕ) (now : Instant) : Probing :=
  { search := Search.new mode overhead floor now, probed := [] }

/-- One request. Success and failure are reported only of sizes that were probed. -/
def step (s : Probing) : SearchOp → Option Probing
  | .setMax max => some { s with search := s.search.setMax max }
  | .clamp mtu => some { s with search := s.search.clamp mtu }
  | .blackHole size now =>
    (s.search.blackHoleTarget size).map fun low => { s with search := s.search.onBlackHole low now }
  | .nextProbe now =>
    let r := s.search.nextProbe now
    some { search := r.1, probed := s.probed ++ r.2.toList }
  | .success mtu now =>
    if mtu ∈ s.probed then some { s with search := s.search.onSuccess mtu now } else none
  | .failure mtu now =>
    if mtu ∈ s.probed then some { s with search := s.search.onFailure mtu now } else none

/-- A failure does not give up a size above what the path could carry. -/
def Fair (s : Probing) : SearchOp → Prop
  | .failure mtu _ => s.search.givesUp mtu = true → mtu ≤ s.search.max + 1
  | _ => True

instance (s : Probing) : (op : SearchOp) → Decidable (Fair s op)
  | .failure mtu _ => inferInstanceAs (Decidable (s.search.givesUp mtu = true → mtu ≤ s.search.max + 1))
  | .setMax _ | .clamp _ | .blackHole _ _ | .nextProbe _ | .success _ _ => isTrue trivial

structure Inv (s : Probing) : Prop where
  ordered : s.search.Ordered
  base : s.search.floor ≤ s.search.base

variable {s t : Probing}

theorem inv_init (mode : MtuProbing) (overhead floor : ℕ) (now : Instant) :
    Inv (init mode overhead floor now) :=
  ⟨Search.ordered_new mode overhead floor now, le_max_right _ _⟩

theorem inv_step (op : SearchOp) (h : Inv s) (hf : Fair s op) (hs : step s op = some t) : Inv t := by
  obtain ⟨ho, hb⟩ := h
  cases op with
  | setMax max =>
    obtain rfl := Option.some.inj hs
    exact ⟨Search.Ordered.setMax hb max, hb⟩
  | clamp mtu =>
    obtain rfl := Option.some.inj hs
    exact ⟨ho.clamp mtu, hb⟩
  | blackHole size now =>
    obtain ⟨low, hl, rfl⟩ := Option.map_eq_some_iff.mp hs
    exact ⟨ho.onBlackHole hb hl now, hb⟩
  | nextProbe now =>
    obtain rfl := Option.some.inj hs
    obtain ⟨h1, -, -, h4, -⟩ := Search.nextProbe_bounds s.search now
    refine ⟨ho.nextProbe now, ?_⟩
    simpa only [h1, h4] using hb
  | success mtu now =>
    simp only [step] at hs
    split at hs
    · obtain rfl := Option.some.inj hs
      exact ⟨ho.onSuccess mtu now, hb⟩
    · cases hs
  | failure mtu now =>
    simp only [step] at hs
    split at hs
    · obtain rfl := Option.some.inj hs
      obtain ⟨h1, -, -, h4, -⟩ := Search.onFailure_bounds s.search mtu now
      refine ⟨(Search.ordered_onFailure_iff ho mtu now).mpr hf, ?_⟩
      simpa only [h1, h4] using hb
    · cases hs

/-- A step between two states in order was fair. -/
theorem fair_of_ordered (op : SearchOp) (h : s.search.Ordered) (hs : step s op = some t)
    (ht : t.search.Ordered) : Fair s op := by
  cases op with
  | failure mtu now =>
    simp only [step] at hs
    split at hs
    · obtain rfl := Option.some.inj hs
      exact (Search.ordered_onFailure_iff h mtu now).mp ht
    · cases hs
  | _ => trivial

/-- Two probes of one size are lost, a third is under way, and ICMP reports a path narrower than
it. -/
def clampedProbe : List SearchOp :=
  [.setMax 1500, .nextProbe 1, .failure 1282 2, .nextProbe 3, .failure 1282 4, .nextProbe 5, .clamp 1100]

end Probing

/-! ## Convergence

Probes answered by a path that carries packets of up to `path` bytes, all at one time.
-/

namespace Search

variable {s : Search} {path : ℕ} {now : Instant}

def answer (s : Search) (path mtu : ℕ) (now : Instant) : Search :=
  if mtu ≤ path then s.onSuccess mtu now else s.onFailure mtu now

/-- Up to `n` probes with their answers, and the sizes probed. -/
def probe (path : ℕ) (now : Instant) : ℕ → Search → Search × List ℕ
  | 0, s => (s, [])
  | n + 1, s =>
    match s.nextProbe now with
    | (s, none) => (s, [])
    | (s, some mtu) =>
      let r := probe path now n (s.answer path mtu now)
      (r.1, mtu :: r.2)

/-- The search is under way, within its interval and below what the path carries. -/
structure Underway (s : Search) (path : ℕ) (now : Instant) : Prop where
  enabled : s.enabled = true
  ordered : s.low ≤ s.high
  works : s.low ≤ path
  early : now - s.stamp < PROBE_INTERVAL

/-- The probes end, just below the smaller of what the path carries and the upper bound, with no size probed more than
three times. -/
def Converges (s : Search) (path : ℕ) (now : Instant) : Prop :=
  ∃ n, ((probe path now n s).1.nextProbe now).2 = none ∧
    min path s.high < (probe path now n s).1.low + PROBE_THRESHOLD ∧
    ∀ mtu, (probe path now n s).2.count mtu ≤ 3

/-- A probe that the path carries raises the lower bound, which is not yet at the most the path could carry. -/
def Climbs (s : Search) (path : ℕ) (now : Instant) : Prop :=
  ∀ n mtu, ((probe path now n s).1.nextProbe now).2 = some mtu → mtu ≤ path →
    (probe path now n s).1.low < (probe path now n s).1.max

theorem Underway.nextProbe (h : s.Underway path now) :
    s.nextProbe now = (s, if s.high - s.low < PROBE_THRESHOLD then none else some s.middle) := by
  rw [Search.nextProbe, if_neg (by rw [h.enabled]; exact nofun)]
  split
  · rw [if_pos h.early]
  · rfl

theorem Underway.middle (h : s.Underway path now) (hwide : ¬ s.high - s.low < PROBE_THRESHOLD) :
    s.low < s.middle ∧ s.middle ≤ s.high := by
  have hlh := h.ordered
  simp only [Search.middle, PROBE_THRESHOLD] at hwide ⊢
  omega

theorem answer_bounds (s : Search) (path mtu : ℕ) (now : Instant) :
    (s.answer path mtu now).enabled = s.enabled ∧ (s.answer path mtu now).max = s.max ∧
      (s.answer path mtu now).stamp = now ∧
      (s.answer path mtu now).low = (if mtu ≤ path then Max.max s.low (min mtu s.max) else s.low) ∧
      (s.answer path mtu now).high =
        if mtu ≤ path then Max.max s.high (Max.max s.low (min mtu s.max))
        else if s.givesUp mtu then Max.max (mtu - 1) s.low else s.high := by
  unfold answer
  split
  · exact ⟨rfl, rfl, rfl, rfl, rfl⟩
  · obtain ⟨-, hlow, hmax, -, hhigh⟩ := onFailure_bounds s mtu now
    refine ⟨?_, hmax, rfl, hlow, hhigh⟩
    simp only [onFailure]
    split_ifs <;> rfl

theorem Underway.answer (h : s.Underway path now) (hwide : ¬ s.high - s.low < PROBE_THRESHOLD) :
    (s.answer path s.middle now).Underway path now := by
  obtain ⟨henabled, -, hstamp, hlow, hhigh⟩ := answer_bounds s path s.middle now
  have hmid := h.middle hwide
  have hlh := h.ordered
  have hworks := h.works
  constructor
  · rw [henabled, h.enabled]
  · rw [hlow, hhigh]
    split
    · exact le_max_right _ _
    · split
      · exact le_max_right _ _
      · exact hlh
  · rw [hlow]
    split
    · omega
    · exact hworks
  · rw [hstamp, Nat.sub_self]
    decide

theorem Underway.probe_succ (h : s.Underway path now) (n : ℕ) :
    probe path now (n + 1) s =
      if s.high - s.low < PROBE_THRESHOLD then (s, [])
      else ((probe path now n (s.answer path s.middle now)).1,
        s.middle :: (probe path now n (s.answer path s.middle now)).2) := by
  rw [probe, h.nextProbe]
  split_ifs <;> rfl

theorem Underway.probe (h : s.Underway path now) (n : ℕ) : (Search.probe path now n s).1.Underway path now := by
  induction n generalizing s with
  | zero => exact h
  | succ n ih =>
    rw [h.probe_succ]
    split
    · exact h
    · exact ih (h.answer ‹_›)

theorem Underway.probe_add (h : s.Underway path now) (m n : ℕ) :
    (Search.probe path now (m + n) s).1 = (Search.probe path now n (Search.probe path now m s).1).1 := by
  induction m generalizing s with
  | zero => rw [Nat.zero_add]; rfl
  | succ m ih =>
    rw [Nat.succ_add, h.probe_succ, h.probe_succ]
    split
    · cases n with
      | zero => rfl
      | succ n => rw [h.probe_succ, if_pos ‹_›]
    · exact ih (h.answer ‹_›)

theorem Underway.low_le (h : s.Underway path now) (n : ℕ) : s.low ≤ (Search.probe path now n s).1.low := by
  induction n generalizing s with
  | zero => exact le_rfl
  | succ n ih =>
    rw [h.probe_succ]
    split
    · exact le_rfl
    · apply le_trans _ (ih (h.answer ‹_›))
      rw [(answer_bounds s path s.middle now).2.2.2.1]
      split
      · exact le_max_left _ _
      · exact le_rfl

/-- The upper bound stays at or above what the path carries, unless it began below. -/
theorem Underway.min_le_high (h : s.Underway path now) (n : ℕ) :
    min path s.high ≤ (Search.probe path now n s).1.high := by
  induction n generalizing s with
  | zero => exact min_le_right _ _
  | succ n ih =>
    rw [h.probe_succ]
    split
    · exact min_le_right _ _
    · apply le_trans _ (ih (h.answer ‹_›))
      obtain ⟨-, -, -, -, hhigh⟩ := answer_bounds s path s.middle now
      rw [hhigh]
      split_ifs <;> omega

/-- A carried probe that does not raise the lower bound is repeated for ever. -/
theorem Underway.stuck (h : s.Underway path now) (hwide : ¬ s.high - s.low < PROBE_THRESHOLD)
    (hcarried : s.middle ≤ path) (hmax : s.max ≤ s.low) (n : ℕ) :
    ¬ (Search.probe path now n s).1.high - (Search.probe path now n s).1.low < PROBE_THRESHOLD := by
  induction n generalizing s with
  | zero => exact hwide
  | succ n ih =>
    rw [h.probe_succ, if_neg hwide]
    obtain ⟨-, hm, -, hlow, hhigh⟩ := answer_bounds s path s.middle now
    have hlow' : (s.answer path s.middle now).low = s.low := by
      rw [hlow, if_pos hcarried]
      omega
    have hhigh' : (s.answer path s.middle now).high = s.high := by
      have hlh := h.ordered
      rw [hhigh, if_pos hcarried]
      omega
    apply ih (h.answer hwide)
    · rwa [hlow', hhigh']
    · rwa [Search.middle, hlow', hhigh']
    · rwa [hlow', hm]

theorem Underway.nextProbe_eq_none (h : s.Underway path now) :
    (s.nextProbe now).2 = none ↔ s.high - s.low < PROBE_THRESHOLD := by
  rw [h.nextProbe]
  split_ifs with hw <;> simp [hw]

theorem climbs_of_converges (h : s.Underway path now) (hc : s.Converges path now) : s.Climbs path now := by
  obtain ⟨N, hend, -, -⟩ := hc
  rw [(h.probe N).nextProbe_eq_none] at hend
  intro n mtu hmtu hcarried
  by_contra hmax
  have hn := h.probe n
  rw [hn.nextProbe] at hmtu
  split at hmtu
  · exact nomatch hmtu
  rename_i hwide
  obtain rfl := Option.some.inj hmtu
  obtain hle | hle := Nat.le_total n N
  · obtain ⟨k, rfl⟩ := Nat.exists_eq_add_of_le hle
    rw [h.probe_add] at hend
    exact hn.stuck hwide hcarried (Nat.le_of_not_lt hmax) k hend
  · obtain ⟨k, rfl⟩ := Nat.exists_eq_add_of_le hle
    -- the search had ended before
    apply hwide
    rw [h.probe_add]
    cases k with
    | zero => exact hend
    | succ k => rwa [(h.probe N).probe_succ, if_pos hend]

theorem Climbs.answer (h : s.Underway path now) (hc : s.Climbs path now)
    (hwide : ¬ s.high - s.low < PROBE_THRESHOLD) : (s.answer path s.middle now).Climbs path now := by
  intro n mtu hmtu
  have hn := hc (n + 1) mtu
  rw [h.probe_succ, if_neg hwide] at hn
  exact hn hmtu

theorem Climbs.low_lt_max (h : s.Underway path now) (hc : s.Climbs path now)
    (hwide : ¬ s.high - s.low < PROBE_THRESHOLD) (hcarried : s.middle ≤ path) : s.low < s.max := by
  apply hc 0 s.middle _ hcarried
  change (s.nextProbe now).2 = _
  rw [h.nextProbe, if_neg hwide]

/-- How many failures of the size to be probed are still borne. -/
def patience (s : Search) : ℕ := if s.lastSize = s.middle then 3 - s.fails else 3

def measure (s : Search) : ℕ := 4 * (s.high - s.low) + s.patience

theorem patience_le (s : Search) : s.patience ≤ 3 := by
  unfold patience
  split <;> omega

theorem onFailure_counted {mtu : ℕ} (hkeep : s.givesUp mtu = false) :
    (s.onFailure mtu now).lastSize = mtu ∧
      (s.onFailure mtu now).fails = if mtu = s.lastSize then s.fails + 1 else 1 := by
  by_cases hl : mtu = s.lastSize
  · have hf : ¬ MAX_PROBES ≤ s.fails + 1 := by
      simpa [givesUp, hl] using hkeep
    simp [onFailure, hl, hf]
  · simp [onFailure, hl, MAX_PROBES]

theorem onFailure_middle {mtu : ℕ} (hkeep : s.givesUp mtu = false) : (s.onFailure mtu now).middle = s.middle := by
  obtain ⟨-, hlow, -, -, hhigh⟩ := onFailure_bounds s mtu now
  rw [hkeep, if_neg nofun] at hhigh
  rw [Search.middle, hlow, hhigh, Search.middle]

theorem onFailure_patience (hkeep : s.givesUp s.middle = false) :
    0 < (s.onFailure s.middle now).patience ∧ (s.onFailure s.middle now).patience < s.patience := by
  obtain ⟨hlast, hfails⟩ := @onFailure_counted s now _ hkeep
  rw [patience, onFailure_middle hkeep, hlast, if_pos rfl, hfails, patience]
  by_cases hl : s.middle = s.lastSize
  · have hf : ¬ 3 ≤ s.fails + 1 := by
      simpa [givesUp, hl, MAX_PROBES] using hkeep
    rw [if_pos hl, if_pos hl.symm]
    omega
  · rw [if_neg hl, if_neg (Ne.symm hl)]
    decide

theorem measure_answer (h : s.Underway path now) (hc : s.Climbs path now)
    (hwide : ¬ s.high - s.low < PROBE_THRESHOLD) : (s.answer path s.middle now).measure < s.measure := by
  obtain ⟨-, -, -, hlow, hhigh⟩ := answer_bounds s path s.middle now
  have hmid := h.middle hwide
  have hlh := h.ordered
  have hpat := patience_le (s.answer path s.middle now)
  unfold measure
  by_cases hcarried : s.middle ≤ path
  · have hmax := hc.low_lt_max h hwide hcarried
    rw [if_pos hcarried] at hlow hhigh
    omega
  · rw [if_neg hcarried] at hlow hhigh
    cases hg : s.givesUp s.middle with
    | true =>
      rw [hg, if_pos rfl] at hhigh
      omega
    | false =>
      rw [hg, if_neg nofun] at hhigh
      have hp := (@onFailure_patience s now hg).2
      have he : s.answer path s.middle now = s.onFailure s.middle now := if_neg hcarried
      rw [← he] at hp
      omega

theorem exists_end (h : s.Underway path now) (hc : s.Climbs path now) :
    ∃ n, (probe path now n s).1.high - (probe path now n s).1.low < PROBE_THRESHOLD := by
  induction hm : s.measure using Nat.strong_induction_on generalizing s with
  | _ m ih =>
    by_cases hwide : s.high - s.low < PROBE_THRESHOLD
    · exact ⟨0, hwide⟩
    · subst hm
      obtain ⟨n, hn⟩ := ih _ (measure_answer h hc hwide) (h.answer hwide) (hc.answer h hwide) rfl
      refine ⟨n + 1, ?_⟩
      rwa [h.probe_succ, if_neg hwide]

/-- How often a size may still be probed: once if the path carries it, three times if it does not. -/
def budget (s : Search) (path mtu : ℕ) : ℕ :=
  if mtu ≤ path then (if s.low < s.max ∧ s.low < mtu then 1 else 0)
  else if s.high < mtu then 0
  else if mtu = s.middle then Max.max s.patience 1
  else 3

theorem budget_le (s : Search) (path mtu : ℕ) : s.budget path mtu ≤ 3 := by
  have hp := s.patience_le
  unfold budget
  split_ifs <;> omega

theorem budget_carried {mtu : ℕ} (hm : mtu ≤ path) :
    s.budget path mtu = if s.low < s.max ∧ s.low < mtu then 1 else 0 := if_pos hm

theorem budget_above {mtu : ℕ} (hm : path < mtu) (hhigh : s.high < mtu) : s.budget path mtu = 0 := by
  rw [budget, if_neg (Nat.not_le.mpr hm), if_pos hhigh]

theorem budget_middle (hm : path < s.middle) (hhigh : s.middle ≤ s.high) :
    s.budget path s.middle = Max.max s.patience 1 := by
  rw [budget, if_neg (Nat.not_le.mpr hm), if_neg (Nat.not_lt.mpr hhigh), if_pos rfl]

theorem budget_other {mtu : ℕ} (hm : path < mtu) (hhigh : mtu ≤ s.high) (he : mtu ≠ s.middle) :
    s.budget path mtu = 3 := by
  rw [budget, if_neg (Nat.not_le.mpr hm), if_neg (Nat.not_lt.mpr hhigh), if_neg he]

/-- A size not probed just now may be probed as often as before. -/
theorem budget_answer_other (h : s.Underway path now) (hwide : ¬ s.high - s.low < PROBE_THRESHOLD) {mtu : ℕ}
    (he : mtu ≠ s.middle) : (s.answer path s.middle now).budget path mtu ≤ s.budget path mtu := by
  obtain ⟨-, hmax, -, hlow, hhigh⟩ := answer_bounds s path s.middle now
  have hmid := h.middle hwide
  by_cases hm : mtu ≤ path
  · have hle : s.low ≤ (s.answer path s.middle now).low := by
      rw [hlow]
      split <;> omega
    rw [budget_carried hm, budget_carried hm, hmax]
    split_ifs <;> omega
  · rw [Nat.not_le] at hm
    have hle : (s.answer path s.middle now).high ≤ s.high := by
      rw [hhigh]
      split_ifs <;> omega
    by_cases hin : mtu ≤ s.high
    · rw [budget_other hm hin he]
      exact budget_le _ _ _
    · rw [budget_above hm (by omega)]
      exact Nat.zero_le _

/-- The size probed just now may be probed once less. -/
theorem budget_answer_middle (h : s.Underway path now) (hc : s.Climbs path now)
    (hwide : ¬ s.high - s.low < PROBE_THRESHOLD) :
    (s.answer path s.middle now).budget path s.middle + 1 ≤ s.budget path s.middle := by
  obtain ⟨-, hmax, -, hlow, hhigh⟩ := answer_bounds s path s.middle now
  have hmid := h.middle hwide
  by_cases hm : s.middle ≤ path
  · have hlt := hc.low_lt_max h hwide hm
    rw [if_pos hm] at hlow
    rw [budget_carried hm, budget_carried hm, hmax, hlow, if_neg (by omega), if_pos ⟨hlt, hmid.1⟩]
  · have hm' := Nat.not_le.mp hm
    rw [if_neg hm] at hhigh
    rw [budget_middle hm' hmid.2]
    cases hg : s.givesUp s.middle with
    | true =>
      rw [hg, if_pos rfl] at hhigh
      rw [budget_above hm' (by omega)]
      exact le_max_right _ _
    | false =>
      rw [hg, if_neg nofun] at hhigh
      have hf : s.answer path s.middle now = s.onFailure s.middle now := if_neg hm
      have hp := @onFailure_patience s now hg
      have hmid' : (s.answer path s.middle now).middle = s.middle := by rw [hf, onFailure_middle hg]
      have hb := @budget_middle (s.answer path s.middle now) path (by rwa [hmid'])
        (by rw [hmid', hhigh]; exact hmid.2)
      rw [hmid'] at hb
      rw [hb, hf]
      omega

theorem budget_answer (h : s.Underway path now) (hc : s.Climbs path now)
    (hwide : ¬ s.high - s.low < PROBE_THRESHOLD) (mtu : ℕ) :
    (s.answer path s.middle now).budget path mtu + [s.middle].count mtu ≤ s.budget path mtu := by
  by_cases he : mtu = s.middle
  · subst he
    rw [List.count_singleton_self]
    exact budget_answer_middle h hc hwide
  · rw [List.count_eq_zero.mpr (by simpa using he)]
    exact budget_answer_other h hwide he

theorem count_le_budget (h : s.Underway path now) (hc : s.Climbs path now) (n mtu : ℕ) :
    (probe path now n s).2.count mtu ≤ s.budget path mtu := by
  induction n generalizing s with
  | zero => exact Nat.zero_le _
  | succ n ih =>
    rw [h.probe_succ]
    split
    · exact Nat.zero_le _
    · rename_i hwide
      apply le_trans _ (budget_answer h hc hwide mtu)
      rw [← List.singleton_append, List.count_append, Nat.add_comm]
      exact Nat.add_le_add_right (ih (h.answer hwide) (hc.answer h hwide)) _

theorem converges_of_climbs (h : s.Underway path now) (hc : s.Climbs path now) : s.Converges path now := by
  obtain ⟨n, hn⟩ := exists_end h hc
  refine ⟨n, (h.probe n).nextProbe_eq_none.mpr hn, ?_, fun mtu => ?_⟩
  · have hlh := (h.probe n).ordered
    have hmin := h.min_le_high n
    omega
  · exact (count_le_budget h hc n mtu).trans (budget_le s path mtu)

/-- The lower bound only rises, and never above what the path carries; and the search converges exactly if every
carried probe raises it. -/
theorem converges_iff_climbs (h : s.Underway path now) :
    (∀ m n, m ≤ n → (probe path now m s).1.low ≤ (probe path now n s).1.low ∧ (probe path now n s).1.low ≤ path) ∧
      (s.Converges path now ↔ s.Climbs path now) := by
  constructor
  · intro m n hmn
    obtain ⟨k, rfl⟩ := Nat.exists_eq_add_of_le hmn
    refine ⟨?_, (h.probe _).works⟩
    rw [h.probe_add]
    exact (h.probe m).low_le k
  · exact ⟨climbs_of_converges h, converges_of_climbs h⟩

/-- That is so where the search does not reach past the most the path could carry. -/
theorem climbs_of_le_max (h : s.Underway path now) (hmax : min path s.high ≤ s.max) : s.Climbs path now := by
  intro n
  induction n generalizing s with
  | zero =>
    intro mtu hmtu hcarried
    change (s.nextProbe now).2 = _ at hmtu
    change s.low < s.max
    rw [h.nextProbe] at hmtu
    split at hmtu
    · exact nomatch hmtu
    · obtain rfl := Option.some.inj hmtu
      have hmid := h.middle ‹_›
      omega
  | succ n ih =>
    rw [h.probe_succ]
    split
    · intro mtu hmtu
      rw [h.nextProbe, if_pos ‹_›] at hmtu
      exact nomatch hmtu
    · rename_i hwide
      obtain ⟨-, hm, -, -, hhigh⟩ := answer_bounds s path s.middle now
      have hmid := h.middle hwide
      apply ih (h.answer hwide)
      rw [hm, hhigh]
      split_ifs <;> omega

/-- A search over what Ethernet carries, on a path of 1400 bytes. -/
def sample : Search := (Search.new .always 40 552 0).setMax 1500

theorem sample_converges : sample.Underway 1400 0 ∧ sample.Converges 1400 0 := by
  have h : sample.Underway 1400 0 := ⟨rfl, by decide, by decide, by decide⟩
  exact ⟨h, (converges_iff_climbs h).2.mpr (climbs_of_le_max h (by decide))⟩

/-- After a size above what ICMP reported has been given up, on a path that has widened since, every probe of 1191
bytes is carried and another follows. -/
theorem clampedProbe_never_ends :
    ∃ s, run Probing.step (Probing.init .always 40 552 0) (Probing.clampedProbe ++ [.failure 1282 6]) = some s ∧
      s.search.Underway 1281 6 ∧ ¬ s.search.Converges 1281 6 := by
  refine ⟨⟨{ mode := .always, enabled := true, low := 1064, high := 1281, max := 1100, floor := 552, base := 1064,
             fails := 0, lastSize := 1282, stamp := 6 }, [1282, 1282, 1282]⟩, by decide, ?_, ?_⟩
  · exact ⟨rfl, by decide, by decide, by decide⟩
  · intro hc
    have hlt := climbs_of_converges ⟨rfl, by decide, by decide, by decide⟩ hc 1 1191 (by decide) (by decide)
    revert hlt
    decide

end Search

end PktKit.Vtcp
