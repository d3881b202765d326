import PktKit.Foundations.Runs
import PktKit.Vtcp.Conn.Recovery

/-! # Proportional rate reduction

The flight in a recovery in which every ACK delivers at least a segment and the sender sends all that it is then
allowed: it comes down to the slow start threshold in proportion to what is delivered, and stays there.
-/

namespace PktKit.Vtcp
open Foundations
open Conn (prrSndcnt)

/-- The fixed numbers of a recovery. -/
structure Reduction where
  recoverFs : ℕ
  ssthresh : ℕ
  mss : ℕ
  fs_pos : 0 < recoverFs
  fs_le : recoverFs ≤ U32_MAX
  ssthresh_le : ssthresh ≤ recoverFs
  mss_pos : 0 < mss

/-- The flight, with what was delivered and sent since the recovery began. -/
structure Flight where
  pipe : ℕ
  delivered : ℕ := 0
  out : ℕ := 0
deriving DecidableEq

/-- What may be sent on an ACK: at least a segment while nothing was sent. -/
def prrAllowance (prrDelivered prrOut recoverFs ssthresh pipe delivered mss : ℕ) : ℕ :=
  let sndcnt := prrSndcnt prrDelivered prrOut recoverFs ssthresh pipe delivered mss
  if prrOut = 0 then max sndcnt mss else sndcnt

section Connection

variable {κ : Type} [CongestionController κ]

end Connection

namespace Reduction

variable {r : Reduction} {f g : Flight} {d : ℕ}

/-- The share of what was delivered that may have been sent. -/
def share (r : Reduction) (delivered : ℕ) : ℕ := (delivered * r.ssthresh + r.recoverFs - 1) / r.recoverFs

def allowance (r : Reduction) (f : Flight) (d : ℕ) : ℕ :=
  prrAllowance (f.delivered + d) f.out r.recoverFs r.ssthresh (f.pipe - d) d r.mss

/-- An ACK that delivers at least a segment and at most what is in flight, and what is sent on it. -/
def ack (r : Reduction) (f : Flight) (d : ℕ) : Option Flight :=
  if r.mss ≤ d ∧ d ≤ f.pipe then
    some ⟨f.pipe - d + r.allowance f d, f.delivered + d, f.out + r.allowance f d⟩
  else none

theorem share_mono {a b : ℕ} (h : a ≤ b) : r.share a ≤ r.share b := by
  apply Nat.div_le_div_right
  have hmul := Nat.mul_le_mul_right r.ssthresh h
  omega

theorem share_add_le (a b : ℕ) : r.share (a + b) ≤ r.share a + b := by
  have hpos := r.fs_pos
  have hmul : b * r.ssthresh ≤ r.recoverFs * b := by
    rw [Nat.mul_comm]
    exact Nat.mul_le_mul_right _ r.ssthresh_le
  rw [share, share, ← Nat.add_mul_div_left _ _ hpos, Nat.add_mul]
  apply Nat.div_le_div_right
  omega

/-- What a whole flight delivered allows is the threshold. -/
theorem share_le {a : ℕ} (h : a ≤ r.recoverFs) : r.share a ≤ r.ssthresh := by
  have hpos := r.fs_pos
  have hmul := Nat.mul_le_mul_right r.ssthresh h
  rw [share, ← Nat.lt_succ_iff, Nat.div_lt_iff_lt_mul hpos, Nat.succ_mul, Nat.mul_comm r.ssthresh]
  omega

theorem allowance_above (h : r.ssthresh < f.pipe - d) :
    f.out + r.allowance f d ≤ max f.out (r.share (f.delivered + d) + r.mss) := by
  have hpos := r.fs_pos
  simp only [allowance, prrAllowance, prrSndcnt, if_pos h, max_eq_left (Nat.succ_le_of_lt hpos)]
  rw [← share]
  split <;> omega

/-- The allowance at or below the threshold does not reach past it, but for a segment at first. -/
theorem allowance_below (h : ¬ r.ssthresh < f.pipe - d) (hd : d ≤ f.pipe) :
    f.pipe - d + r.allowance f d ≤ r.ssthresh + r.mss ∧
      min r.ssthresh f.pipe ≤ f.pipe - d + r.allowance f d := by
  have hfs := r.fs_le
  have hss := r.ssthresh_le
  simp only [allowance, prrAllowance, prrSndcnt, if_neg h]
  split <;> omega

/-- What every ACK keeps of a recovery that began with `pipe₀` in flight. -/
structure Inv (r : Reduction) (pipe₀ : ℕ) (f : Flight) : Prop where
  balance : f.pipe + f.delivered = pipe₀ + f.out
  share : r.ssthresh + r.mss < f.pipe → f.out ≤ r.share f.delivered + r.mss

theorem ack_eq (h : r.ack f d = some g) :
    (r.mss ≤ d ∧ d ≤ f.pipe) ∧
      g = ⟨f.pipe - d + r.allowance f d, f.delivered + d, f.out + r.allowance f d⟩ := by
  rw [ack] at h
  split at h
  · exact ⟨‹_›, (Option.some.inj h).symm⟩
  · exact nomatch h

theorem inv_ack {pipe₀ : ℕ} (hi : r.Inv pipe₀ f) (h : r.ack f d = some g) : r.Inv pipe₀ g := by
  obtain ⟨⟨hm, hd⟩, rfl⟩ := ack_eq h
  have hbal := hi.balance
  constructor
  · show f.pipe - d + r.allowance f d + (f.delivered + d) = pipe₀ + (f.out + r.allowance f d)
    omega
  · show r.ssthresh + r.mss < f.pipe - d + r.allowance f d →
      f.out + r.allowance f d ≤ r.share (f.delivered + d) + r.mss
    intro hlt
    by_cases habove : r.ssthresh < f.pipe - d
    · have hout := hi.share (by omega)
      have hall := allowance_above habove
      have hmono := @share_mono r _ _ (Nat.le_add_right f.delivered d)
      omega
    · have hbelow := allowance_below habove hd
      omega

/-- An ACK does not take the flight below the threshold, unless it was, nor above it by more than a segment, unless
it was. -/
theorem ack_bounds (h : r.ack f d = some g) :
    min r.ssthresh f.pipe ≤ g.pipe ∧ (f.pipe ≤ r.ssthresh + r.mss → g.pipe ≤ r.ssthresh + r.mss) := by
  obtain ⟨⟨hm, hd⟩, rfl⟩ := ack_eq h
  by_cases habove : r.ssthresh < f.pipe - d
  · constructor
    · show min r.ssthresh f.pipe ≤ f.pipe - d + r.allowance f d
      omega
    · intro hle
      omega
  · obtain ⟨hle, hge⟩ := allowance_below habove hd
    exact ⟨hge, fun _ => hle⟩

theorem Inv.pipe_le {pipe₀ : ℕ} (hi : r.Inv pipe₀ f) (h₀ : pipe₀ ≤ r.recoverFs) (hd : pipe₀ ≤ f.delivered) :
    f.pipe ≤ r.ssthresh + r.mss := by
  by_contra hlt
  have hout := hi.share (Nat.lt_of_not_le hlt)
  have hbal := hi.balance
  obtain ⟨k, hk⟩ := Nat.exists_eq_add_of_le hd
  have hadd := r.share_add_le pipe₀ k
  have hle := share_le h₀
  rw [hk] at hout hbal
  omega

/-- The flight keeps between the bounds of RFC 6937 on every ACK of every recovery. -/
theorem flight_bounds {pipe₀ : ℕ} (h₀ : pipe₀ ≤ r.recoverFs) {ds : List ℕ}
    (hrun : Runs.run r.ack { pipe := pipe₀ } ds = some f) :
    (∀ d g, r.ack f d = some g → min r.ssthresh f.pipe ≤ g.pipe) ∧
      (r.ssthresh + r.mss < f.pipe → f.out ≤ r.share f.delivered + r.mss) ∧
      (f.pipe ≤ r.ssthresh + r.mss → ∀ ds' g, Runs.run r.ack f ds' = some g → g.pipe ≤ r.ssthresh + r.mss) ∧
      (pipe₀ ≤ f.delivered → f.pipe ≤ r.ssthresh + r.mss) := by
  have hinv : r.Inv pipe₀ f :=
    Runs.run_invariant (fun _ _ _ => inv_ack) hrun ⟨rfl, fun _ => Nat.zero_le _⟩
  refine ⟨fun d g h => (ack_bounds h).1, hinv.share, fun hle ds' g h => ?_, hinv.pipe_le h₀⟩
  exact Runs.run_invariant (P := fun f => f.pipe ≤ r.ssthresh + r.mss)
    (fun _ _ _ hi h => (ack_bounds h).2 hi) h hle

/-- Twenty segments in flight, to be brought down to ten. -/
def sample : Reduction := ⟨20000, 10000, 1000, by decide, by decide, by decide, by decide⟩

/-- Two ACKs of a recovery with one segment lost. -/
theorem flight_bounds_sample :
    ∃ f, Runs.run sample.ack { pipe := 19000 } [1000, 1000] = some f ∧ f.pipe = 18000 ∧
      f.out ≤ sample.share f.delivered + sample.mss := by
  have hrun : Runs.run sample.ack { pipe := 19000 } [1000, 1000] = some ⟨18000, 2000, 1000⟩ := by decide
  exact ⟨_, hrun, rfl, (flight_bounds (by decide) hrun).2.1 (by decide)⟩

end Reduction

end PktKit.Vtcp
