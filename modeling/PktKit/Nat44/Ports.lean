import PktKit.Foundations.Runs
import PktKit.Foundations.Words

/-! # Outside ports

How many holders every outside port has, with a bitmap of the free ones and a count of those free in
the dynamic pool. Searches read the bitmap a word at a time.
-/

namespace PktKit.Nat44
open Foundations

abbrev Port := BitVec 16

def EVEN : BitVec 64 := 0x5555555555555555

/-- The lowest inside source port a new mapping keeps. -/
def PRESERVE_MIN : Port := 1024

structure PortUse where
  holders : ℕ → BitVec 16
  /-- bit set: the port is free -/
  freeBits : ℕ → BitVec 64
  /-- free ports of the pool, even and odd -/
  free : Bool → BitVec 32
  pool : Port × Port

namespace PortUse

def new (lo hi : Port) : PortUse :=
  let evens := (BitVec.ofNat 32 (hi.toNat / 2) + 1) - BitVec.ofNat 32 ((lo.toNat + 1) / 2)
  let total := (hi - lo).setWidth 32 + 1
  { holders := fun _ => 0
    freeBits := fun _ => BitVec.allOnes 64
    free := fun odd => if odd then total - evens else evens
    pool := (lo, hi) }

def inPool (u : PortUse) (p : Port) : Bool := u.pool.1 ≤ p && p ≤ u.pool.2

def odd (p : Port) : Bool := p &&& 1 == 1

def acquire (u : PortUse) (p : Port) : PortUse :=
  let before := u.holders p.toNat
  let u := { u with holders := Function.update u.holders p.toNat (before + 1) }
  if before = 0 then
    let w := p.toNat / 64
    let u := { u with freeBits := Function.update u.freeBits w (u.freeBits w &&& ~~~bit 64 (p.toNat % 64)) }
    if u.inPool p then { u with free := Function.update u.free (odd p) (u.free (odd p) - 1) } else u
  else u

def release (u : PortUse) (p : Port) : PortUse :=
  let before := u.holders p.toNat
  let u := { u with holders := Function.update u.holders p.toNat (before - 1) }
  if before = 1 then
    let w := p.toNat / 64
    let u := { u with freeBits := Function.update u.freeBits w (u.freeBits w ||| bit 64 (p.toNat % 64)) }
    if u.inPool p then { u with free := Function.update u.free (odd p) (u.free (odd p) + 1) } else u
  else u

def isFree (u : PortUse) (p : Port) : Bool := u.holders p.toNat == 0

def poolFree (u : PortUse) : Option Bool → BitVec 32
  | some odd => u.free odd
  | none => u.free false + u.free true

def freeWord (u : PortUse) (range : Port × Port) (word : ℕ) : BitVec 64 :=
  let base := word * 64
  let lo := range.1.toNat - base
  let hi := min (range.2.toNat - base) 63
  u.freeBits word &&& (BitVec.allOnes 64 <<< lo) &&& (BitVec.allOnes 64 >>> (63 - hi))

/-- The first port of a range that `pick` finds in a word of free ports. -/
def found (u : PortUse) (pick : BitVec 64 → BitVec 64) (range : Port × Port) : Option Port :=
  let first := range.1.toNat / 64
  let last := range.2.toNat / 64
  (firstBit (fun w => pick (u.freeWord range w)) first (last + 1 - first)).map (BitVec.ofNat 16)

def clamp (range : Port × Port) (start : Port) : Port :=
  if start < range.1 then range.1 else if range.2 < start then range.2 else start

/-- The first port at or after `start`, wrapping, that `pick` finds. -/
def search (u : PortUse) (range : Port × Port) (start : Port) (pick : BitVec 64 → BitVec 64) : Option Port :=
  if range.2 < range.1 then none
  else
    let start := clamp range start
    (u.found pick (start, range.2)).or (if range.1 < start then u.found pick (range.1, start) else none)

def find (u : PortUse) (range : Port × Port) (start : Port) (odd : Option Bool) : Option Port :=
  let mask := match odd with
    | none => BitVec.allOnes 64
    | some false => EVEN
    | some true => EVEN <<< 1
  u.search range start fun bits => bits &&& mask

/-- The outside port for a new mapping of the inside port `want`. -/
def choose (u : PortUse) (want start : Port) : Option Port :=
  if PRESERVE_MIN ≤ want ∧ u.isFree want then some want
  else if 0 < u.poolFree (some (odd want)) then u.find u.pool start (some (odd want))
  else if 0 < u.poolFree none then u.find u.pool start none
  else none

/-- An even port of a range that is free along with the next one. -/
def findPair (u : PortUse) (range : Port × Port) (start : Port) : Option Port :=
  u.search range start fun bits => bits &&& (bits >>> 1) &&& EVEN

/-! ## Searching -/

variable {u : PortUse} {range : Port × Port} {start p q : Port} {pick : BitVec 64 → BitVec 64} {i n w : ℕ}

def freeBit (u : PortUse) (n : ℕ) : Bool := bitAt u.freeBits n

theorem getLsbD_freeWord (hi : i < 64) (hhi : w * 64 ≤ range.2.toNat) :
    (u.freeWord range w).getLsbD i =
      ((u.freeBits w).getLsbD i && decide (range.1.toNat ≤ w * 64 + i ∧ w * 64 + i ≤ range.2.toNat)) := by
  simp only [freeWord, BitVec.getLsbD_and, BitVec.getLsbD_shiftLeft, BitVec.getLsbD_ushiftRight,
    BitVec.getLsbD_allOnes, hi, decide_true, Bool.true_and, Bool.and_assoc]
  congr 1
  rw [Bool.eq_iff_iff]
  simp only [Bool.and_eq_true, Bool.not_eq_true', decide_eq_false_iff_not, decide_eq_true_eq, not_lt]
  omega

theorem bitAt_freeWord (hhi : n / 64 ≤ range.2.toNat / 64) :
    bitAt (u.freeWord range) n =
      (u.freeBit n && decide (range.1.toNat ≤ n ∧ n ≤ range.2.toNat)) := by
  have hsplit : n / 64 * 64 + n % 64 = n := Nat.div_add_mod' n 64
  rw [bitAt, getLsbD_freeWord (Nat.mod_lt n (by norm_num)) (by omega), hsplit]
  rfl

/-- What a search with `pick` looks for: the ports `good r` of a range `r`, as the words of the range show. -/
structure Picks (u : PortUse) (pick : BitVec 64 → BitVec 64) (good : Port × Port → ℕ → Prop) : Prop where
  within : ∀ r n, good r n → r.1.toNat ≤ n ∧ n ≤ r.2.toNat
  bit : ∀ r n, n / 64 ≤ r.2.toNat / 64 →
    (bitAt (fun w => pick (u.freeWord r w)) n = true ↔ good r n)

variable {good : Port × Port → ℕ → Prop}

theorem Picks.found_eq_none (h : Picks u pick good) (hfound : u.found pick range = none) : ¬good range n := by
  intro hgood
  obtain ⟨hlo, hhi⟩ := h.within range n hgood
  have hlo' := Nat.div_le_div_right (c := 64) hlo
  have hhi' := Nat.div_le_div_right (c := 64) hhi
  have hbit := firstBit_eq_none (Option.map_eq_none_iff.mp hfound) hlo' (by omega)
  rw [(h.bit range n hhi').mpr hgood] at hbit
  cases hbit

theorem Picks.found_eq_some (h : Picks u pick good) (hfound : u.found pick range = some p) :
    good range p.toNat ∧ ∀ n, good range n → p.toNat ≤ n := by
  obtain ⟨m, hm, rfl⟩ := Option.map_eq_some_iff.mp hfound
  obtain ⟨hfirst, hlast, hbit, hmin⟩ := firstBit_eq_some hm
  have hgood := (h.bit range m (by omega)).mp hbit
  have hport : (BitVec.ofNat 16 m).toNat = m := by
    have hle := (h.within range m hgood).2
    have hlt := range.2.isLt
    rw [BitVec.toNat_ofNat, Nat.mod_eq_of_lt (by omega)]
  rw [hport]
  refine ⟨hgood, fun n hn => ?_⟩
  by_contra hlt
  obtain ⟨hlo, hhi⟩ := h.within range n hn
  have hlo' := Nat.div_le_div_right (c := 64) hlo
  have hnot := hmin n hlo' (not_le.mp hlt)
  rw [(h.bit range n (Nat.div_le_div_right hhi)).mpr hn] at hnot
  cases hnot

theorem clamp_mem (start : Port) (h : range.1 ≤ range.2) : range.1 ≤ clamp range start ∧
    clamp range start ≤ range.2 := by
  unfold clamp
  split
  · exact ⟨BitVec.le_refl _, h⟩
  split
  · exact ⟨h, BitVec.le_refl _⟩
  · next hlo hhi => exact ⟨BitVec.not_lt.mp hlo, BitVec.not_lt.mp hhi⟩

/-- A search fails if there is nothing from the start on and nothing up to it. -/
theorem Picks.search_eq_none (h : Picks u pick good) (hle : range.1 ≤ range.2)
    (hsearch : u.search range start pick = none) :
    ¬good (clamp range start, range.2) n ∧ (range.1 < clamp range start →
      ¬good (range.1, clamp range start) n) := by
  rw [search, if_neg (BitVec.not_lt.mpr hle)] at hsearch
  obtain ⟨hafter, hbefore⟩ := Option.or_eq_none_iff.mp hsearch
  refine ⟨h.found_eq_none hafter, fun hlt => ?_⟩
  rw [if_pos hlt] at hbefore
  exact h.found_eq_none hbefore

/-- A search finds the first from the start on or, if there is none, the first up to the start. -/
theorem Picks.search_eq_some (h : Picks u pick good) (hsearch : u.search range start pick = some p) :
    range.1 ≤ range.2 ∧
      ((good (clamp range start, range.2) p.toNat ∧ ∀ n, good (clamp range start, range.2) n → p.toNat ≤ n) ∨
        (∀ n, ¬good (clamp range start, range.2) n) ∧ range.1 < clamp range start ∧
          good (range.1, clamp range start) p.toNat ∧ ∀ n, good (range.1, clamp range start) n → p.toNat ≤ n) := by
  rw [search] at hsearch
  split at hsearch
  · cases hsearch
  next hle =>
  refine ⟨BitVec.not_lt.mp hle, ?_⟩
  cases hafter : u.found pick (clamp range start, range.2) with
  | some q =>
    simp only [hafter, Option.some_or] at hsearch
    obtain rfl := Option.some.inj hsearch
    exact .inl (h.found_eq_some hafter)
  | none =>
    simp only [hafter, Option.none_or] at hsearch
    split at hsearch
    · next hlt => exact .inr ⟨fun n => h.found_eq_none hafter, hlt, h.found_eq_some hsearch⟩
    · cases hsearch

/-! ### One port -/

/-- A port of a range that is free and of a parity, if one is given. -/
def Eligible (u : PortUse) (odd? : Option Bool) (r : Port × Port) (n : ℕ) : Prop :=
  (r.1.toNat ≤ n ∧ n ≤ r.2.toNat) ∧ u.freeBit n = true ∧ ∀ o ∈ odd?, (n % 2 = 1 ↔ o = true)

def parityMask : Option Bool → BitVec 64
  | none => BitVec.allOnes 64
  | some false => EVEN
  | some true => EVEN <<< 1

theorem find_eq (u : PortUse) (range : Port × Port) (start : Port) (odd? : Option Bool) :
    u.find range start odd? = u.search range start fun bits => bits &&& parityMask odd? := rfl

theorem getLsbD_even (hi : i < 64) : EVEN.getLsbD i = decide (i % 2 = 0) := by
  have hall : ∀ i < 64, EVEN.getLsbD i = decide (i % 2 = 0) := by decide
  exact hall i hi

theorem getLsbD_parityMask (odd? : Option Bool) (hi : i < 64) :
    (parityMask odd?).getLsbD i = true ↔ ∀ o ∈ odd?, (i % 2 = 1 ↔ o = true) := by
  cases odd? with
  | none =>
    rw [parityMask, BitVec.getLsbD_allOnes, decide_eq_true hi]
    simp
  | some o =>
    cases o with
    | false =>
      rw [parityMask, getLsbD_even hi]
      simp
    | true =>
      have hall : ∀ i < 64, (EVEN <<< 1).getLsbD i = decide (i % 2 = 1) := by decide
      rw [parityMask, hall i hi]
      simp

theorem picks_parity (u : PortUse) (odd? : Option Bool) :
    Picks u (fun bits => bits &&& parityMask odd?) (u.Eligible odd?) where
  within _ _ h := h.1
  bit r n hhi := by
    have hmod : n % 64 < 64 := Nat.mod_lt n (by norm_num)
    have hword := bitAt_freeWord (u := u) hhi
    change ((u.freeWord r (n / 64) &&& parityMask odd?).getLsbD (n % 64) = true ↔ _)
    rw [BitVec.getLsbD_and, Bool.and_eq_true, getLsbD_parityMask odd? hmod]
    change (bitAt (u.freeWord r) n = true ∧ _ ↔ _)
    rw [hword, Bool.and_eq_true, decide_eq_true_eq, Nat.mod_mod_of_dvd n (by norm_num : 2 ∣ 64)]
    unfold Eligible
    tauto

/-- How far a port lies after a start, going round a range. -/
def around (range : Port × Port) (start p : Port) : ℕ :=
  if start ≤ p then p.toNat - start.toNat else p.toNat + (range.2.toNat - range.1.toNat + 1) - start.toNat

/-- A search for a port finds the first one, going round from the start. -/
theorem find_eq_some {odd? : Option Bool} (h : u.find range start odd? = some p) :
    u.Eligible odd? range p.toNat ∧
      ∀ q : Port, u.Eligible odd? range q.toNat →
        around range (clamp range start) p ≤ around range (clamp range start) q := by
  rw [find_eq] at h
  obtain ⟨hle, hcases⟩ := (picks_parity u odd?).search_eq_some h
  obtain ⟨hlo, hhi⟩ := clamp_mem start hle
  generalize clamp range start = s at *
  rw [BitVec.le_def] at hle hlo hhi
  rcases hcases with ⟨⟨hin, hfree, hodd⟩, hmin⟩ | ⟨hnone, hlt, ⟨hin, hfree, hodd⟩, hmin⟩
  · dsimp only at hin
    refine ⟨⟨⟨by omega, hin.2⟩, hfree, hodd⟩, fun q ⟨hq, hqfree, hqodd⟩ => ?_⟩
    simp only [around, BitVec.le_def, if_pos hin.1]
    split
    · next hsq =>
      have hle := hmin q.toNat ⟨⟨hsq, hq.2⟩, hqfree, hqodd⟩
      omega
    · omega
  · dsimp only at hin
    rw [BitVec.lt_def] at hlt
    have hps : ¬s.toNat ≤ p.toNat := fun hsp => hnone p.toNat ⟨⟨hsp, hin.2.trans hhi⟩, hfree, hodd⟩
    refine ⟨⟨⟨hin.1, by omega⟩, hfree, hodd⟩, fun q ⟨hq, hqfree, hqodd⟩ => ?_⟩
    simp only [around, BitVec.le_def, if_neg hps]
    split
    · next hsq => exact absurd ⟨⟨hsq, hq.2⟩, hqfree, hqodd⟩ (hnone q.toNat)
    · next hsq =>
      have hle := hmin q.toNat ⟨⟨hq.1, by dsimp only; omega⟩, hqfree, hqodd⟩
      omega

/-- A search for a port fails only if there is none. -/
theorem find_eq_none {odd? : Option Bool} (h : u.find range start odd? = none) :
    ¬u.Eligible odd? range n := by
  rintro ⟨⟨hlo, hhi⟩, hfree, hodd⟩
  have hle : range.1 ≤ range.2 := hlo.trans hhi
  rw [find_eq] at h
  obtain ⟨hafter, hbefore⟩ := (picks_parity u odd?).search_eq_none (n := n) hle h
  by_cases hstart : (clamp range start).toNat ≤ n
  · exact hafter ⟨⟨hstart, hhi⟩, hfree, hodd⟩
  · have hlt : range.1 < clamp range start := hlo.trans_lt (not_le.mp hstart)
    exact hbefore hlt ⟨⟨hlo, (not_le.mp hstart).le⟩, hfree, hodd⟩

/-! ### A pair of ports -/

/-- An even port of a range that is free along with the next one, which is in the range too. -/
def Paired (u : PortUse) (r : Port × Port) (n : ℕ) : Prop :=
  r.1.toNat ≤ n ∧ n + 1 ≤ r.2.toNat ∧ n % 2 = 0 ∧ u.freeBit n = true ∧ u.freeBit (n + 1) = true

theorem picks_pair (u : PortUse) : Picks u (fun bits => bits &&& (bits >>> 1) &&& EVEN) u.Paired where
  within _ _ h := ⟨h.1, (Nat.le_succ _).trans h.2.1⟩
  bit r n hhi := by
    have hmod : n % 64 < 64 := Nat.mod_lt n (by norm_num)
    change ((u.freeWord r (n / 64) &&& (u.freeWord r (n / 64) >>> 1) &&& EVEN).getLsbD (n % 64) = true ↔ _)
    rw [BitVec.getLsbD_and, BitVec.getLsbD_and, BitVec.getLsbD_ushiftRight, getLsbD_even hmod]
    by_cases heven : n % 2 = 0
    · -- the next port is in the same word
      have hdiv : (n + 1) / 64 = n / 64 := by omega
      have hnext : 1 + n % 64 = (n + 1) % 64 := by omega
      have hword := bitAt_freeWord (u := u) hhi
      have hword' := bitAt_freeWord (u := u) (n := n + 1) (hdiv.symm ▸ hhi)
      simp only [bitAt, hdiv] at hword hword'
      rw [hnext, hword, hword']
      simp only [Bool.and_eq_true, decide_eq_true_eq, Nat.mod_mod_of_dvd n (by norm_num : 2 ∣ 64), heven,
        Paired]
      have hin : (r.1.toNat ≤ n ∧ n ≤ r.2.toNat) ∧ (r.1.toNat ≤ n + 1 ∧ n + 1 ≤ r.2.toNat) ↔
          r.1.toNat ≤ n ∧ n + 1 ≤ r.2.toNat := by omega
      tauto
    · simp only [Nat.mod_mod_of_dvd n (by norm_num : 2 ∣ 64), heven, decide_false, Bool.and_false, Paired]
      simp

theorem findPair_eq_some (h : u.findPair range start = some p) : u.Paired range p.toNat := by
  obtain ⟨hle, hcases⟩ := (picks_pair u).search_eq_some h
  obtain ⟨hlo, hhi⟩ := clamp_mem start hle
  generalize clamp range start = s at *
  rw [BitVec.le_def] at hlo hhi
  rcases hcases with ⟨⟨hin, hnext, hrest⟩, -⟩ | ⟨-, -, ⟨hin, hnext, hrest⟩, -⟩
  · exact ⟨hlo.trans hin, hnext, hrest⟩
  · exact ⟨hin, hnext.trans hhi, hrest⟩

/-- A search for a pair fails only if there is none: one that begins just below the start is found too. -/
theorem findPair_eq_none (h : u.findPair range start = none) : ¬u.Paired range n := by
  rintro ⟨hlo, hhi, hrest⟩
  have hle : range.1 ≤ range.2 := by
    rw [BitVec.le_def]
    omega
  obtain ⟨hafter, hbefore⟩ := (picks_pair u).search_eq_none (n := n) hle h
  by_cases hstart : (clamp range start).toNat ≤ n
  · exact hafter ⟨hstart, hhi, hrest⟩
  · have hlt : range.1 < clamp range start := hlo.trans_lt (not_le.mp hstart)
    exact hbefore hlt ⟨hlo, not_le.mp hstart, hrest⟩

end PortUse

/-! ## Taking and giving back -/

/-- The ports in use, with how many hold each. -/
structure Holders where
  use : PortUse
  count : ℕ → ℕ

inductive PortCall where
  | acquire (p : Port)
  | release (p : Port)

namespace Holders
open PortUse

def fresh (lo hi : Port) : Holders := { use := .new lo hi, count := fun _ => 0 }

def step (h : Holders) : PortCall → Option Holders
  | .acquire p => some { use := h.use.acquire p, count := Function.update h.count p.toNat (h.count p.toNat + 1) }
  | .release p =>
    if 0 < h.count p.toNat then
      some { use := h.use.release p, count := Function.update h.count p.toNat (h.count p.toNat - 1) }
    else none

/-- A port of a range that nobody holds, of a parity if one is given. -/
def FreeIn (h : Holders) (odd? : Option Bool) (r : Port × Port) (n : ℕ) : Prop :=
  (r.1.toNat ≤ n ∧ n ≤ r.2.toNat) ∧ h.count n = 0 ∧ ∀ o ∈ odd?, (n % 2 = 1 ↔ o = true)

def unheld (pool : Port × Port) (count : ℕ → ℕ) (o : Bool) : Finset ℕ :=
  {n ∈ Finset.Icc pool.1.toNat pool.2.toNat | count n = 0 ∧ (n % 2 = 1 ↔ o = true)}

/-- The bitmap and the counts tell who holds what. -/
structure Exact (h : Holders) : Prop where
  holders : ∀ n, h.use.holders n = BitVec.ofNat 16 (h.count n)
  few : ∀ n, h.count n < 2 ^ 16
  bits : ∀ n, h.use.freeBit n = true ↔ h.count n = 0
  free : ∀ o, (h.use.free o).toNat = (unheld h.use.pool h.count o).card

variable {h h' : Holders} {lo hi p : Port} {pool : Port × Port} {count : ℕ → ℕ} {o : Bool} {c n : ℕ}

theorem mem_unheld : n ∈ unheld pool count o ↔
    (pool.1.toNat ≤ n ∧ n ≤ pool.2.toNat) ∧ count n = 0 ∧ (n % 2 = 1 ↔ o = true) := by
  simp only [unheld, Finset.mem_filter, Finset.mem_Icc]

theorem card_unheld_le (pool : Port × Port) (count : ℕ → ℕ) (o : Bool) : (unheld pool count o).card ≤ 2 ^ 16 := by
  refine (Finset.card_filter_le _ _).trans ?_
  rw [Nat.card_Icc]
  have hlt := pool.2.isLt
  omega

/-- The even and the odd numbers of an interval. -/
theorem card_unheld_zero (hle : lo ≤ hi) : (unheld (lo, hi) (fun _ => 0) o).card =
    if o then hi.toNat - lo.toNat + 1 - (hi.toNat / 2 + 1 - (lo.toNat + 1) / 2)
    else hi.toNat / 2 + 1 - (lo.toNat + 1) / 2 := by
  have hcard : ∀ a b : ℕ, a ≤ b → (Finset.card {n ∈ Finset.Icc a b | n % 2 = 1 ↔ o = true}) =
      if o then b - a + 1 - (b / 2 + 1 - (a + 1) / 2) else b / 2 + 1 - (a + 1) / 2 := by
    intro a b hab
    induction b, hab using Nat.le_induction with
    | base =>
      rw [Finset.Icc_self, Finset.filter_singleton]
      cases o <;> split <;> simp at * <;> omega
    | succ b hab ih =>
      rw [Finset.card_filter, Finset.sum_Icc_succ_top (by omega), ← Finset.card_filter, ih]
      cases o <;> simp <;> split <;> omega
  rw [← hcard lo.toNat hi.toNat hle]
  simp only [unheld, true_and]

theorem fresh_exact (hle : lo ≤ hi) : (fresh lo hi).Exact where
  holders _ := rfl
  few _ := by simp [fresh]
  bits n := by
    simp only [fresh, freeBit, bitAt, PortUse.new, BitVec.getLsbD_allOnes, iff_true, decide_eq_true_eq]
    exact Nat.mod_lt n (by norm_num)
  free o := by
    have hlo := lo.isLt
    have hhi := hi.isLt
    have hle' : lo.toNat ≤ hi.toNat := hle
    change ((PortUse.new lo hi).free o).toNat = (unheld (lo, hi) (fun _ => 0) o).card
    rw [card_unheld_zero hle]
    cases o <;> simp [PortUse.new, BitVec.toNat_sub, BitVec.toNat_add] <;> omega

theorem unheld_update : unheld pool (Function.update count n c) o =
    if c = 0 ∧ (pool.1.toNat ≤ n ∧ n ≤ pool.2.toNat) ∧ (n % 2 = 1 ↔ o = true) then insert n (unheld pool count o)
    else (unheld pool count o).erase n := by
  ext m
  by_cases hm : m = n
  · subst hm
    split
    · next hin => simpa [mem_unheld] using ⟨hin.2.1, hin.1, hin.2.2⟩
    · next hin =>
      simp only [mem_unheld, Function.update_self, Finset.mem_erase]
      tauto
  · split
    all_goals simp [mem_unheld, hm]

theorem odd_eq : PortUse.odd p = o ↔ (p.toNat % 2 = 1 ↔ o = true) := by
  have hodd : PortUse.odd p = true ↔ p.toNat % 2 = 1 := by
    simp only [PortUse.odd, beq_iff_eq, ← BitVec.toNat_inj, BitVec.toNat_and]
    exact (Nat.and_one_is_mod p.toNat) ▸ Iff.rfl
  rw [← hodd, Bool.eq_iff_iff]

theorem inPool_iff {u : PortUse} : u.inPool p = true ↔ u.pool.1.toNat ≤ p.toNat ∧ p.toNat ≤ u.pool.2.toNat := by
  simp [PortUse.inPool, BitVec.le_def]

/-- A port gets another number of holders; if `turns`, it becomes free or stops being so. -/
def transfer (u : PortUse) (p : Port) (holders : BitVec 16) (turns : Prop) [Decidable turns]
    (word : BitVec 64 → BitVec 64) (tally : BitVec 32 → BitVec 32) : PortUse :=
  { holders := Function.update u.holders p.toNat holders
    freeBits :=
      if turns then Function.update u.freeBits (p.toNat / 64) (word (u.freeBits (p.toNat / 64))) else u.freeBits
    free := fun o => if turns ∧ u.inPool p ∧ PortUse.odd p = o then tally (u.free o) else u.free o
    pool := u.pool }

theorem free_update {u : PortUse} (tally : BitVec 32 → BitVec 32) :
    Function.update u.free (PortUse.odd p) (tally (u.free (PortUse.odd p))) =
      fun o => if PortUse.odd p = o then tally (u.free o) else u.free o := by
  funext o
  by_cases ho : PortUse.odd p = o
  · rw [if_pos ho, ho, Function.update_self]
  · rw [if_neg ho, Function.update_of_ne (Ne.symm ho)]

theorem acquire_eq (u : PortUse) : u.acquire p =
    transfer u p (u.holders p.toNat + 1) (u.holders p.toNat = 0) (· &&& ~~~bit 64 (p.toNat % 64)) (· - 1) := by
  have hfree := free_update (u := u) (p := p) (· - 1)
  simp only [acquire, transfer, hfree]
  split_ifs with hfirst hin
  · simp [hfirst, show u.inPool p = true from hin]
  · simp [hfirst, show ¬u.inPool p = true from hin]
  · simp only [hfirst, false_and, if_false]

theorem release_eq (u : PortUse) : u.release p =
    transfer u p (u.holders p.toNat - 1) (u.holders p.toNat = 1) (· ||| bit 64 (p.toNat % 64)) (· + 1) := by
  have hfree := free_update (u := u) (p := p) (· + 1)
  simp only [release, transfer, hfree]
  split_ifs with hlast hin
  · simp [hlast, show u.inPool p = true from hin]
  · simp [hlast, show ¬u.inPool p = true from hin]
  · simp only [hlast, false_and, if_false]

theorem Exact.holders_eq (hex : h.Exact) (hc : c < 2 ^ 16) :
    h.use.holders n = BitVec.ofNat 16 c ↔ h.count n = c := by
  rw [hex.holders, ← BitVec.toNat_inj, BitVec.toNat_ofNat, BitVec.toNat_ofNat, Nat.mod_eq_of_lt (hex.few n),
    Nat.mod_eq_of_lt hc]

/-- A port that becomes free, or stops being so, changes one bit and one count. -/
theorem Exact.transfer {holders : BitVec 16} {turns : Prop} [Decidable turns] {word : BitVec 64 → BitVec 64}
    {tally : BitVec 32 → BitVec 32} (hex : h.Exact) (hholders : holders = BitVec.ofNat 16 c) (hfew : c < 2 ^ 16)
    (hturns : turns ↔ (c = 0 ↔ h.count p.toNat ≠ 0))
    (hword : turns → ∀ n, bitAt (Function.update h.use.freeBits (p.toNat / 64)
      (word (h.use.freeBits (p.toNat / 64)))) n = if p.toNat = n then decide (c = 0) else h.use.freeBit n)
    (htally : turns → ∀ x : BitVec 32, (c = 0 → x.toNat ≤ 2 ^ 16 → (tally x).toNat = x.toNat + 1) ∧
      (c ≠ 0 → 0 < x.toNat → (tally x).toNat = x.toNat - 1)) :
    Exact ⟨Holders.transfer h.use p holders turns word tally, Function.update h.count p.toNat c⟩ where
  holders n := by
    by_cases hn : n = p.toNat
    · simp [Holders.transfer, hn, hholders]
    · simp [Holders.transfer, hn, hex.holders]
  few n := by
    by_cases hn : n = p.toNat
    · simpa [hn] using hfew
    · simpa [hn] using hex.few n
  bits n := by
    have hbit := hex.bits n
    by_cases ht : turns
    · simp only [freeBit, Holders.transfer, if_pos ht, hword ht, Function.update_apply, eq_comm (a := n)]
      split
      · exact decide_eq_true_iff
      · exact hbit
    · simp only [freeBit, Holders.transfer, if_neg ht, Function.update_apply]
      split
      · next hn =>
        subst hn
        exact hbit.trans (by tauto)
      · exact hbit
  free o := by
    have hfree := hex.free o
    have hle := card_unheld_le h.use.pool h.count o
    have hmem : p.toNat ∈ unheld h.use.pool h.count o ↔
        (h.use.inPool p ∧ PortUse.odd p = o) ∧ h.count p.toNat = 0 := by
      rw [mem_unheld, inPool_iff, odd_eq]
      tauto
    simp only [Holders.transfer, unheld_update, ← inPool_iff, ← odd_eq]
    by_cases hin : h.use.inPool p ∧ PortUse.odd p = o
    · simp only [hin, and_true]
      by_cases hc : c = 0
      · rw [if_pos hc]
        by_cases ht : turns
        · have hnot : p.toNat ∉ unheld h.use.pool h.count o := by tauto
          rw [if_pos ht, Finset.card_insert_of_notMem hnot, ((htally ht _).1 hc (hfree ▸ hle)), hfree]
        · have hin' : p.toNat ∈ unheld h.use.pool h.count o := by tauto
          rw [if_neg ht, Finset.insert_eq_of_mem hin', hfree]
      · rw [if_neg hc]
        by_cases ht : turns
        · have hin' : p.toNat ∈ unheld h.use.pool h.count o := by tauto
          have hpos := Finset.card_pos.mpr ⟨_, hin'⟩
          rw [if_pos ht, Finset.card_erase_of_mem hin', ((htally ht _).2 hc (hfree ▸ hpos)), hfree]
        · have hnot : p.toNat ∉ unheld h.use.pool h.count o := by tauto
          rw [if_neg ht, Finset.erase_eq_of_notMem hnot, hfree]
    · have hnot : p.toNat ∉ unheld h.use.pool h.count o := fun hp => hin (hmem.mp hp).1
      rw [if_neg (fun hc => hin hc.2), if_neg (fun hc => hin hc.2), Finset.erase_eq_of_notMem hnot, hfree]

/-- Taking a port that has room for another holder. -/
theorem Exact.acquire (hex : h.Exact) (hroom : h.count p.toNat + 1 < 2 ^ 16) :
    Exact ⟨h.use.acquire p, Function.update h.count p.toNat (h.count p.toNat + 1)⟩ := by
  have hfirst : h.use.holders p.toNat = 0 ↔ h.count p.toNat = 0 := hex.holders_eq (by norm_num)
  rw [acquire_eq]
  refine hex.transfer ?_ hroom ?_ ?_ ?_
  · rw [hex.holders, BitVec.ofNat_add]
    rfl
  · rw [hfirst]
    simp
  · intro _ n
    rw [bitAt_update_clear (by norm_num)]
    by_cases hn : p.toNat = n
    · simp [hn]
    · simp [hn, freeBit]
  · intro _ x
    refine ⟨by simp, fun _ hpos => ?_⟩
    bv_omega

theorem Exact.release (hex : h.Exact) (hheld : 0 < h.count p.toNat) :
    Exact ⟨h.use.release p, Function.update h.count p.toNat (h.count p.toNat - 1)⟩ := by
  have hfew := hex.few p.toNat
  have hlast : h.use.holders p.toNat = 1 ↔ h.count p.toNat = 1 := hex.holders_eq (by norm_num)
  rw [release_eq]
  refine hex.transfer ?_ (by omega) ?_ ?_ ?_
  · rw [hex.holders]
    bv_omega
  · rw [hlast]
    omega
  · intro ht n
    rw [hlast] at ht
    rw [bitAt_update_set (by norm_num), ht]
    by_cases hn : p.toNat = n
    · simp [hn]
    · simp [hn, freeBit]
  · intro ht x
    rw [hlast] at ht
    refine ⟨fun _ hle => ?_, fun hc => absurd (by omega) hc⟩
    bv_omega

/-! ### What a search finds -/

/-- What a search for a port of a range, of a parity if one is given, must find: the first one that
nobody holds, going round from the start, and nothing if there is none. -/
def Finds (h : Holders) (odd? : Option Bool) (range : Port × Port) (start : Port) : Option Port → Prop
  | some p => h.FreeIn odd? range p.toNat ∧
      ∀ q : Port, h.FreeIn odd? range q.toNat →
        around range (clamp range start) p ≤ around range (clamp range start) q
  | none => ∀ n, ¬h.FreeIn odd? range n

/-- An even port of a range and the next one, both in the range, that nobody holds. -/
def PairIn (h : Holders) (r : Port × Port) (n : ℕ) : Prop :=
  r.1.toNat ≤ n ∧ n + 1 ≤ r.2.toNat ∧ n % 2 = 0 ∧ h.count n = 0 ∧ h.count (n + 1) = 0

def FindsPair (h : Holders) (range : Port × Port) : Option Port → Prop
  | some p => h.PairIn range p.toNat
  | none => ∀ n, ¬h.PairIn range n

/-- Whether a new mapping keeps its inside port. -/
def Keeps (h : Holders) (want : Port) : Prop := PRESERVE_MIN ≤ want ∧ h.count want.toNat = 0

/-- What is chosen for a new mapping: its inside port, or a port of the pool, of the same parity if
there is one. -/
def Chooses (h : Holders) (want : Port) : Option Port → Prop
  | some p => h.count p.toNat = 0 ∧ (h.Keeps want → p = want) ∧
      (¬h.Keeps want → h.FreeIn none h.use.pool p.toNat ∧
        ∀ n, h.FreeIn (some (odd want)) h.use.pool n → odd p = odd want)
  | none => ¬h.Keeps want ∧ ∀ n, ¬h.FreeIn none h.use.pool n

variable {range : Port × Port} {start want : Port} {odd? : Option Bool}

theorem Exact.eligible_iff (hex : h.Exact) : h.use.Eligible odd? range n ↔ h.FreeIn odd? range n := by
  rw [Eligible, FreeIn, hex.bits]

theorem Exact.finds (hex : h.Exact) : h.Finds odd? range start (h.use.find range start odd?) := by
  cases hfind : h.use.find range start odd? with
  | none => exact fun n hn => find_eq_none hfind (hex.eligible_iff.mpr hn)
  | some p =>
    obtain ⟨hp, hmin⟩ := find_eq_some hfind
    exact ⟨hex.eligible_iff.mp hp, fun q hq => hmin q (hex.eligible_iff.mpr hq)⟩

theorem Exact.findsPair (hex : h.Exact) : h.FindsPair range (h.use.findPair range start) := by
  have hpair : ∀ n, h.use.Paired range n ↔ h.PairIn range n := by
    intro n
    rw [Paired, PairIn, hex.bits, hex.bits]
  cases hfind : h.use.findPair range start with
  | none => exact fun n hn => findPair_eq_none hfind ((hpair n).mpr hn)
  | some p => exact (hpair _).mp (findPair_eq_some hfind)

theorem Exact.poolFree_pos (hex : h.Exact) :
    0 < h.use.poolFree odd? ↔ ∃ n, h.FreeIn odd? h.use.pool n := by
  have hpos : ∀ o, 0 < (h.use.free o).toNat ↔ ∃ n, h.FreeIn (some o) h.use.pool n := by
    intro o
    rw [hex.free, Finset.card_pos]
    simp only [Finset.Nonempty, mem_unheld, FreeIn, Option.mem_some_iff, forall_eq']
  cases odd? with
  | some o => exact hpos o
  | none =>
    -- the two counts are too small to overflow
    have hsum : (h.use.poolFree none).toNat = (h.use.free false).toNat + (h.use.free true).toNat := by
      have heven : (h.use.free false).toNat ≤ 2 ^ 16 := hex.free false ▸ card_unheld_le _ _ _
      have hodd : (h.use.free true).toNat ≤ 2 ^ 16 := hex.free true ▸ card_unheld_le _ _ _
      rw [poolFree, BitVec.toNat_add, Nat.mod_eq_of_lt (by omega)]
    rw [BitVec.lt_def, hsum, show BitVec.toNat (0 : BitVec 32) = 0 from rfl,
      Nat.add_pos_iff_pos_or_pos, hpos, hpos]
    constructor
    · rintro (⟨n, hin, hfree, -⟩ | ⟨n, hin, hfree, -⟩)
      all_goals exact ⟨n, hin, hfree, by simp⟩
    · rintro ⟨n, hin, hfree, -⟩
      by_cases hn : n % 2 = 1
      · exact .inr ⟨n, hin, hfree, by simp [hn]⟩
      · exact .inl ⟨n, hin, hfree, by simp [hn]⟩

theorem Exact.chooses (hex : h.Exact) : h.Chooses want (h.use.choose want start) := by
  have hfree : h.use.isFree want = true ↔ h.count want.toNat = 0 := by
    rw [isFree, beq_iff_eq]
    exact hex.holders_eq (by norm_num)
  simp only [choose, hfree]
  by_cases hkeep : PRESERVE_MIN ≤ want ∧ h.count want.toNat = 0
  · rw [if_pos hkeep]
    exact ⟨hkeep.2, fun _ => rfl, fun hnot => absurd hkeep hnot⟩
  rw [if_neg hkeep]
  by_cases hsame : 0 < h.use.poolFree (some (odd want))
  · rw [if_pos hsame]
    obtain ⟨n, hn⟩ := hex.poolFree_pos.mp hsame
    have hfinds : h.Finds (some (odd want)) h.use.pool start _ := hex.finds
    cases hfind : h.use.find h.use.pool start (some (odd want)) with
    | none => exact absurd hn ((hfind ▸ hfinds : Finds _ _ _ _ none) n)
    | some p =>
      obtain ⟨⟨hin, hp, hodd⟩, -⟩ := (hfind ▸ hfinds : Finds _ _ _ _ (some p))
      exact ⟨hp, fun hk => absurd hk hkeep, fun _ => ⟨⟨hin, hp, by simp⟩, fun _ _ => odd_eq.mpr (hodd _ rfl)⟩⟩
  rw [if_neg hsame]
  have hother : ∀ n, ¬h.FreeIn (some (odd want)) h.use.pool n := fun n hn => hsame (hex.poolFree_pos.mpr ⟨n, hn⟩)
  by_cases hany : 0 < h.use.poolFree none
  · rw [if_pos hany]
    obtain ⟨n, hn⟩ := hex.poolFree_pos.mp hany
    have hfinds : h.Finds none h.use.pool start _ := hex.finds
    cases hfind : h.use.find h.use.pool start none with
    | none => exact absurd hn ((hfind ▸ hfinds : Finds _ _ _ _ none) n)
    | some p =>
      obtain ⟨hp, -⟩ := (hfind ▸ hfinds : Finds _ _ _ _ (some p))
      exact ⟨hp.2.1, fun hk => absurd hk hkeep, fun _ => ⟨hp, fun n hn => absurd hn (hother n)⟩⟩
  · rw [if_neg hany]
    exact ⟨hkeep, fun n hn => hany (hex.poolFree_pos.mpr ⟨n, hn⟩)⟩

/-! ### Runs -/

theorem Exact.step {i : PortCall} (hex : h.Exact) (hpool : h.use.pool = pool) (hstep : h.step i = some h')
    (hfew : ∀ n, h'.count n < 2 ^ 16) : h'.Exact ∧ h'.use.pool = pool := by
  cases i with
  | acquire p =>
    obtain rfl := Option.some.inj hstep
    have hroom := hfew p.toNat
    simp only [Function.update_self] at hroom
    exact ⟨hex.acquire hroom, by rw [acquire_eq]; exact hpool⟩
  | release p =>
    obtain ⟨hheld, hstep⟩ := Option.ite_none_right_eq_some.mp hstep
    obtain rfl := Option.some.inj hstep
    exact ⟨hex.release hheld, by rw [release_eq]; exact hpool⟩

theorem run_exact {calls : List PortCall} (hle : lo ≤ hi) (hrun : Runs.run step (fresh lo hi) calls = some h)
    (hfew : ∀ js ks t, calls = js ++ ks → Runs.run step (fresh lo hi) js = some t → ∀ n, t.count n < 2 ^ 16) :
    h.Exact ∧ h.use.pool = (lo, hi) := by
  refine Runs.run_invariant_of (P := fun h => h.Exact ∧ h.use.pool = (lo, hi))
    (C := fun h i => ∀ t, h.step i = some t → ∀ n, t.count n < 2 ^ 16) ?_ hrun ⟨fresh_exact hle, rfl⟩ ?_
  · intro s i t ⟨hex, hpool⟩ hfew hstep
    exact hex.step hpool hstep (hfew t hstep)
  · intro js i ks t hcalls ht t' ht'
    refine hfew (js ++ [i]) ks t' (by rw [hcalls, List.append_assoc]; rfl) ?_
    exact Runs.run_append.mpr ⟨t, ht, Runs.run_cons.mpr ⟨t', ht', rfl⟩⟩

/-- After any calls that give back only what was taken and never let a port have `2 ^ 16` holders, the
bitmap and the counts are exact, and so is every search. -/
theorem search_exact (lo hi : Port) (hle : lo ≤ hi) (calls : List PortCall) (h : Holders)
    (hrun : Runs.run step (fresh lo hi) calls = some h)
    (hfew : ∀ js ks t, calls = js ++ ks → Runs.run step (fresh lo hi) js = some t → ∀ n, t.count n < 2 ^ 16) :
    (∀ n, h.use.freeBit n = true ↔ h.count n = 0) ∧
      (∀ o, (h.use.free o).toNat = (unheld (lo, hi) h.count o).card) ∧
      (∀ odd? range start, h.Finds odd? range start (h.use.find range start odd?)) ∧
      (∀ range start, h.FindsPair range (h.use.findPair range start)) ∧
      h.use.pool = (lo, hi) ∧ ∀ want start, h.Chooses want (h.use.choose want start) := by
  obtain ⟨hex, hpool⟩ := run_exact hle hrun hfew
  exact ⟨hex.bits, fun o => hpool ▸ hex.free o, fun _ _ _ => hex.finds, fun _ _ => hex.findsPair, hpool,
    fun _ _ => hex.chooses⟩

/-- A port taken once is not free. -/
theorem search_exact_held : ∃ h, Runs.run step (fresh 10000 65535) [.acquire 10000] = some h ∧
    h.count 10000 = 1 ∧ ¬h.use.freeBit 10000 = true := by
  refine ⟨_, rfl, rfl, ?_⟩
  refine mt ((search_exact 10000 65535 (by decide) [.acquire 10000] _ rfl ?_).1 10000).mp (by decide)
  intro js ks t hcalls ht n
  cases js with
  | nil =>
    obtain rfl := Option.some.inj ht
    simp [Holders.fresh]
  | cons j js =>
    obtain ⟨rfl, hjs⟩ := List.cons.inj hcalls
    obtain ⟨rfl, -⟩ := List.append_eq_nil_iff.mp hjs.symm
    obtain rfl := Option.some.inj ht
    simp only [Function.update_apply]
    split
    all_goals simp [Holders.fresh]

theorem run_acquire (h : Holders) (p : Port) (n : ℕ) :
    ∃ h', Runs.run step h (List.replicate n (.acquire p)) = some h' ∧
      h'.count p.toNat = h.count p.toNat + n ∧
      h'.use.holders p.toNat = h.use.holders p.toNat + BitVec.ofNat 16 n := by
  induction n generalizing h with
  | zero => exact ⟨h, rfl, rfl, (BitVec.add_zero _).symm⟩
  | succ n ih =>
    obtain ⟨h', hrun, hcount, hholders⟩ :=
      ih { use := h.use.acquire p, count := Function.update h.count p.toNat (h.count p.toNat + 1) }
    refine ⟨h', Runs.run_cons.mpr ⟨_, rfl, hrun⟩, ?_, ?_⟩
    · simp only [hcount, Function.update_self]
      omega
    · rw [hholders, acquire_eq]
      simp only [transfer, Function.update_self, BitVec.ofNat_add]
      bv_omega

/-- The number of holders wraps: a port with `2 ^ 16` holders is chosen again. And a search whose start lies
above the range begins at the range's end, not at its beginning. -/
theorem choose_held :
    (∃ calls h, Runs.run step (fresh 10000 65535) calls = some h ∧ h.count 5000 = 2 ^ 16 ∧
      h.use.choose 5000 10000 = some 5000) ∧
    ((fresh 10000 65535).use.find (20000, 30000) 40000 none = some 30000 ∧
      (fresh 10000 65535).use.Eligible none (20000, 30000) 20000 ∧ (20000 - 40000 : Port) < 30000 - 40000) := by
  constructor
  · obtain ⟨h, hrun, hcount, hholders⟩ := run_acquire (fresh 10000 65535) 5000 (2 ^ 16)
    refine ⟨_, h, hrun, hcount.trans (by rw [Holders.fresh, Nat.zero_add]), ?_⟩
    rw [choose, isFree, hholders]
    rfl
  · refine ⟨by decide +kernel, ⟨by decide, by decide +kernel, by simp⟩, by decide⟩

end Holders

end PktKit.Nat44
