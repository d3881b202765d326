import PktKit.Xdp.Inheritance

/-! # The capture leaves something to the interface

The sizes of the captured prefixes never add up to a whole address family, so some address of each
family is in none of them.
-/

namespace PktKit.Xdp
open Foundations

/-! ## What the sums count -/

section Sums

variable {v4 : Bool} {ps : List IpPrefix} {p : IpPrefix}

/-- How many bits an address of a family has. -/
def familyWidth (v4 : Bool) : ℕ := if v4 then 32 else 128

theorem width_eq_familyWidth (a : IpAddr) : a.width = familyWidth a.isV4 := by cases a <;> rfl

def family (v4 : Bool) (ps : List IpPrefix) : List IpPrefix := ps.filter (·.isV4 = v4)

/-- How many addresses each prefix of a family has, added up. -/
def total (v4 : Bool) (ps : List IpPrefix) : ℕ := ((family v4 ps).map fun p => 2 ^ (familyWidth v4 - p.bits)).sum

theorem foldl_saturating (l : List ℕ) (acc bound : ℕ) :
    l.foldl (fun acc n => min (acc + n) bound) (min acc bound) = min (acc + l.sum) bound := by
  induction l generalizing acc with
  | nil => simp
  | cons n l ih =>
    rw [List.foldl_cons, show min (min acc bound + n) bound = min (acc + n) bound by omega, ih, List.sum_cons,
      Nat.add_assoc]

def counted (v4 : Bool) (p : IpPrefix) : ℕ :=
  if familyWidth v4 - p.bits < 128 then 2 ^ (familyWidth v4 - p.bits) else U128_MAX

theorem bits_le (hp : p ∈ family v4 ps) : p.bits ≤ familyWidth v4 := by
  have hv4 : p.isV4 = v4 := by simpa using (List.mem_filter.mp hp).2
  rw [← hv4, IpPrefix.isV4, ← width_eq_familyWidth]
  exact p.le

theorem coverage_eq : coverage ps v4 = min ((family v4 ps).map (counted v4)).sum U128_MAX := by
  have hfold : coverage ps v4 = ((family v4 ps).map (counted v4)).foldl
    (fun acc n => min (acc + n) U128_MAX) 0 := by
    rw [List.foldl_map, coverage]
    refine List.foldl_ext _ _ _ fun acc p hp => ?_
    simp only [counted]
    rw [show (if v4 = true then 32 else 128) = familyWidth v4 from rfl, min_eq_left (bits_le hp)]
  have hsat := foldl_saturating ((family v4 ps).map (counted v4)) 0 U128_MAX
  rwa [Nat.zero_min, Nat.zero_add, ← hfold] at hsat

/-- A set that passes the check has fewer addresses than the family. -/
theorem total_lt (h : coverage ps v4 < familyTotal v4) : total v4 ps < 2 ^ familyWidth v4 := by
  have hmax : familyTotal v4 ≤ U128_MAX := by cases v4 <;> decide
  have hlt : ((family v4 ps).map (counted v4)).sum < familyTotal v4 := by
    rw [coverage_eq] at h
    omega
  have hterm : ∀ p ∈ family v4 ps, counted v4 p = 2 ^ (familyWidth v4 - p.bits) := fun p hp => by
    have hle : counted v4 p ≤ ((family v4 ps).map (counted v4)).sum :=
      List.single_le_sum (by simp) _ (List.mem_map_of_mem hp)
    by_cases hbits : familyWidth v4 - p.bits < 128
    · rw [counted, if_pos hbits]
    · rw [counted, if_neg hbits] at hle
      omega
  have hsum : total v4 ps = ((family v4 ps).map (counted v4)).sum := by
    rw [total, List.map_congr_left hterm]
  have hfamily : familyTotal v4 ≤ 2 ^ familyWidth v4 := by cases v4 <;> decide
  omega

theorem family_append {qs : List IpPrefix} : family v4 (ps ++ qs) = family v4 ps ++ family v4 qs :=
  List.filter_append ..

theorem coverage_append_other (h : p.isV4 ≠ v4) : coverage (ps ++ [p]) v4 = coverage ps v4 := by
  have hnone : family v4 [p] = [] := by simp [family, h]
  rw [coverage_eq, family_append, hnone, List.append_nil, ← coverage_eq]

theorem coverage_sublist {qs : List IpPrefix} (h : qs.Sublist ps) : coverage qs v4 ≤ coverage ps v4 := by
  rw [coverage_eq, coverage_eq]
  exact min_le_min_right _ (((h.filter _).map _).sum_le_sum fun _ _ => Nat.zero_le _)

theorem exists_uncaptured_word {w : ℕ} (mk : BitVec w → IpAddr) (net : IpPrefix → BitVec w)
    (hnet : ∀ p a, p.contains (mk a) = true → p.isV4 = v4 ∧ high p.bits a = high p.bits (net p))
    (hw : w = familyWidth v4) (h : coverage ps v4 < familyTotal v4) :
      ∃ a, ∀ p ∈ ps, p.contains (mk a) = false := by
  subst hw
  obtain ⟨a, ha⟩ := exists_outside ((family v4 ps).map fun p => (p.bits, high p.bits (net p)))
    (fun k hk => by
      obtain ⟨p, hp, rfl⟩ := List.mem_map.mp hk
      exact bits_le hp)
    (by rw [List.map_map]; exact total_lt h)
  refine ⟨a, fun p hp => Bool.eq_false_iff.mpr fun hc => ?_⟩
  obtain ⟨hv4, hhigh⟩ := hnet p a hc
  exact ha _ (List.mem_map_of_mem (List.mem_filter.mpr ⟨hp, by simpa using hv4⟩)) hhigh

def v4Word : IpAddr → BitVec 32
  | .v4 net => net
  | .v6 _ => 0

def v6Word : IpAddr → BitVec 128
  | .v4 _ => 0
  | .v6 net => net

/-- Prefixes that pass the check leave out an address of the family. -/
theorem exists_uncaptured (h : coverage ps v4 < familyTotal v4) :
    ∃ a : IpAddr, a.isV4 = v4 ∧ ∀ p ∈ ps, p.contains a = false := by
  cases v4 with
  | true =>
    obtain ⟨a, ha⟩ := exists_uncaptured_word IpAddr.v4 (fun p => v4Word p.addr)
      (fun p a hc => by
        obtain ⟨addr, bits, le⟩ := p
        cases addr with
        | v4 net => exact ⟨rfl, (eq_of_beq hc).symm⟩
        | v6 net => cases hc) rfl h
    exact ⟨.v4 a, rfl, ha⟩
  | false =>
    obtain ⟨a, ha⟩ := exists_uncaptured_word IpAddr.v6 (fun p => v6Word p.addr)
      (fun p a hc => by
        obtain ⟨addr, bits, le⟩ := p
        cases addr with
        | v4 net => cases hc
        | v6 net => exact ⟨rfl, (eq_of_beq hc).symm⟩) rfl h
    exact ⟨.v6 a, rfl, ha⟩

end Sums

/-! ## Calls -/

/-- The set passes the coverage check of both families. -/
def Proper (c : Capture) : Prop := ∀ v4, coverage (c.entries.map (·.pfx)) v4 < familyTotal v4

section Calls

variable {cfg : CaptureConfig} {c : Capture} {ok : ℕ → Bool} {new : List Entry} {q : IpPrefix}

/-- A commit leaves the record as it was or makes it the new one, whatever writes fail. -/
theorem commit_entries (cfg : CaptureConfig) (c : Capture) (ok : ℕ → Bool) (new : List Entry) (q : IpPrefix) :
    (c.commit cfg ok new q).2.entries = c.entries ∨ (c.commit cfg ok new q).2.entries = new := by
  rw [Capture.commit]
  split
  · exact .inl rfl
  · split
    · exact .inr rfl
    · exact .inl rfl

theorem Proper.commit (h : Proper c) (hnew : ∀ v4, coverage (new.map (·.pfx)) v4 < familyTotal v4) :
    Proper (c.commit cfg ok new q).2 := fun v4 => by
  rcases commit_entries cfg c ok new q with heq | heq
  · rw [heq]
    exact h v4
  · rw [heq]
    exact hnew v4

theorem Proper.commit_withRules (h : Proper c) {f : Entry → List Rule} :
    Proper (c.commit cfg ok (withRules c.entries q f) q).2 :=
  h.commit fun v4 => by
    rw [map_pfx_withRules]
    exact h v4

theorem Proper.commit_eraseP (h : Proper c) : Proper (c.commit cfg ok (c.entries.eraseP (·.pfx = q)) q).2 :=
  h.commit fun v4 => (coverage_sublist (List.eraseP_sublist.map _)).trans_lt (h v4)

theorem Proper.addRule (h : Proper c) (p : IpPrefix) (rule : Rule) : Proper (c.addRule cfg ok p rule).2 := by
  rw [Capture.addRule]
  split
  · exact h
  · exact h
  · split
    · split_ifs
      · exact h
      · exact h
      · exact h.commit_withRules
    · split
      · exact h
      · next hcheck =>
        refine h.commit fun v4 => ?_
        rw [List.map_append, List.map_singleton]
        by_cases hv4 : p.masked.isV4 = v4
        · subst hv4
          rw [checkCoverage] at hcheck
          split at hcheck
          · cases hcheck
          · next hlt => exact not_le.mp hlt
        · rw [coverage_append_other hv4]
          exact h v4

theorem Proper.remove (h : Proper c) (p : IpPrefix) : Proper (c.remove cfg ok p).2 := by
  rw [Capture.remove]
  split
  · split
    · exact h
    · exact h
  · exact h.commit_eraseP

theorem Proper.removeRule (h : Proper c) (p : IpPrefix) (rule : Rule) : Proper (c.removeRule cfg ok p rule).2 := by
  rw [Capture.removeRule]
  split
  · exact h
  · split
    · exact h
    · dsimp only
      split_ifs
      · exact h.commit_eraseP
      · exact h.commit_withRules

theorem errorOf_snd {α : Type} (x : Except CaptureError α × Capture) : (Capture.call.errorOf x).2 = x.2 := by
  obtain ⟨_ | _, _⟩ := x <;> rfl

theorem Proper.call (h : Proper c) (x : Call) : Proper (c.call cfg x).2 := by
  obtain ⟨op, ok⟩ := x
  cases op with
  | add p => exact errorOf_snd _ ▸ h.addRule p .any
  | addRule p rule => exact errorOf_snd _ ▸ h.addRule p rule
  | remove p => exact errorOf_snd _ ▸ h.remove p
  | removeRule p rule => exact errorOf_snd _ ▸ h.removeRule p rule

theorem proper_run (calls : List Call) : Proper (Capture.run cfg calls) := by
  suffices ∀ c, Proper c → Proper (calls.foldl (fun c x => (c.call cfg x).2) c) from this {} fun v4 => by cases v4 <;> decide
  induction calls with
  | nil => exact fun c h => h
  | cons x calls ih => exact fun c h => ih _ (h.call x)

end Calls

/-- **The capture never takes the whole interface.** -/
theorem capture_leaves_an_address (cfg : CaptureConfig) (calls : List Call)
    (hcalls : ∀ x ∈ calls, x.RollsBack) (v4 : Bool) :
    ∃ a : IpAddr, a.isV4 = v4 ∧ (∀ e ∈ (Capture.run cfg calls).entries, e.pfx.contains a = false) ∧
      (Capture.run cfg calls).tries.lookup a = none := by
  obtain ⟨a, hv4, ha⟩ := exists_uncaptured (proper_run calls v4)
  have hnone : ∀ e ∈ (Capture.run cfg calls).entries, e.pfx.contains a = false :=
    fun e he => ha _ (List.mem_map_of_mem he)
  exact ⟨a, hv4, hnone, (run_agrees hcalls).lookup_eq_none.mpr hnone⟩

def halves : List Call :=
  [⟨.add (.new (.v4 0) 1), fun _ => true⟩, ⟨.add (.new (.v4 0x80000000) 1), fun _ => true⟩]

theorem capture_leaves_an_address_halves :
    (Capture.run { minPrefixV4 := 1 } halves).entries.map (·.pfx) = [.new (.v4 0) 1] ∧
      ∃ a : IpAddr, a.isV4 = true ∧ (Capture.run { minPrefixV4 := 1 } halves).tries.lookup a = none := by
  obtain ⟨a, hv4, -, hnone⟩ := capture_leaves_an_address { minPrefixV4 := 1 } halves
    (by simp [halves, Call.RollsBack]) true
  exact ⟨by decide +kernel, a, hv4, hnone⟩

end PktKit.Xdp
