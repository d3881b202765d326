import PktKit.Xdp.Capture

/-! # What a nested prefix inherits

After any calls the longest match of an address holds the rules of every recorded prefix around it, and
a call that fails leaves the capture as it was.
-/

namespace PktKit.Xdp
open Foundations

variable {cfg : CaptureConfig} {ok : ℕ → Bool} {c : Capture} {p q : IpPrefix} {a : IpAddr} {r : Rule}
  {held new : List Entry} {maxRules : ℕ}

/-! ## Prefixes around a prefix -/

theorem encloses_iff : encloses p q = true ↔ p.bits ≤ q.bits ∧ p.contains q.addr = true := by
  have hfam : p.contains q.addr = true → p.isV4 = q.isV4 := fun h => by
    have := congrArg IpAddr.isV4 (IpPrefix.contains_iff.mp h)
    simpa [IpPrefix.isV4] using this
  simp only [encloses, Bool.and_eq_true, beq_iff_eq, decide_eq_true_eq]
  exact ⟨fun h => ⟨h.1.2, h.2⟩, fun h => ⟨⟨hfam h.2, h.1⟩, h.2⟩⟩

theorem encloses_self : encloses p p = true := encloses_iff.mpr ⟨le_rfl, IpPrefix.contains_iff.mpr rfl⟩

theorem contains_of_encloses (h : encloses p q = true) (hq : q.contains a = true) : p.contains a = true := by
  obtain ⟨hbits, hp⟩ := encloses_iff.mp h
  rw [IpPrefix.contains_iff] at hp hq ⊢
  exact hp.trans (IpAddr.high_mono hbits q.le hq)

/-- Of two prefixes of an address the shorter encloses the other. -/
theorem encloses_of_contains (hp : p.contains a = true) (hq : q.contains a = true) (h : p.bits ≤ q.bits) :
    encloses p q = true := by
  refine encloses_iff.mpr ⟨h, ?_⟩
  rw [IpPrefix.contains_iff] at hp hq ⊢
  exact hp.trans (IpAddr.high_mono h q.le hq).symm

theorem lpmKey_eq (hp : p.Masked) : lpmKey p = (p.bits, p.addr) := Prod.ext rfl hp

theorem lpmKey_inj (hp : p.Masked) (hq : q.Masked) (h : lpmKey p = lpmKey q) : p = q := by
  rw [lpmKey_eq hp, lpmKey_eq hq, Prod.mk.injEq] at h
  obtain ⟨addr, bits, le⟩ := p
  obtain ⟨addr', bits', le'⟩ := q
  simp only [IpPrefix.mk.injEq]
  exact h.symm

/-! ## Lookups -/

namespace Tries

variable {t : Tries} {v : List UInt8}

theorem lookup_eq_none : t.lookup a = none ↔ ∀ n ≤ a.width, t (n, a.high n) = none := by
  cases a with
  | v4 a => exact longest_eq_none (t := fun k => t (k.1, .v4 k.2))
  | v6 a => exact longest_eq_none (t := fun k => t (k.1, .v6 k.2))

theorem lookup_eq_some (h : t.lookup a = some v) :
    ∃ n ≤ a.width, t (n, a.high n) = some v ∧ ∀ m, n < m → m ≤ a.width → t (m, a.high m) = none := by
  cases a with
  | v4 a => exact longest_eq_some (t := fun k => t (k.1, .v4 k.2)) h
  | v6 a => exact longest_eq_some (t := fun k => t (k.1, .v6 k.2)) h

end Tries

/-! ## The rules of an entry -/

theorem mem_addRules {rules more : List Rule} : r ∈ addRules rules more ↔ r ∈ rules ∨ r ∈ more := by
  induction more generalizing rules with
  | nil => simp [addRules]
  | cons x more ih =>
    rw [addRules, List.foldl_cons, ← addRules, ih]
    by_cases hx : x ∈ rules
    · simp only [List.contains_eq_mem, hx, decide_true, if_true, List.mem_cons]
      exact ⟨fun h => h.imp_right .inr, fun h => by rcases h with h | rfl | h <;> simp [*]⟩
    · simp [hx, or_assoc]

theorem effectiveRules_eq_none : effectiveRules held p = none ↔ ∀ e ∈ held, e.pfx ≠ p := by
  rw [effectiveRules]
  cases h : held.find? (·.pfx = p) with
  | none => simpa using h
  | some e =>
    have he := List.find?_some h
    simp only [decide_eq_true_eq] at he
    simp only [reduceCtorEq, false_iff, not_forall]
    exact ⟨e, List.mem_of_find?_eq_some h, not_not.mpr he⟩

/-- The entry of a prefix collects the rules of the prefixes around it. -/
theorem effectiveRules_spec (hnodup : (held.map (·.pfx)).Nodup) {rules : List Rule}
    (h : effectiveRules held p = some rules) :
    if ∃ e ∈ held, encloses e.pfx p = true ∧ .any ∈ e.rules then rules = [.any]
    else .any ∉ rules ∧ ∀ r, r ∈ rules ↔ ∃ e ∈ held, encloses e.pfx p = true ∧ r ∈ e.rules := by
  rw [effectiveRules] at h
  cases hown : held.find? (·.pfx = p) with
  | none => simp [hown] at h
  | some own =>
    have hmem := List.mem_of_find?_eq_some hown
    have hpfx : own.pfx = p := by simpa using List.find?_some hown
    simp only [hown, Option.some.injEq] at h
    -- the prefix's own entry encloses it too
    have hall : ∀ r, r ∈ addRules own.rules (((held.filter fun e => e.pfx ≠ p && encloses e.pfx p).mergeSort
        fun e f => f.pfx.bits ≤ e.pfx.bits).flatMap (·.rules)) ↔
        ∃ e ∈ held, encloses e.pfx p = true ∧ r ∈ e.rules := by
      intro r
      simp only [mem_addRules, List.mem_flatMap, List.mem_mergeSort, List.mem_filter, Bool.and_eq_true,
        decide_eq_true_eq]
      constructor
      · rintro (hr | ⟨e, ⟨he, -, henc⟩, hr⟩)
        · exact ⟨own, hmem, by rw [hpfx, encloses_self], hr⟩
        · exact ⟨e, he, henc, hr⟩
      · rintro ⟨e, he, henc, hr⟩
        by_cases hep : e.pfx = p
        · have : e = own := List.inj_on_of_nodup_map hnodup he hmem (hep.trans hpfx.symm)
          exact .inl (this ▸ hr)
        · exact .inr ⟨e, ⟨he, hep, henc⟩, hr⟩
    split
    · next hany =>
      rw [if_pos (List.contains_iff_mem.mpr ((hall _).mpr hany))] at h
      exact h.symm
    · next hany =>
      rw [if_neg (mt List.contains_iff_mem.mp (mt (hall _).mp hany))] at h
      subst h
      exact ⟨mt (hall _).mp hany, hall⟩

/-- A prefix the changed one is not around keeps its rules. -/
theorem effectiveRules_congr (hsame : held.filter (·.pfx ≠ q) = new.filter (·.pfx ≠ q)) (hne : p ≠ q)
    (henc : encloses q p = false) : effectiveRules held p = effectiveRules new p := by
  have hfind : ∀ es : List Entry, es.find? (·.pfx = p) = (es.filter (·.pfx ≠ q)).find? (·.pfx = p) := fun es => by
    rw [List.find?_filter]
    congr 1
    funext e
    by_cases he : e.pfx = p
    · simp [he, hne]
    · simp [he]
  have hfilter : ∀ es : List Entry, es.filter (fun e => e.pfx ≠ p && encloses e.pfx p) =
      (es.filter (·.pfx ≠ q)).filter fun e => e.pfx ≠ p && encloses e.pfx p := fun es => by
    rw [List.filter_filter]
    congr 1
    funext e
    by_cases he : e.pfx = q
    · simp [he, henc]
    · simp [he]
  rw [effectiveRules, effectiveRules, hfind held, hfind new, hfilter held, hfilter new, hsame]

/-! ## Writes -/

/-- After some updates a key holds `v` if all that write it write `v`, and if none does it did before. -/
theorem foldl_update_apply {α κ ν : Type*} [DecidableEq κ] {key : α → κ} {val : α → ν} {xs : List α} {t : κ → ν}
    {k : κ} {v : ν} (hval : ∀ x ∈ xs, key x = k → val x = v) (hk : (∃ x ∈ xs, key x = k) ∨ t k = v) :
    xs.foldl (fun t x => Function.update t (key x) (val x)) t k = v := by
  induction xs generalizing t with
  | nil => simpa using hk
  | cons x xs ih =>
    refine ih (fun y hy => hval y (List.mem_cons_of_mem x hy)) ?_
    dsimp only
    by_cases hx : key x = k
    · right
      rw [← hval x List.mem_cons_self hx, ← hx, Function.update_self]
    · rw [Function.update_of_ne (Ne.symm hx)]
      simpa [hx] using hk

theorem plan_eq_ok {ps : List IpPrefix} {cs : List Change} (h : plan maxRules held new ps = .ok cs) :
    (∀ p ∈ ps, ∀ rules, effectiveRules new p = some rules → rules.length ≤ maxRules) ∧
      ∀ x, x ∈ cs ↔ x.pfx ∈ ps ∧ x.before = effectiveRules held x.pfx ∧ x.after = effectiveRules new x.pfx ∧
        x.before ≠ x.after := by
  induction ps generalizing cs with
  | nil => cases h; simp
  | cons p ps ih =>
    simp only [plan] at h
    split at h
    · cases h
    · next hlen =>
      cases hrest : plan maxRules held new ps with
      | error e => simp [hrest, Except.map] at h
      | ok rest =>
        obtain ⟨hfits, hmem⟩ := ih hrest
        simp only [hrest, Except.map, Except.ok.injEq] at h
        refine ⟨?_, fun x => ?_⟩
        · rintro p' hp' rules hrules
          rcases List.mem_cons.mp hp' with rfl | hp'
          · simpa [hrules] using hlen
          · exact hfits p' hp' rules hrules
        · have hhead : x ∈ cs ↔ (x = ⟨p, effectiveRules held p, effectiveRules new p⟩ ∧
              effectiveRules held p ≠ effectiveRules new p) ∨ x ∈ rest := by
            subst h
            split <;> simp_all
          rw [hhead, hmem, List.mem_cons]
          obtain ⟨px, before, after⟩ := x
          simp only [Change.mk.injEq]
          grind

section Applied

variable {t₀ : Tries}

/-- If the writes after a failed one succeed, what was made is put back. -/
theorem rollback_eq {made : List Change} {t : Tries} {i : ℕ} (hok : ∀ j, i ≤ j → ok j = true)
    (hbefore : ∀ x ∈ made, t₀ (lpmKey x.pfx) = x.before.map (encodeRules · maxRules))
    (ht : ∀ k, (∃ x ∈ made, lpmKey x.pfx = k) ∨ t k = t₀ k) : rollback maxRules ok i made t = t₀ := by
  have hfold : ∀ (cs : List Change) (i : ℕ) (t : Tries), (∀ j, i ≤ j → ok j = true) → rollback maxRules ok i cs t =
      cs.foldl (fun t x => Function.update t (lpmKey x.pfx) (x.before.map (encodeRules · maxRules))) t := by
    intro cs
    induction cs with
    | nil => intros; rfl
    | cons x cs ih =>
      intro i t hok
      rw [rollback, if_pos (hok i le_rfl), ih _ _ fun j hj => hok j (by omega)]
      rfl
  rw [hfold made i t hok]
  funext k
  exact foldl_update_apply (fun x hx hk => hk ▸ (hbefore x hx).symm) (ht k)

theorem applyAll_eq (hroll : ∀ i j, ok i = false → i < j → ok j = true) {cs made : List Change} {t : Tries} {i : ℕ}
    (hbefore : ∀ x ∈ made ++ cs, t₀ (lpmKey x.pfx) = x.before.map (encodeRules · maxRules))
    (ht : ∀ k, (∃ x ∈ made, lpmKey x.pfx = k) ∨ t k = t₀ k) :
    applyAll maxRules ok i made cs t =
        (true, cs.foldl (fun t x => Function.update t (lpmKey x.pfx) (x.after.map (encodeRules · maxRules))) t) ∨
      applyAll maxRules ok i made cs t = (false, t₀) := by
  induction cs generalizing made t i with
  | nil => exact .inl rfl
  | cons x cs ih =>
    rw [applyAll]
    split
    · refine ih (by simpa using hbefore) fun k => ?_
      by_cases hk : lpmKey x.pfx = k
      · exact .inl ⟨x, by simp, hk⟩
      · refine (ht k).imp (fun ⟨y, hy, hyk⟩ => ⟨y, by simp [hy], hyk⟩) fun h => ?_
        rw [Tries.apply, Function.update_of_ne (Ne.symm hk), h]
    · next hok =>
      right
      rw [rollback_eq (fun j hj => hroll i j (by simpa using hok) hj) (fun y hy => hbefore y (by simp [hy])) ht]

end Applied

theorem mem_dedup {α : Type*} [DecidableEq α] {x : α} {l : List α} : x ∈ dedup l ↔ x ∈ l := by
  fun_induction dedup l with
  | case1 a l ih => simp [ih]
  | case2 a b l hne ih => simp [ih]
  | case3 l h => rfl

theorem mem_affected : p ∈ affected held new q ↔
    p = q ∨ (∃ e, (e ∈ held ∨ e ∈ new) ∧ e.pfx = p) ∧ p ≠ q ∧ encloses q p = true := by
  simp only [affected, List.mem_append, mem_dedup, List.mem_mergeSort, List.mem_filter, List.mem_map,
    Bool.and_eq_true, decide_eq_true_eq, List.mem_singleton]
  exact or_comm

/-! ## The invariant -/

/-- The tries hold for each prefix what the record asks for. -/
structure Agrees (maxRules : ℕ) (c : Capture) : Prop where
  masked : ∀ e ∈ c.entries, e.pfx.Masked
  nodup : (c.entries.map (·.pfx)).Nodup
  tries : ∀ p : IpPrefix, p.Masked → c.tries (lpmKey p) = (effectiveRules c.entries p).map (encodeRules · maxRules)
  fits : ∀ p rules, effectiveRules c.entries p = some rules → rules.length ≤ maxRules

/-- A call either succeeds and leaves `P`, or fails and leaves the capture. -/
def Outcome {α : Type} (P : Capture → Prop) (c : Capture) : Except CaptureError α × Capture → Prop
  | (.ok _, c') => P c'
  | (.error _, c') => c' = c

theorem agrees_new : Agrees maxRules {} where
  masked := by simp
  nodup := by simp
  tries := by simp [effectiveRules]
  fits := by simp [effectiveRules]

/-- A commit of a record that differs in one prefix keeps the tries in agreement. -/
theorem outcome_commit (h : Agrees cfg.maxRulesPerPrefix c) (hroll : ∀ i j, ok i = false → i < j → ok j = true)
    (hq : q.Masked) (hmasked : ∀ e ∈ new, e.pfx.Masked) (hnodup : (new.map (·.pfx)).Nodup)
    (hsame : c.entries.filter (·.pfx ≠ q) = new.filter (·.pfx ≠ q)) :
    Outcome (Agrees cfg.maxRulesPerPrefix) c (c.commit cfg ok new q) := by
  rw [Capture.commit]
  cases hplan : plan cfg.maxRulesPerPrefix c.entries new (affected c.entries new q) with
  | error e => exact rfl
  | ok cs =>
    obtain ⟨hfits, hcs⟩ := plan_eq_ok hplan
    have hpfx : ∀ p ∈ affected c.entries new q, p.Masked := fun p hp => by
      rcases mem_affected.mp hp with rfl | ⟨⟨e, he, rfl⟩, -⟩
      · exact hq
      · exact he.elim (h.masked e) (hmasked e)
    have hbefore : ∀ x ∈ cs, c.tries (lpmKey x.pfx) = x.before.map
      (encodeRules · cfg.maxRulesPerPrefix) := fun x hx => by
      obtain ⟨hx, hb, -⟩ := (hcs x).mp hx
      rw [h.tries _ (hpfx _ hx), hb]
    have hother : ∀ p, p ∉ affected c.entries new q → effectiveRules c.entries p =
      effectiveRules new p := fun p hp => by
      have hp := mt mem_affected.mpr hp
      push Not at hp
      by_cases henc : encloses q p = true
      · have hnone : ∀ e, e ∈ c.entries ∨ e ∈ new → e.pfx ≠ p := fun e he hep => hp.2 ⟨e, he, hep⟩ hp.1 henc
        rw [effectiveRules_eq_none.mpr fun e he => hnone e (.inl he),
          effectiveRules_eq_none.mpr fun e he => hnone e (.inr he)]
      · exact effectiveRules_congr hsame hp.1 (by simpa using henc)
    dsimp only
    have hstart : ∀ k, (∃ x ∈ ([] : List Change), lpmKey x.pfx = k) ∨ c.tries k = c.tries k := fun _ => .inr rfl
    rcases applyAll_eq (i := 0) hroll (by simpa using hbefore) hstart with heq | heq <;> rw [heq]
    · refine ⟨hmasked, hnodup, fun p hp => ?_, fun p rules hrules => ?_⟩
      · refine foldl_update_apply (fun x hx hk => ?_) ?_
        · obtain ⟨hx, -, ha, -⟩ := (hcs x).mp hx
          rw [ha, lpmKey_inj (hpfx _ hx) hp hk]
        · by_cases heff : effectiveRules c.entries p = effectiveRules new p
          · exact .inr (heff ▸ h.tries p hp)
          · have haff : p ∈ affected c.entries new q := by_contra fun hn => heff (hother p hn)
            exact .inl ⟨⟨p, _, _⟩, (hcs _).mpr ⟨haff, rfl, rfl, heff⟩, rfl⟩
      · by_cases haff : p ∈ affected c.entries new q
        · exact hfits p haff rules hrules
        · exact h.fits p rules (hother p haff ▸ hrules)
    · exact rfl

/-! ## Records that differ in one prefix -/

section Edits

variable {es : List Entry} {rules : List Rule}

theorem map_pfx_withRules {f : Entry → List Rule} : (withRules es q f).map (·.pfx) = es.map (·.pfx) := by
  induction es with
  | nil => rfl
  | cons e es ih => by_cases he : e.pfx = q <;> simp_all [withRules]

theorem filter_withRules {f : Entry → List Rule} : es.filter (·.pfx ≠ q) =
    (withRules es q f).filter (·.pfx ≠ q) := by
  induction es with
  | nil => rfl
  | cons e es ih => by_cases he : e.pfx = q <;> simp_all [withRules]

theorem filter_eraseP : es.filter (·.pfx ≠ q) = (es.eraseP (·.pfx = q)).filter (·.pfx ≠ q) := by
  induction es with
  | nil => rfl
  | cons e es ih => by_cases he : e.pfx = q <;> simp_all

variable (h : Agrees cfg.maxRulesPerPrefix c) (hroll : ∀ i j, ok i = false → i < j → ok j = true) (hq : q.Masked)
include h hroll hq

theorem outcome_withRules {f : Entry → List Rule} :
    Outcome (Agrees cfg.maxRulesPerPrefix) c (c.commit cfg ok (withRules c.entries q f) q) := by
  refine outcome_commit h hroll hq (fun e he => ?_) ?_ filter_withRules
  · have hmem : e.pfx ∈ (withRules c.entries q f).map (·.pfx) := List.mem_map_of_mem he
    rw [map_pfx_withRules] at hmem
    obtain ⟨e', he', heq⟩ := List.mem_map.mp hmem
    exact heq ▸ h.masked e' he'
  · rw [map_pfx_withRules]
    exact h.nodup

theorem outcome_eraseP : Outcome (Agrees cfg.maxRulesPerPrefix)
    c (c.commit cfg ok (c.entries.eraseP (·.pfx = q)) q) :=
  outcome_commit h hroll hq (fun e he => h.masked e (List.mem_of_mem_eraseP he))
    (h.nodup.sublist (List.eraseP_sublist.map _)) filter_eraseP

theorem outcome_append (hfree : c.entries.find? (·.pfx = q) = none) :
    Outcome (Agrees cfg.maxRulesPerPrefix) c (c.commit cfg ok (c.entries ++ [⟨q, rules⟩]) q) := by
  have hnew : ∀ e ∈ c.entries, e.pfx ≠ q := by simpa using hfree
  refine outcome_commit h hroll hq ?_ ?_ ?_
  · simpa [or_imp, forall_and, hq] using h.masked
  · simpa [List.nodup_append, h.nodup] using hnew
  · simp

end Edits

/-! ## Calls -/

theorem Outcome.map {α β : Type} {P : Capture → Prop} {x : Except CaptureError α × Capture} (f : α → β)
    (h : Outcome P c x) : Outcome P c (x.1.map f, x.2) := by
  obtain ⟨_ | _, c'⟩ := x <;> exact h

section Calls

variable (h : Agrees cfg.maxRulesPerPrefix c) (hroll : ∀ i j, ok i = false → i < j → ok j = true)
include h hroll

theorem outcome_addRule (p : IpPrefix) (rule : Rule) :
    Outcome (Agrees cfg.maxRulesPerPrefix) c (c.addRule cfg ok p rule) := by
  rw [Capture.addRule]
  split
  · exact rfl
  · exact rfl
  · split
    · split_ifs
      · exact h
      · exact rfl
      · exact outcome_withRules h hroll IpPrefix.masked_masked
    · next hfree =>
      split
      · exact rfl
      · exact outcome_append h hroll IpPrefix.masked_masked hfree

theorem outcome_remove (p : IpPrefix) : Outcome (Agrees cfg.maxRulesPerPrefix) c (c.remove cfg ok p) := by
  rw [Capture.remove]
  split
  · next hfree =>
    split
    · -- the tries hold nothing for a prefix that is not recorded, so the delete finds nothing
      have hnone : c.tries (lpmKey p.masked) = none := by
        rw [h.tries _ IpPrefix.masked_masked, effectiveRules, hfree]
        rfl
      have hsame : Function.update c.tries (lpmKey p.masked) none = c.tries := by
        rw [← hnone, Function.update_eq_self]
      rw [hsame]
      exact h
    · exact rfl
  · exact (outcome_eraseP h hroll IpPrefix.masked_masked).map _

theorem outcome_removeRule (p : IpPrefix) (rule : Rule) :
    Outcome (Agrees cfg.maxRulesPerPrefix) c (c.removeRule cfg ok p rule) := by
  rw [Capture.removeRule]
  split
  · exact h
  · split
    · exact h
    · refine Outcome.map _ ?_
      split_ifs
      · exact outcome_eraseP h hroll IpPrefix.masked_masked
      · exact outcome_withRules h hroll IpPrefix.masked_masked

end Calls

theorem Outcome.errorOf {α : Type} {P : Capture → Prop} {x : Except CaptureError α × Capture} (hc : P c)
    (h : Outcome P c x) :
    P (Capture.call.errorOf x).2 ∧ ((Capture.call.errorOf x).1.isSome → (Capture.call.errorOf x).2 = c) := by
  obtain ⟨e | v, c'⟩ := x
  · cases h
    exact ⟨hc, fun _ => rfl⟩
  · exact ⟨h, fun hn => absurd hn (by simp [Capture.call.errorOf])⟩

/-- One call keeps the agreement, and changes nothing if it fails. -/
theorem call_agrees (h : Agrees cfg.maxRulesPerPrefix c) {x : Call} (hx : x.RollsBack) :
    Agrees cfg.maxRulesPerPrefix (c.call cfg x).2 ∧ ((c.call cfg x).1.isSome → (c.call cfg x).2 = c) := by
  obtain ⟨op, ok⟩ := x
  cases op with
  | add p => exact (outcome_addRule h hx p .any).errorOf h
  | addRule p rule => exact (outcome_addRule h hx p rule).errorOf h
  | remove p => exact (outcome_remove h hx p).errorOf h
  | removeRule p rule => exact (outcome_removeRule h hx p rule).errorOf h

theorem run_agrees {calls : List Call} (hcalls : ∀ x ∈ calls, x.RollsBack) :
    Agrees cfg.maxRulesPerPrefix (Capture.run cfg calls) := by
  suffices ∀ c, Agrees cfg.maxRulesPerPrefix c →
      Agrees cfg.maxRulesPerPrefix (calls.foldl (fun c x => (c.call cfg x).2) c) from this {} agrees_new
  induction calls with
  | nil => exact fun c h => h
  | cons x calls ih =>
    intro c h
    exact ih (fun y hy => hcalls y (List.mem_cons_of_mem x hy)) _ (call_agrees h (hcalls x List.mem_cons_self)).1

/-! ## Longest matches -/

/-- The trie entry at a prefix of an address is there when the prefix is recorded. -/
theorem Agrees.entry (h : Agrees maxRules c) {n : ℕ} (hn : n ≤ a.width) :
    c.tries (n, a.high n) = (effectiveRules c.entries (.of a n hn)).map (encodeRules · maxRules) := by
  rw [← h.tries _ (IpPrefix.masked_of hn), lpmKey_eq (IpPrefix.masked_of hn)]
  rfl

theorem Agrees.lookup_eq_none (h : Agrees maxRules c) :
    c.tries.lookup a = none ↔ ∀ e ∈ c.entries, e.pfx.contains a = false := by
  rw [Tries.lookup_eq_none]
  constructor
  · intro hnone e he
    by_contra hc
    obtain ⟨hn, heq⟩ := (h.masked e he).eq_of (by simpa using hc)
    have := hnone _ hn
    rw [h.entry hn, Option.map_eq_none_iff, effectiveRules_eq_none] at this
    exact this e he heq
  · intro hall n hn
    rw [h.entry hn, Option.map_eq_none_iff, effectiveRules_eq_none]
    rintro e he heq
    have hc : e.pfx.contains a = true := by
      rw [heq, (IpPrefix.masked_of hn).contains_iff]
      rfl
    simp [hall e he] at hc

/-- The recorded prefixes of an address are those around its longest match. -/
theorem Agrees.lookup_eq_some (h : Agrees maxRules c) {v : List UInt8} (hv : c.tries.lookup a = some v) :
    ∃ p rules, effectiveRules c.entries p = some rules ∧ v = encodeRules rules maxRules ∧
      ∀ e ∈ c.entries, encloses e.pfx p = true ↔ e.pfx.contains a = true := by
  obtain ⟨n, hn, hval, hafter⟩ := Tries.lookup_eq_some hv
  rw [h.entry hn] at hval
  obtain ⟨rules, hrules, rfl⟩ := Option.map_eq_some_iff.mp hval
  have hin : (IpPrefix.of a n hn).contains a = true := (IpPrefix.masked_of hn).contains_iff.mpr rfl
  refine ⟨_, rules, hrules, rfl, fun e he => ⟨fun henc => contains_of_encloses henc hin, fun hc => ?_⟩⟩
  refine encloses_of_contains hc hin (not_lt.mp fun hlt => ?_)
  obtain ⟨hbits, heq⟩ := (h.masked e he).eq_of hc
  have hnone := hafter _ hlt hbits
  rw [h.entry hbits, Option.map_eq_none_iff, effectiveRules_eq_none] at hnone
  exact hnone e he heq

/-- What a trie lookup answers is the union of what is recorded around the address. -/
theorem Agrees.decodeRules (h : Agrees maxRules c) {v : List UInt8} (hv : c.tries.lookup a = some v) :
    if ∃ e ∈ c.entries, e.pfx.contains a = true ∧ .any ∈ e.rules then decodeRules v = [.any]
    else ∀ r, r ∈ decodeRules v ↔ ∃ e ∈ c.entries, e.pfx.contains a = true ∧ r ∈ e.rules := by
  obtain ⟨p, rules, hrules, rfl, hiff⟩ := h.lookup_eq_some hv
  have hspec := effectiveRules_spec h.nodup hrules
  have hex : ∀ r, (∃ e ∈ c.entries, encloses e.pfx p = true ∧ r ∈ e.rules) ↔
      ∃ e ∈ c.entries, e.pfx.contains a = true ∧ r ∈ e.rules := fun r =>
    exists_congr fun e => and_congr_right fun he => by rw [hiff e he]
  simp only [hex] at hspec
  have hread : Xdp.decodeRules (encodeRules rules maxRules) = rules := by
    refine decodeRules_encodeRules (h.fits p rules hrules) fun hany => ?_
    split at hspec
    · exact hspec
    · exact absurd hany hspec.1
  rw [hread]
  split at hspec
  · next hany => rwa [if_pos hany]
  · next hany =>
    rw [if_neg hany]
    exact hspec.2

/-- **Nested prefixes inherit.** -/
theorem nested_prefixes_inherit (cfg : CaptureConfig) (calls : List Call) (hcalls : ∀ x ∈ calls, x.RollsBack) :
    let c := Capture.run cfg calls
    (∀ a, (c.tries.lookup a = none ↔ ∀ e ∈ c.entries, e.pfx.contains a = false) ∧
      ∀ v, c.tries.lookup a = some v →
        if ∃ e ∈ c.entries, e.pfx.contains a = true ∧ .any ∈ e.rules then decodeRules v = [.any]
        else ∀ r, r ∈ decodeRules v ↔ ∃ e ∈ c.entries, e.pfx.contains a = true ∧ r ∈ e.rules) ∧
      ∀ x : Call, x.RollsBack → (c.call cfg x).1.isSome → (c.call cfg x).2 = c := by
  have h : Agrees cfg.maxRulesPerPrefix (Capture.run cfg calls) := run_agrees hcalls
  exact ⟨fun a => ⟨h.lookup_eq_none, fun v hv => h.decodeRules hv⟩, fun x hx => (call_agrees h hx).2⟩

def nestedCalls : List Call :=
  [⟨.addRule (.new (.v4 0x0A000000) 8) (.port .UDP 53), fun _ => true⟩,
    ⟨.addRule (.new (.v4 0x0A010000) 16) (.proto .TCP), fun _ => true⟩]

theorem nested_prefixes_inherit_dns :
    (∀ x ∈ nestedCalls, x.RollsBack) ∧
      (∃ v, (Capture.run {} nestedCalls).tries.lookup (.v4 0x0A010203) = some v ∧ .port .UDP 53 ∈ decodeRules v) ∧
      ((Capture.run {} nestedCalls).call {} ⟨.remove (.new (.v4 0x0A010000) 16), (· ≠ 0)⟩).2 =
        Capture.run {} nestedCalls := by
  have hcalls : ∀ x ∈ nestedCalls, x.RollsBack := by simp [nestedCalls, Call.RollsBack]
  obtain ⟨hlookup, herror⟩ := nested_prefixes_inherit {} nestedCalls hcalls
  refine ⟨hcalls, ?_, herror _ (fun i j hi hij => by simp_all; omega) (by decide +kernel)⟩
  have hsome : ((Capture.run {} nestedCalls).tries.lookup (.v4 0x0A010203)).isSome := by decide +kernel
  have hany : ¬ ∃ e ∈ (Capture.run {} nestedCalls).entries, e.pfx.contains (.v4 0x0A010203) = true ∧
    .any ∈ e.rules := by
    decide +kernel
  obtain ⟨v, hv⟩ := Option.isSome_iff_exists.mp hsome
  have hunion := (hlookup _).2 v hv
  rw [if_neg hany] at hunion
  exact ⟨v, hv, (hunion _).mpr (by decide +kernel)⟩

end PktKit.Xdp
