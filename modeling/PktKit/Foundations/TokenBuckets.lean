import Mathlib

/-! # Token buckets

A bucket fills with time up to a cap; a grant takes a fixed cost out of it, and is refused if there is
less. What it grants in any interval is bounded by its cap and the length of the interval.
-/

namespace PktKit.Foundations

/-- The level of a bucket when it was last asked. -/
structure TokenBucket where
  last : ℕ
  tokens : ℕ

namespace TokenBucket

variable (cost cap : ℕ)

def level (b : TokenBucket) (now : ℕ) : ℕ := min cap (b.tokens + (now - b.last))

def take (b : TokenBucket) (now : ℕ) : TokenBucket × Bool :=
  let tokens := b.level cap now
  let ok := decide (cost ≤ tokens)
  (⟨max b.last now, if ok then tokens - cost else tokens⟩, ok)

def full : TokenBucket := ⟨0, cap⟩

/-- The bucket after it was asked at some times, and the times it granted. -/
def serve (b : TokenBucket) (ts : List ℕ) : TokenBucket × List ℕ :=
  ts.foldl (fun s t => ((s.1.take cost cap t).1, if (s.1.take cost cap t).2 then s.2 ++ [t] else s.2)) (b, [])

variable {cost cap} {b : TokenBucket} {now t u : ℕ} {ts : List ℕ}

theorem level_le_cap (cap : ℕ) (b : TokenBucket) (now : ℕ) : b.level cap now ≤ cap := min_le_left _ _

theorem level_le (cap : ℕ) (b : TokenBucket) (now : ℕ) : b.level cap now ≤ b.tokens + (now - b.last) :=
  min_le_right _ _

theorem level_mono (h : t ≤ u) : b.level cap t ≤ b.level cap u := by
  unfold level
  omega

theorem level_full : (full cap).level cap now = cap := min_eq_left (Nat.le_add_right _ _)

theorem level_of_idle (h : b.last + cap ≤ now) : b.level cap now = cap := by
  unfold level
  omega

theorem take_granted (h : cost ≤ b.level cap now) :
    b.take cost cap now = (⟨max b.last now, b.level cap now - cost⟩, true) := by
  simp [take, h]

theorem take_refused (h : b.level cap now < cost) :
    b.take cost cap now = (⟨max b.last now, b.level cap now⟩, false) := by
  simp [take, not_le.mpr h]

/-- A bucket may be brought up to date before it is asked. -/
theorem take_update (h : b.last ≤ now) : b.take cost cap now = take cost cap ⟨now, b.level cap now⟩ now := by
  have hlevel : level cap ⟨now, b.level cap now⟩ now = b.level cap now := by
    simp only [level]
    omega
  simp only [take, hlevel, max_eq_right h, max_self]

theorem level_le_take : b.level cap now ≤ (b.take cost cap now).1.level cap u + cost := by
  have hcap := level_le_cap cap b now
  rcases le_or_gt cost (b.level cap now) with h | h
  · simp only [take_granted h]
    have hkept : b.level cap now - cost ≤ level cap ⟨max b.last now, b.level cap now - cost⟩ u :=
      le_min (by omega) (Nat.le_add_right _ _)
    omega
  · omega

theorem serve_concat : b.serve cost cap (ts ++ [t]) =
    (((b.serve cost cap ts).1.take cost cap t).1,
      if ((b.serve cost cap ts).1.take cost cap t).2 then (b.serve cost cap ts).2 ++ [t]
      else (b.serve cost cap ts).2) := by
  rw [serve, List.foldl_append]
  rfl

theorem serve_append {us : List ℕ} : b.serve cost cap (ts ++ us) =
    (((b.serve cost cap ts).1.serve cost cap us).1,
      (b.serve cost cap ts).2 ++ ((b.serve cost cap ts).1.serve cost cap us).2) := by
  induction us using List.reverseRecOn with
  | nil => simp [serve]
  | append_singleton us u ih =>
    rw [← List.append_assoc, serve_concat, ih, serve_concat]
    split <;> simp

theorem serve_last (h : ∀ x ∈ ts, x ≤ t) (hb : b.last ≤ t) : (b.serve cost cap ts).1.last ≤ t := by
  induction ts using List.reverseRecOn with
  | nil => exact hb
  | append_singleton ts x ih =>
    rw [serve_concat]
    exact max_le (ih fun y hy => h y (List.mem_append_left _ hy)) (h x (by simp))

theorem serve_cons {x : ℕ} : b.serve cost cap (x :: ts) =
    (((b.take cost cap x).1.serve cost cap ts).1,
      (if (b.take cost cap x).2 then [x] else []) ++ ((b.take cost cap x).1.serve cost cap ts).2) := by
  rw [← List.singleton_append, serve_append]
  rfl

theorem serve_subset : (b.serve cost cap ts).2 ⊆ ts := by
  induction ts generalizing b with
  | nil => exact List.nil_subset _
  | cons x ts ih =>
    rw [serve_cons]
    intro y hy
    rcases List.mem_append.mp hy with hy | hy
    · split at hy
      · exact List.mem_singleton.mp hy ▸ List.mem_cons_self
      · exact absurd hy List.not_mem_nil
    · exact List.mem_cons_of_mem x (ih hy)

/-- What is granted until `u` was in the bucket or came in since. -/
theorem cost_mul_serve_le (hts : ts.Pairwise (· ≤ ·)) (hb : ∀ x ∈ ts, b.last ≤ x) :
    cost * ((b.serve cost cap ts).2.filter (· ≤ u)).length ≤ b.tokens + (u - b.last) := by
  induction ts generalizing b with
  | nil => simp [serve]
  | cons x ts ih =>
    obtain ⟨hx, hts⟩ := List.pairwise_cons.mp hts
    have hbx := hb x List.mem_cons_self
    have hlevel := level_le cap b x
    rcases le_or_gt x u with hxu | hxu
    · rw [serve_cons, List.filter_append, List.length_append, Nat.mul_add]
      rcases le_or_gt cost (b.level cap x) with h | h
      · have hrest := ih (b := ⟨x, b.level cap x - cost⟩) hts hx
        rw [take_granted h, max_eq_right hbx, if_pos rfl, List.filter_singleton, decide_eq_true hxu]
        simp only [cond_true, List.length_singleton] at hrest ⊢
        omega
      · have hrest := ih (b := ⟨x, b.level cap x⟩) hts hx
        rw [take_refused h, max_eq_right hbx]
        simp only [Bool.false_eq_true, if_false, List.filter_nil, List.length_nil] at hrest ⊢
        omega
    · -- what comes after `u` does not count
      have hnone : (b.serve cost cap (x :: ts)).2.filter (· ≤ u) = [] := by
        rw [List.filter_eq_nil_iff]
        intro y hy
        have hxy : x ≤ y := by
          rcases List.mem_cons.mp (serve_subset hy) with rfl | hmem
          · exact le_rfl
          · exact hx y hmem
        simpa using hxu.trans_le hxy
      rw [hnone]
      exact Nat.zero_le _

theorem cost_mul_serve_interval_le (hts : ts.Pairwise (· ≤ ·)) (hb : ∀ x ∈ ts, b.last ≤ x) :
    cost * ((b.serve cost cap ts).2.filter fun x => t ≤ x ∧ x ≤ u).length ≤ cap + (u - t) := by
  induction ts generalizing b with
  | nil => simp [serve]
  | cons x ts ih =>
    obtain ⟨hx, hrest⟩ := List.pairwise_cons.mp hts
    have hbx := hb x List.mem_cons_self
    rcases lt_or_ge x t with hxt | hxt
    · have hskip : (if (b.take cost cap x).2 then [x] else []).filter (fun x => t ≤ x ∧ x ≤ u) = [] := by
        split
        · rw [List.filter_singleton]
          simp [not_le.mpr hxt]
        · rfl
      rw [serve_cons, List.filter_append, hskip, List.nil_append]
      exact ih hrest fun y hy => max_le (hb y (List.mem_cons_of_mem x hy)) (hx y hy)
    · -- the level at the first time in the interval is at most the cap
      have hfirst : ∀ y ∈ x :: ts, x ≤ y := by
        intro y hy
        rcases List.mem_cons.mp hy with rfl | hmem
        · exact le_rfl
        · exact hx y hmem
      have hall : (b.serve cost cap (x :: ts)).2.filter (fun x => t ≤ x ∧ x ≤ u) =
          (b.serve cost cap (x :: ts)).2.filter (· ≤ u) := by
        refine List.filter_congr fun y hy => ?_
        have hxy := hfirst y (serve_subset hy)
        simp [hxt.trans hxy]
      have hsame : b.serve cost cap (x :: ts) = serve cost cap ⟨x, b.level cap x⟩ (x :: ts) := by
        rw [serve_cons, take_update hbx, ← serve_cons]
      rw [hall, hsame]
      refine (cost_mul_serve_le hts hfirst).trans ?_
      change b.level cap x + (u - x) ≤ cap + (u - t)
      have hcap := level_le_cap cap b x
      omega

/-- A bucket asked no more often than it held grants for grants every time. -/
theorem cost_mul_le_level_serve (hts : ts.Pairwise (· ≤ ·)) (ht : ∀ x ∈ ts, t ≤ x) (hu : t ≤ u)
    (hlast : ∀ x ∈ ts, x ≤ u) :
    b.level cap t ≤ (b.serve cost cap ts).1.level cap u + cost * ts.length := by
  induction ts generalizing b t with
  | nil => exact level_mono hu
  | cons x ts ih =>
    obtain ⟨hx, hrest⟩ := List.pairwise_cons.mp hts
    have htx := ht x List.mem_cons_self
    rw [serve_cons, List.length_cons, Nat.mul_succ]
    calc b.level cap t ≤ b.level cap x := level_mono htx
      _ ≤ (b.take cost cap x).1.level cap x + cost := level_le_take
      _ ≤ ((b.take cost cap x).1.serve cost cap ts).1.level cap u + cost * ts.length + cost :=
        Nat.add_le_add_right (ih hrest hx (hlast x List.mem_cons_self) fun y hy =>
          hlast y (List.mem_cons_of_mem x hy)) cost
      _ = _ := Nat.add_assoc _ _ _

end TokenBucket

end PktKit.Foundations
