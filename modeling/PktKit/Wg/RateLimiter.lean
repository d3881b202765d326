import PktKit.Wg.Cookie
import PktKit.Foundations.TokenBuckets

/-! # The rate limit is a token bucket for each source

The table holds the buckets of the sources seen lately. A bucket idle for longer is full again, and
need not be kept.
-/

namespace PktKit.Wg
open Foundations

namespace RateLimiter

def ask (b : Bucket) (now : Instant) : Bucket × Bool :=
  let tokens := min TOKEN_MAX (b.tokens + min (now - b.last) TOKEN_MAX)
  let ok := decide (PACKET_COST ≤ tokens)
  (⟨max b.last now, if ok then tokens - PACKET_COST else tokens⟩, ok)

def grant (table : Table Source Bucket) (src : Source) (now : Instant) : Table Source Bucket × Bool :=
  match table.lookup src with
  | some b => (table.insert src (ask b now).1, (ask b now).2)
  | none =>
    if MAX_ENTRIES ≤ table.entries.length then (table, false)
    else (table.insert src ⟨now, TOKEN_MAX - PACKET_COST⟩, true)

theorem allow_eq_grant (l : RateLimiter) (ip : IpAddr) (now : Instant) :
    (l.allow ip now).1.table = (grant (l.gc now).table (.of ip) now).1 ∧
      (l.allow ip now).2 = (grant (l.gc now).table (.of ip) now).2 := by
  simp only [allow, grant]
  cases (l.gc now).table.lookup (Source.of ip) with
  | some b => exact ⟨rfl, rfl⟩
  | none =>
    simp only
    by_cases hfull : MAX_ENTRIES ≤ (l.gc now).table.entries.length
    · simp only [if_pos hfull, and_self]
    · simp only [if_neg hfull, and_self]

/-! ## Requests -/

abbrev Request := IpAddr × Instant

/-- The limiter after some requests, and those of them that were allowed. -/
def run (reqs : List Request) : RateLimiter × List Request :=
  reqs.foldl (fun s r => ((s.1.allow r.1 r.2).1, if (s.1.allow r.1 r.2).2 then s.2 ++ [r] else s.2)) ({}, [])

def tracked (reqs : List Request) : Table Source Bucket := (run reqs).1.table

def allowed (reqs : List Request) : List Request := (run reqs).2

/-- Whether a request is allowed after some others. -/
def verdict (reqs : List Request) (r : Request) : Bool := ((run reqs).1.allow r.1 r.2).2

/-- Requests one after the other, each of which finds room in the table. -/
structure Unfull (reqs : List Request) : Prop where
  ordered : reqs.Pairwise fun r s => r.2 ≤ s.2
  room : ∀ pre r post, reqs = pre ++ r :: post → (tracked pre).entries.length < MAX_ENTRIES

/-- Collect some of the idle entries, whichever are chosen. -/
def collect (chosen : Source → Bool) (table : Table Source Bucket) (now : Instant) : Table Source Bucket :=
  table.retain fun src b => !chosen src || decide (now - b.last ≤ GC_INTERVAL)

/-- The table after requests before each of which idle entries were collected as chosen. -/
def collecting (reqs : List (Request × (Source → Bool))) : Table Source Bucket :=
  reqs.foldl (fun t r => (grant (collect r.2 t r.1.2) (.of r.1.1) r.1.2).1) ∅

/-- Whether a request is allowed after such requests. -/
def verdictCollecting (reqs : List (Request × (Source → Bool))) (r : Request) (chosen : Source → Bool) : Bool :=
  (grant (collect chosen (collecting reqs) r.2) (.of r.1) r.2).2

/-! ## The table stands for a bucket of each source -/

def times (src : Source) (reqs : List Request) : List Instant :=
  (reqs.filter fun r => Source.of r.1 = src).map Prod.snd

/-- The bucket of a source that has asked at some times, as if it had always been kept. -/
def kept (ts : List Instant) : TokenBucket := ((TokenBucket.full TOKEN_MAX).serve PACKET_COST TOKEN_MAX ts).1

/-- Those of some times at which a source asks that it is granted. -/
def granted (ts : List Instant) : List Instant :=
  ((TokenBucket.full TOKEN_MAX).serve PACKET_COST TOKEN_MAX ts).2

/-- A table after some requests, at a time no earlier: it holds a source's bucket, or that is full. -/
def Mirrors (table : Table Source Bucket) (reqs : List Request) (now : Instant) : Prop :=
  ∀ src, (∀ b ∈ table.lookup src, (⟨b.last, b.tokens⟩ : TokenBucket) = kept (times src reqs)) ∧
    (table.lookup src = none → (kept (times src reqs)).level TOKEN_MAX now = TOKEN_MAX)

variable {table : Table Source Bucket} {reqs : List Request} {r : Request} {src : Source} {now later : Instant}
  {ts : List Instant}

theorem mirrors_empty : Mirrors ∅ [] now := by
  intro src
  refine ⟨fun b hb => ?_, fun _ => TokenBucket.level_full⟩
  rw [AList.lookup_empty] at hb
  cases hb

theorem Mirrors.mono (h : Mirrors table reqs now) (hle : now ≤ later) : Mirrors table reqs later := by
  intro src
  refine ⟨(h src).1, fun hnone => ?_⟩
  have hfull := (h src).2 hnone
  exact le_antisymm (TokenBucket.level_le_cap _ _ _) (hfull.ge.trans (TokenBucket.level_mono hle))

theorem tokenMax_le_gcInterval : TOKEN_MAX ≤ GC_INTERVAL := by decide

theorem Mirrors.collect (h : Mirrors table reqs now) (chosen : Source → Bool) :
    Mirrors (collect chosen table now) reqs now := by
  intro src
  rw [RateLimiter.collect, Table.lookup_retain]
  cases hb : table.lookup src with
  | none => exact ⟨fun b hnone => absurd hnone (Option.not_mem_none b), fun _ => (h src).2 hb⟩
  | some b =>
    have hkept := (h src).1 b hb
    refine ⟨fun b' hb' => ?_, fun hnone => ?_⟩
    · obtain ⟨rfl, -⟩ : b = b' ∧ _ := by simpa [Option.filter_eq_some_iff] using hb'
      exact hkept
    · obtain ⟨-, hidle⟩ : chosen src = true ∧ GC_INTERVAL + b.last < now := by simpa using hnone
      rw [← hkept]
      refine TokenBucket.level_of_idle (le_trans ?_ hidle.le)
      exact (Nat.add_comm b.last TOKEN_MAX).le.trans (Nat.add_le_add_right tokenMax_le_gcInterval _)

theorem ask_eq (b : Bucket) (now : Instant) :
    (⟨(ask b now).1.last, (ask b now).1.tokens⟩ : TokenBucket) =
        (TokenBucket.take PACKET_COST TOKEN_MAX ⟨b.last, b.tokens⟩ now).1 ∧
      (ask b now).2 = (TokenBucket.take PACKET_COST TOKEN_MAX ⟨b.last, b.tokens⟩ now).2 := by
  have hlevel : min TOKEN_MAX (b.tokens + min (now - b.last) TOKEN_MAX) =
      TokenBucket.level TOKEN_MAX ⟨b.last, b.tokens⟩ now := by
    simp only [TokenBucket.level]
    omega
  simp only [ask, hlevel]
  exact ⟨rfl, rfl⟩

theorem times_concat : times src (reqs ++ [r]) =
    if Source.of r.1 = src then times src reqs ++ [r.2] else times src reqs := by
  by_cases h : Source.of r.1 = src <;> simp [times, List.filter_append, h]

theorem kept_concat (ts : List Instant) (now : Instant) :
    kept (ts ++ [now]) = ((kept ts).take PACKET_COST TOKEN_MAX now).1 := by
  rw [kept, TokenBucket.serve_concat]
  rfl

theorem granted_concat (ts : List Instant) (now : Instant) : granted (ts ++ [now]) =
    if ((kept ts).take PACKET_COST TOKEN_MAX now).2 then granted ts ++ [now] else granted ts := by
  rw [granted, TokenBucket.serve_concat]
  rfl

theorem kept_last_le (h : ∀ r ∈ reqs, r.2 ≤ now) : (kept (times src reqs)).last ≤ now := by
  refine TokenBucket.serve_last ?_ (Nat.zero_le _)
  intro t ht
  obtain ⟨r, hr, rfl⟩ := List.mem_map.mp ht
  exact h r (List.mem_of_mem_filter hr)

theorem packetCost_pos : 0 < PACKET_COST := by decide

theorem packetCost_le_tokenMax : PACKET_COST ≤ TOKEN_MAX := by decide

/-- A request is decided by the bucket of its source. -/
theorem Mirrors.grant (h : Mirrors table reqs r.2) (hroom : table.entries.length < MAX_ENTRIES)
    (hpast : ∀ q ∈ reqs, q.2 ≤ r.2) :
    (grant table (.of r.1) r.2).2 = ((kept (times (.of r.1) reqs)).take PACKET_COST TOKEN_MAX r.2).2 ∧
      Mirrors (grant table (.of r.1) r.2).1 (reqs ++ [r]) r.2 := by
  have hown : ∀ (b : Bucket), (⟨b.last, b.tokens⟩ : TokenBucket) = kept (times (.of r.1) reqs ++ [r.2]) →
      Mirrors (table.insert (.of r.1) b) (reqs ++ [r]) r.2 := by
    intro b hb src
    rw [Table.lookup_insert_eq, times_concat]
    by_cases hsrc : src = Source.of r.1
    · rw [if_pos hsrc, if_pos hsrc.symm, hsrc]
      exact ⟨fun b' hb' => Option.some.inj hb' ▸ hb, fun hnone => nomatch hnone⟩
    · rw [if_neg hsrc, if_neg (Ne.symm hsrc)]
      exact h src
  unfold RateLimiter.grant
  cases hb : table.lookup (Source.of r.1) with
  | some b =>
    have hkept := (h _).1 b hb
    obtain ⟨hask, hok⟩ := ask_eq b r.2
    rw [hkept] at hask hok
    refine ⟨hok, hown _ ?_⟩
    rw [hask, kept_concat]
  | none =>
    -- the source's bucket is full, so a new one does as well
    have hfull := (h _).2 hb
    have htake := TokenBucket.take_granted (hfull ▸ packetCost_le_tokenMax)
    rw [hfull, max_eq_right (kept_last_le hpast)] at htake
    simp only [if_neg (not_le.mpr hroom)]
    refine ⟨by rw [htake], hown _ ?_⟩
    rw [kept_concat, htake]

/-! ## Runs -/

theorem gc_eq (l : RateLimiter) (now : Instant) : ∃ chosen, (l.gc now).table = collect chosen l.table now := by
  unfold gc
  by_cases h : l.lastGc.any fun t => now - t < GC_INTERVAL
  · refine ⟨fun _ => false, ?_⟩
    rw [if_pos h]
    simp [collect, Table.retain]
  · refine ⟨fun _ => true, ?_⟩
    rw [if_neg h]
    simp [collect]

theorem run_concat (reqs : List Request) (r : Request) : run (reqs ++ [r]) =
    (((run reqs).1.allow r.1 r.2).1, if verdict reqs r then allowed reqs ++ [r] else allowed reqs) := by
  rw [run, List.foldl_append]
  rfl

theorem length_collect_le (chosen : Source → Bool) (table : Table Source Bucket) (now : Instant) :
    (collect chosen table now).entries.length ≤ table.entries.length := List.length_filter_le _ _

/-- A request is decided, and the table left, as with some collection and the table that comes of it. -/
theorem allow_eq (reqs : List Request) (r : Request) : ∃ chosen,
    verdict reqs r = (grant (collect chosen (tracked reqs) r.2) (.of r.1) r.2).2 ∧
      tracked (reqs ++ [r]) = (grant (collect chosen (tracked reqs) r.2) (.of r.1) r.2).1 := by
  obtain ⟨chosen, hgc⟩ := gc_eq (run reqs).1 r.2
  refine ⟨chosen, ?_⟩
  simp only [tracked, run_concat, ← hgc]
  exact (allow_eq_grant _ _ _).symm

theorem Unfull.init {post : List Request} (h : Unfull (reqs ++ post)) : Unfull reqs where
  ordered := (List.pairwise_append.mp h.ordered).1
  room pre r rest he := h.room pre r (rest ++ post) (by rw [he]; simp)

theorem Unfull.past (h : Unfull (reqs ++ [r])) : ∀ q ∈ reqs, q.2 ≤ r.2 :=
  fun q hq => (List.pairwise_append.mp h.ordered).2.2 q hq r (List.mem_singleton_self r)

theorem mirrors_tracked (h : Unfull reqs) (hpast : ∀ q ∈ reqs, q.2 ≤ now) : Mirrors (tracked reqs) reqs now := by
  induction reqs using List.reverseRecOn generalizing now with
  | nil => exact mirrors_empty
  | append_singleton reqs r ih =>
    obtain ⟨chosen, -, htable⟩ := allow_eq reqs r
    have hroom := (length_collect_le chosen (tracked reqs) r.2).trans_lt (h.room reqs r [] rfl)
    have hstep := (((ih h.init h.past).collect chosen).grant hroom h.past).2
    rw [htable]
    exact hstep.mono (hpast r (by simp))

theorem verdict_eq (h : Unfull (reqs ++ [r])) :
    verdict reqs r = ((kept (times (.of r.1) reqs)).take PACKET_COST TOKEN_MAX r.2).2 := by
  obtain ⟨chosen, hverdict, -⟩ := allow_eq reqs r
  have hroom := (length_collect_le chosen (tracked reqs) r.2).trans_lt (h.room reqs r [] rfl)
  rw [hverdict]
  exact (((mirrors_tracked h.init h.past).collect chosen).grant hroom h.past).1

theorem times_allowed (h : Unfull reqs) (src : Source) : times src (allowed reqs) = granted (times src reqs) := by
  induction reqs using List.reverseRecOn with
  | nil => rfl
  | append_singleton reqs r ih =>
    have hih := ih h.init
    rw [allowed, run_concat, verdict_eq h]
    by_cases hsrc : Source.of r.1 = src
    · subst hsrc
      rw [times_concat, if_pos rfl, granted_concat]
      split
      · rw [times_concat, if_pos rfl, hih]
      · exact hih
    · rw [times_concat, if_neg hsrc]
      split
      · rw [times_concat, if_neg hsrc, hih]
      · exact hih

theorem pairwise_times (h : reqs.Pairwise fun r s => r.2 ≤ s.2) (src : Source) :
    (times src reqs).Pairwise (· ≤ ·) := List.pairwise_map.mpr (h.filter _)

/-- A source is allowed no more than its burst and one request for each cost's time. -/
theorem length_allowed_le (h : Unfull reqs) (src : Source) (t T : ℕ) :
    ((allowed reqs).filter fun r => Source.of r.1 = src ∧ t ≤ r.2 ∧ r.2 ≤ t + T).length ≤
      5 + T / PACKET_COST := by
  have hsame : ((allowed reqs).filter fun r => Source.of r.1 = src ∧ t ≤ r.2 ∧ r.2 ≤ t + T).length =
      ((granted (times src reqs)).filter fun x => t ≤ x ∧ x ≤ t + T).length := by
    rw [← times_allowed h, times, List.filter_map, List.length_map, List.filter_filter]
    congr 2
    ext r
    simp [and_comm]
  have hbound : PACKET_COST * ((granted (times src reqs)).filter fun x => t ≤ x ∧ x ≤ t + T).length ≤
      TOKEN_MAX + (t + T - t) :=
    TokenBucket.cost_mul_serve_interval_le (pairwise_times h.ordered src) fun x _ => Nat.zero_le x
  rw [hsame, ← Nat.mul_add_div packetCost_pos, Nat.le_div_iff_mul_le packetCost_pos, Nat.mul_comm]
  rwa [Nat.add_sub_cancel_left] at hbound

/-- A source that was idle for long has a full bucket. -/
theorem level_kept_of_idle (h : ∀ x ∈ ts, x + TOKEN_MAX ≤ now) : (kept ts).level TOKEN_MAX now = TOKEN_MAX := by
  cases ts with
  | nil => exact TokenBucket.level_full
  | cons x rest =>
    have hx := h x List.mem_cons_self
    have hlast : (kept (x :: rest)).last ≤ now - TOKEN_MAX :=
      TokenBucket.serve_last (fun y hy => Nat.le_sub_of_add_le (h y hy)) (Nat.zero_le _)
    exact TokenBucket.level_of_idle (Nat.add_le_of_le_sub (le_trans (Nat.le_add_left _ x) hx) hlast)

/-- The requests of a source after it was idle for long are allowed until its burst is used up. -/
theorem verdict_burst {early mid : List Request} (h : Unfull (early ++ mid ++ [r]))
    (hidle : ∀ e ∈ times (.of r.1) early, ∀ m ∈ times (.of r.1) (mid ++ [r]), e + TOKEN_MAX ≤ m)
    (hcount : (times (.of r.1) mid).length < 5) : verdict (early ++ mid) r = true := by
  have hordered : (times (.of r.1) (mid ++ [r])).Pairwise (· ≤ ·) := by
    refine pairwise_times (h.ordered.sublist ?_) _
    rw [List.append_assoc]
    exact List.sublist_append_right _ _
  have hserve : kept (times (.of r.1) (early ++ mid)) =
      ((kept (times (.of r.1) early)).serve PACKET_COST TOKEN_MAX (times (.of r.1) mid)).1 := by
    rw [kept, times, List.filter_append, List.map_append, TokenBucket.serve_append]
    rfl
  rw [times_concat, if_pos rfl] at hidle hordered
  obtain ⟨hmid, -, hlast⟩ := List.pairwise_append.mp hordered
  have hlast' : ∀ x ∈ times (Source.of r.1) mid, x ≤ r.2 := fun x hx => hlast x hx r.2 (List.mem_singleton_self _)
  -- the first request after the idle time finds the bucket full
  obtain ⟨t, ht, htr, hfull⟩ : ∃ t, (∀ x ∈ times (.of r.1) mid, t ≤ x) ∧ t ≤ r.2 ∧
      (kept (times (.of r.1) early)).level TOKEN_MAX t = TOKEN_MAX := by
    cases hm : times (Source.of r.1) mid with
    | nil =>
      rw [hm] at hidle
      exact ⟨r.2, by simp, le_rfl, level_kept_of_idle fun x hx => hidle x hx _ (by simp)⟩
    | cons t rest =>
      rw [hm] at hidle hmid hlast'
      refine ⟨t, ?_, hlast' t List.mem_cons_self, level_kept_of_idle fun x hx => hidle x hx t (by simp)⟩
      intro x hx
      rcases List.mem_cons.mp hx with rfl | hx
      · exact le_rfl
      · exact (List.pairwise_cons.mp hmid).1 x hx
  have hlevel : (kept (times (.of r.1) early)).level TOKEN_MAX t ≤
      (kept (times (.of r.1) (early ++ mid))).level TOKEN_MAX r.2 + PACKET_COST *
        (times (.of r.1) mid).length := by
    rw [hserve]
    exact TokenBucket.cost_mul_le_level_serve hmid ht htr hlast'
  have hused : PACKET_COST * (times (.of r.1) mid).length + PACKET_COST ≤ TOKEN_MAX :=
    (Nat.mul_succ _ _).symm.le.trans (Nat.mul_le_mul_left _ hcount)
  rw [verdict_eq h, TokenBucket.take_granted]
  omega

/-! ## Other ways of collecting -/

theorem collecting_concat (reqs : List (Request × (Source → Bool))) (c : Request × (Source → Bool)) :
    collecting (reqs ++ [c]) = (grant (collect c.2 (collecting reqs) c.1.2) (.of c.1.1) c.1.2).1 := by
  rw [collecting, List.foldl_append]
  rfl

theorem mirrors_collecting {reqs : List (Request × (Source → Bool))}
    (hordered : (reqs.map Prod.fst).Pairwise fun r s => r.2 ≤ s.2)
    (hroom : ∀ pre c post, reqs = pre ++ c :: post → (collecting pre).entries.length < MAX_ENTRIES)
    (hpast : ∀ c ∈ reqs, c.1.2 ≤ now) : Mirrors (collecting reqs) (reqs.map Prod.fst) now := by
  induction reqs using List.reverseRecOn generalizing now with
  | nil => exact mirrors_empty
  | append_singleton reqs c ih =>
    rw [List.map_append] at hordered
    obtain ⟨hinit, -, hlast⟩ := List.pairwise_append.mp hordered
    have hbefore : ∀ q ∈ reqs.map Prod.fst, q.2 ≤ c.1.2 := fun q hq => hlast q hq c.1 (by simp)
    have hih := ih hinit (fun pre d post he => hroom pre d (post ++ [c]) (by rw [he]; simp))
      (fun d hd => hbefore d.1 (List.mem_map_of_mem hd))
    have hlen := (length_collect_le c.2 (collecting reqs) c.1.2).trans_lt (hroom reqs c [] rfl)
    have hstep := ((hih.collect c.2).grant hlen hbefore).2
    rw [collecting_concat, List.map_append]
    exact hstep.mono (hpast c (by simp))

/-- Whichever idle entries were collected, and whenever, the verdict is the bucket's. -/
theorem verdictCollecting_eq {reqs : List (Request × (Source → Bool))}
    (hordered : (reqs.map Prod.fst ++ [r]).Pairwise fun r s => r.2 ≤ s.2)
    (hroom : ∀ pre post, reqs = pre ++ post → (collecting pre).entries.length < MAX_ENTRIES)
    (chosen : Source → Bool) : verdictCollecting reqs r chosen =
      ((kept (times (.of r.1) (reqs.map Prod.fst))).take PACKET_COST TOKEN_MAX r.2).2 := by
  obtain ⟨hinit, -, hlast⟩ := List.pairwise_append.mp hordered
  have hbefore : ∀ q ∈ reqs.map Prod.fst, q.2 ≤ r.2 := fun q hq => hlast q hq r (List.mem_singleton_self r)
  have hmirrors : Mirrors (collecting reqs) (reqs.map Prod.fst) r.2 :=
    mirrors_collecting hinit (fun pre c post he => hroom pre (c :: post) he)
      fun c hc => hbefore c.1 (List.mem_map_of_mem hc)
  have hlen := (length_collect_le chosen (collecting reqs) r.2).trans_lt (hroom reqs [] (List.append_nil _).symm)
  exact ((hmirrors.collect chosen).grant hlen hbefore).1

/-! ## The cap -/

theorem length_grant_le (h : table.entries.length ≤ MAX_ENTRIES) :
    (grant table src now).1.entries.length ≤ MAX_ENTRIES := by
  unfold RateLimiter.grant
  cases hb : table.lookup src with
  | some b =>
    rw [Table.length_insert_of_some hb]
    exact h
  | none =>
    simp only
    split
    · exact h
    · next hroom => exact (Table.length_insert_of_none hb).le.trans (not_le.mp hroom)

theorem length_tracked_le (reqs : List Request) : (tracked reqs).entries.length ≤ MAX_ENTRIES := by
  induction reqs using List.reverseRecOn with
  | nil => exact Nat.zero_le _
  | append_singleton reqs r ih =>
    obtain ⟨chosen, -, htable⟩ := allow_eq reqs r
    rw [htable]
    exact length_grant_le ((length_collect_le _ _ _).trans ih)

/-- **The limiter is a token bucket for each source, and its housekeeping does not show.** -/
theorem allow_token_bucket (reqs : List Request) :
    (tracked reqs).entries.length ≤ MAX_ENTRIES ∧
      (Unfull reqs →
        (∀ src t T, ((allowed reqs).filter fun r => Source.of r.1 = src ∧ t ≤ r.2 ∧ r.2 ≤ t + T).length ≤
          5 + T / Duration.fromMillis 50) ∧
        ∀ pre r post, reqs = pre ++ r :: post →
          (∀ early mid, pre = early ++ mid →
            (∀ e ∈ times (.of r.1) early, ∀ m ∈ times (.of r.1) (mid ++ [r]), e + TOKEN_MAX ≤ m) →
            (times (.of r.1) mid).length < 5 → verdict pre r = true) ∧
          (∀ other, Unfull (other ++ [r]) → times (.of r.1) other = times (.of r.1) pre →
            verdict other r = verdict pre r) ∧
          ∀ (chosen : List (Request × (Source → Bool))) (last : Source → Bool), chosen.map Prod.fst = pre →
            (∀ done rest, chosen = done ++ rest → (collecting done).entries.length < MAX_ENTRIES) →
            verdictCollecting chosen r last = verdict pre r) := by
  refine ⟨length_tracked_le reqs, fun h => ⟨length_allowed_le h, ?_⟩⟩
  rintro pre r post rfl
  have hall : Unfull (pre ++ [r] ++ post) := by simpa using h
  have hpre := hall.init
  refine ⟨?_, ?_, ?_⟩
  · rintro early mid rfl hidle hcount
    exact verdict_burst hpre hidle hcount
  · intro other hother htimes
    rw [verdict_eq hother, verdict_eq hpre, htimes]
  · rintro chosen last rfl hroom
    rw [verdictCollecting_eq hpre.ordered hroom, verdict_eq hpre]

end RateLimiter

end PktKit.Wg
