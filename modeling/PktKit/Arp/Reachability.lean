import PktKit.Arp.Neighbours

/-! # Neighbours that stop answering

Any sequence of operations on the neighbour cache, with the probes asked for each entry since it was last confirmed: a
neighbour that does not answer its probes is given up in bounded time, and making room keeps to its order.
-/

namespace PktKit.Arp
open Foundations

inductive CacheOp (K : Type)
  | resolveAt (ip : K) (now : Instant)
  | poll (now : Instant)
  | updateAt (order : K → ℕ) (ip : K) (mac : MacAddr) (solicited override : Bool) (now : Instant)
  | lookup (ip : K) (now : Instant)
  | pin (ip : Option K)

variable {K : Type} [DecidableEq K]

/-- Whether a message changes what an entry is believed to be: a solicited answer with the cached MAC or with override, or
an overriding message with another MAC. -/
def Entry.renewedBy (e : Entry) (mac : MacAddr) (solicited override : Bool) : Bool :=
  (solicited && (decide (e.mac = mac) || override)) || (override && decide (e.mac ≠ mac))

/-- Whether a message ends the watch on an address: it renews the entry, or the entry had lapsed and the cache holds it no
more. -/
def Cache.renews (c : Cache K) (ip : K) (mac : MacAddr) (solicited override : Bool) (now : Instant) : Bool :=
  match c.map.lookup ip with
  | none => true
  | some e => e.gone now || e.renewedBy mac solicited override

def Resolved.isProbe : Resolved → Bool
  | .probe _ => true
  | _ => false

/-- The cache, and the probes asked for each address since the last message that renewed it. -/
structure Watch (K : Type) where
  cache : Cache K := {}
  asked : K → List Instant := fun _ => []

namespace Watch

def step (w : Watch K) : CacheOp K → Watch K
  | .resolveAt ip now =>
    { cache := (w.cache.resolveAt ip now).1
      asked := if (w.cache.resolveAt ip now).2.isProbe then Function.update w.asked ip
        (w.asked ip ++ [now]) else w.asked }
  | .poll now =>
    { cache := (w.cache.poll now).1
      asked := fun k => if k ∈ (w.cache.poll now).2.map Prod.fst then w.asked k ++ [now] else w.asked k }
  | .updateAt order ip mac solicited override now =>
    { cache := w.cache.updateAt order ip mac solicited override now
      asked := if w.cache.renews ip mac solicited override now then Function.update w.asked ip [] else w.asked }
  | .lookup ip now => { w with cache := (w.cache.lookup ip now).1 }
  | .pin ip => { w with cache := w.cache.pin ip }

def after (ops : List (CacheOp K)) : Watch K := ops.foldl step {}

end Watch

/-! ## One entry -/

/-- Few probes, far enough apart. -/
structure Timely (asked : List Instant) : Prop where
  few : asked.length ≤ MAX_UNICAST_SOLICIT
  apart : asked.Pairwise fun a b => a + RETRANS_TIMER ≤ b

/-- How many waits after the first probe an entry may last that was probed so often. -/
def waits : ℕ → ℕ
  | 0 | 1 => 3
  | 2 => 5
  | _ => 6

/-- An entry being probed since the first of the times, or not being probed. -/
def Entry.Probed (e : Entry) (asked : List Instant) : Prop :=
  match e.state with
  | .probe sent next => asked.length = sent ∧ 1 ≤ sent ∧ (∀ a ∈ asked, a + RETRANS_TIMER ≤ next) ∧
    ∀ t ∈ asked.head?, next + RETRANS_TIMER * (MAX_UNICAST_SOLICIT - sent) ≤ t + RETRANS_TIMER * waits sent
  | _ => asked = []

variable {e e' : Entry} {asked : List Instant} {now : Instant}

theorem Timely.concat (h : Timely asked) (hl : asked.length < MAX_UNICAST_SOLICIT)
    (ha : ∀ a ∈ asked, a + RETRANS_TIMER ≤ now) : Timely (asked ++ [now]) := by
  refine ⟨by rw [List.length_append]; exact hl, ?_⟩
  rw [List.pairwise_append]
  refine ⟨h.apart, List.pairwise_singleton _ _, fun a ha' b hb => ?_⟩
  rw [List.mem_singleton.mp hb]
  exact ha a ha'

/-- Each further probe puts the end off by the waits that were left. -/
theorem waits_succ {r t next now sent : ℕ} (h1 : 1 ≤ sent) (h : next + r * (3 - sent) ≤ t + r * waits sent)
    (hn : next ≤ now) (hg : ¬ next + r * (3 - sent) ≤ now) :
    sent < 3 ∧ now + r + r * (3 - (sent + 1)) ≤ t + r * waits (sent + 1) := by
  have hlt : sent < 3 := by
    by_contra hs
    rw [Nat.sub_eq_zero_of_le (not_lt.mp hs)] at hg
    omega
  refine ⟨hlt, ?_⟩
  interval_cases sent <;> simp only [waits] at h ⊢ <;> omega

theorem waits_le (sent : ℕ) : waits sent ≤ 6 := by
  unfold waits
  split <;> decide

namespace Entry

theorem probed_first (e : Entry) (now : Instant) : (e.probed 1 now).Probed [now] ∧ Timely [now] := by
  have hwaits : ∀ a r : ℕ, a + r + r * (3 - 1) ≤ a + r * waits 1 := fun a r => by
    simp only [waits]
    omega
  refine ⟨⟨rfl, Nat.le_refl _, by simp, fun t ht => ?_⟩, ⟨Nat.le_of_ble_eq_true rfl, List.pairwise_singleton _ _⟩⟩
  obtain rfl : now = t := by simpa using ht
  exact hwaits now RETRANS_TIMER

/-- Another probe of an entry not yet given up. -/
theorem Probed.again {sent : ℕ} {next : Instant} (h : e.Probed asked) (ht : Timely asked)
    (hs : e.state = .probe sent next) (hg : e.gone now = false) (hn : next ≤ now) :
    (e.probed (sent + 1) now).Probed (asked ++ [now]) ∧ Timely (asked ++ [now]) := by
  simp only [Probed, hs] at h
  obtain ⟨hlen, h1, hnext, hhead⟩ := h
  have hg' : ¬ next + RETRANS_TIMER * (3 - sent) ≤ now := by
    rw [gone, hs] at hg
    exact of_decide_eq_false hg
  obtain ⟨t, rest, rfl⟩ := List.exists_cons_of_length_pos (hlen ▸ h1)
  obtain ⟨hlt, hwaits⟩ := waits_succ h1 (hhead t rfl) hn hg'
  refine ⟨⟨by simpa using hlen, Nat.succ_pos _, fun a ha => ?_, fun t' ht' => ?_⟩,
    ht.concat (hlen ▸ hlt) fun a ha => (hnext a ha).trans hn⟩
  · rcases List.mem_append.mp ha with ha | ha
    · exact (hnext a ha).trans (hn.trans (Nat.le_add_right _ _))
    · rw [List.mem_singleton.mp ha]
  · obtain rfl : t = t' := by simpa using ht'
    exact hwaits

theorem Probed.idle (h : ∀ sent next, e.state ≠ .probe sent next) : e.Probed [] := by
  unfold Probed
  split
  · next hs => exact absurd hs (h _ _)
  · rfl

theorem Probed.eq_nil (h : e.Probed asked) (hs : ∀ sent next, e.state ≠ .probe sent next) : asked = [] := by
  unfold Probed at h
  split at h
  · next hp => exact absurd hp (hs _ _)
  · exact h

theorem Probed.congr (h : e.Probed asked) (hs : e'.state = e.state) : e'.Probed asked := by
  rwa [Probed, hs]

def Asks (asked : List Instant) (now : Instant) (e' : Entry) (probe : Bool) : Prop :=
  (probe = true → e'.Probed (asked ++ [now]) ∧ Timely (asked ++ [now])) ∧ (probe = false → e'.Probed asked)

theorem Probed.asks (h : e.Probed asked) : Asks asked now e false := ⟨fun hb => by simp at hb, fun _ => h⟩

theorem used_asks (h : e.Probed asked) (ht : Timely asked) (hg : e.gone now = false) :
    Asks asked now (e.used now).1 (e.used now).2.isProbe := by
  cases hs : e.state with
  | reachable limit =>
    obtain rfl := h.eq_nil (by simp [hs])
    simp only [used, hs]
    split
    · exact h.asks
    · exact Probed.asks (.idle (by simp))
  | stale =>
    obtain rfl := h.eq_nil (by simp [hs])
    simp only [used, hs]
    exact Probed.asks (.idle (by simp))
  | delay limit =>
    obtain rfl := h.eq_nil (by simp [hs])
    simp only [used, hs]
    split
    · exact h.asks
    · exact ⟨fun _ => e.probed_first now, fun hb => by simp [Resolved.isProbe] at hb⟩
  | probe sent next =>
    simp only [used, hs]
    split
    · exact h.asks
    · next hn => exact ⟨fun _ => h.again ht hs hg (not_lt.mp hn), fun hb => by simp [Resolved.isProbe] at hb⟩

theorem timed_asks {b : Bool} (h : e.Probed asked) (ht : Timely asked) (htimed : e.timed now = some (e', b)) :
    Asks asked now e' b := by
  unfold timed at htimed
  cases hs : e.state with
  | reachable limit =>
    simp only [hs] at htimed
    split_ifs at htimed
    cases htimed
    exact h.asks
  | stale =>
    simp only [hs] at htimed
    split_ifs at htimed
    cases htimed
    exact h.asks
  | delay limit =>
    obtain rfl := h.eq_nil (by simp [hs])
    simp only [hs] at htimed
    split_ifs at htimed
    · cases htimed
      exact ⟨fun _ => e.probed_first now, fun hb => by simp at hb⟩
    · cases htimed
      exact h.asks
  | probe sent next =>
    simp only [hs] at htimed
    split_ifs at htimed with hg hn
    · cases htimed
      exact ⟨fun _ => h.again ht hs (by simpa using hg) hn, fun hb => by simp at hb⟩
    · cases htimed
      exact h.asks

theorem learnt_probed (mac : MacAddr) (solicited : Bool) (now : Instant) :
    (learnt mac solicited now).Probed [] := by
  apply Probed.idle
  intro sent next
  cases solicited <;> simp [learnt]

theorem updated_probed {mac : MacAddr} {solicited override : Bool} (h : e.Probed asked)
    (hr : e.renewedBy mac solicited override = false) (now : Instant) :
    (e.updated mac solicited override now).Probed asked := by
  rw [updated]
  by_cases hm : e.mac = mac
  · have hs : solicited = false := by
      cases solicited with
      | false => rfl
      | true => simp [renewedBy, hm] at hr
    exact h.congr (by simp [hm, hs])
  · have ho : override = false := by
      cases override with
      | false => rfl
      | true => simp [renewedBy, hm] at hr
    rw [if_pos ⟨hm, ho⟩]
    split
    · next limit hs =>
      obtain rfl := h.eq_nil (by simp [hs])
      split
      · exact .idle (by simp)
      · exact h
    · exact h

theorem updated_renewed {mac : MacAddr} {solicited override : Bool}
    (hr : e.renewedBy mac solicited override = true) :
    (e.updated mac solicited override now).Probed [] := by
  have hno : ¬ (e.mac ≠ mac ∧ override = false) := by
    rintro ⟨hm, rfl⟩
    simp [renewedBy, hm] at hr
  have hyes : solicited = true ∨ e.mac ≠ mac := by
    by_contra hn
    obtain ⟨hs, hm⟩ := not_or.mp hn
    simp [renewedBy, hs, not_not.mp hm] at hr
  apply Probed.idle
  intro sent next
  rw [updated, if_neg hno]
  cases solicited <;> simp_all

end Entry

/-! ## Making room -/

namespace Cache

variable {c c' : Cache K} {order : K → ℕ} {k : K}

/-- The entries that may be dropped to make room. -/
def victims (c : Cache K) (now : Instant) : List (Sigma fun _ : K => Entry) :=
  (c.map.retain fun _ e => !e.gone now).entries.filter fun e => some e.1 ≠ c.pinned

def chosen (c : Cache K) (order : K → ℕ) (now : Instant) : List (Sigma fun _ : K => Entry) :=
  ((c.victims now).mergeSort fun a b => rank order a ≤ rank order b).take
    (min ((c.map.retain fun _ e => !e.gone now).entries.length - LOW_WATER) (c.victims now).length)

theorem makeRoom_lookup : (c.makeRoom order now).map.lookup k =
    ((c.map.lookup k).filter fun e => !e.gone now).filter fun _ =>
      decide (k ∉ (c.chosen order now).map Sigma.fst) := by
  rw [makeRoom, Table.lookup_retain, Table.lookup_retain]
  rfl

theorem mem_victims {v : Sigma fun _ : K => Entry} : v ∈ c.victims now ↔
    c.map.lookup v.1 = some v.2 ∧ v.2.gone now = false ∧ c.pinned ≠ some v.1 := by
  rw [victims, List.mem_filter, ← Table.lookup_eq_some, Table.lookup_retain, Option.filter_eq_some_iff, and_assoc,
    Bool.not_eq_true', decide_eq_true_iff, ne_comm]

theorem mem_victims_of_chosen {v : Sigma fun _ : K => Entry} (h : v ∈ c.chosen order now) : v ∈ c.victims now :=
  (List.mergeSort_perm _ _).mem_iff.mp (List.mem_of_mem_take h)

theorem rank_le_of_chosen {v v' : Sigma fun _ : K => Entry} (h : v ∈ c.chosen order now) (h' : v' ∈ c.victims now)
    (hn : v' ∉ c.chosen order now) : rank order v ≤ rank order v' := by
  have hsorted := @List.pairwise_mergeSort _ (fun a b => decide (rank order a ≤ rank order b))
    (fun a b d hab hbd => by simpa using le_trans (of_decide_eq_true hab) (of_decide_eq_true hbd))
    (fun a b => by simpa using le_total (rank order a) (rank order b)) (c.victims now)
  have hmem := (List.mergeSort_perm (c.victims now) fun a b => decide (rank order a ≤ rank order b)).mem_iff.mpr h'
  rw [← List.take_append_drop (min ((c.map.retain fun _ e => !e.gone now).entries.length - LOW_WATER)
    (c.victims now).length) ((c.victims now).mergeSort fun a b => rank order a ≤ rank order b)] at hsorted hmem
  have hdrop := (List.mem_append.mp hmem).resolve_left hn
  exact of_decide_eq_true ((List.pairwise_append.mp hsorted).2.2 v h v' hdrop)

/-- Live entries stay but for those chosen. -/
theorem makeRoom_kept (hl : c.map.lookup k = some e) (hg : e.gone now = false) :
    (c.makeRoom order now).map.lookup k = some e ∨ (⟨k, e⟩ : Sigma fun _ : K => Entry) ∈ c.chosen order now := by
  rw [makeRoom_lookup, hl]
  by_cases hk : k ∈ (c.chosen order now).map Sigma.fst
  · obtain ⟨⟨k', e'⟩, hv, rfl⟩ := List.mem_map.mp hk
    have hl' := (mem_victims.mp (mem_victims_of_chosen hv)).1
    rw [hl] at hl'
    cases hl'
    exact .inr hv
  · simp [Option.filter_some, hg, hk]

theorem makeRoom_sub (hl : (c.makeRoom order now).map.lookup k = some e) :
    c.map.lookup k = some e ∧ e.gone now = false ∧ k ∉ (c.chosen order now).map Sigma.fst := by
  rw [makeRoom_lookup, Option.filter_eq_some_iff, Option.filter_eq_some_iff] at hl
  simpa [and_assoc] using hl

theorem makeRoom_pinned (hp : c.pinned = some k) (hl : c.map.lookup k = some e) (hg : e.gone now = false) :
    (c.makeRoom order now).map.lookup k = some e :=
  (makeRoom_kept hl hg).resolve_right fun hc => (mem_victims.mp (mem_victims_of_chosen hc)).2.2 hp

/-- A neighbour that answered is dropped only once none that was learnt unasked is left. -/
theorem makeRoom_resolved {k' : K} (hl : c.map.lookup k = some e) (hg : e.gone now = false)
    (hr : e.resolved = true)
    (hdrop : (c.makeRoom order now).map.lookup k = none) (hp : c.pinned ≠ some k')
    (hkept : (c.makeRoom order now).map.lookup k' = some e') : e'.resolved = true := by
  obtain ⟨hl', hg', hn'⟩ := makeRoom_sub hkept
  have hc : (⟨k, e⟩ : Sigma fun _ : K => Entry) ∈ c.chosen order now :=
    (makeRoom_kept hl hg).resolve_left (by rw [hdrop]; simp)
  have hrank := rank_le_of_chosen hc (mem_victims (v := ⟨k', e'⟩).mpr ⟨hl', hg', hp⟩)
    fun hmem => hn' (List.mem_map_of_mem hmem)
  rw [rank, rank, Prod.Lex.toLex_le_toLex] at hrank
  dsimp only at hrank
  rcases hrank with hlt | ⟨heq, _⟩
  · rw [hr] at hlt
    cases hres : e'.resolved with
    | true => rfl
    | false =>
      rw [hres] at hlt
      exact absurd hlt (by decide)
  · exact heq.symm.trans hr

/-- All live entries but at most one may be dropped. -/
theorem length_victims (c : Cache K) (now : Instant) :
    (c.map.retain fun _ e => !e.gone now).entries.length ≤ (c.victims now).length + 1 := by
  have hkeys := (c.map.retain fun _ e => !e.gone now).nodupKeys
  rw [List.length_eq_countP_add_countP fun e : Sigma fun _ : K => Entry => decide (some e.1 ≠ c.pinned), victims,
    ← List.countP_eq_length_filter]
  apply Nat.add_le_add_left
  cases hp : c.pinned with
  | none => simp
  | some p =>
    have hcount := List.nodup_iff_count_le_one.mp hkeys p
    rw [List.keys, List.count, List.countP_map] at hcount
    refine le_trans (le_of_eq (List.countP_congr fun e _ => ?_)) hcount
    simp

theorem makeRoom_length : (c.makeRoom order now).map.entries.length ≤ LOW_WATER := by
  have hv := length_victims c now
  have hchosen : (c.chosen order now).length ≤
      (c.map.retain fun _ e => !e.gone now).entries.countP fun e =>
        decide (e.1 ∈ (c.chosen order now).map Sigma.fst) := by
    have hall := List.countP_eq_length (p := fun e : Sigma fun _ : K => Entry =>
      decide (e.1 ∈ (c.chosen order now).map Sigma.fst)).mpr fun e (he : e ∈ c.chosen order now) =>
        decide_eq_true (List.mem_map_of_mem he)
    rw [← hall]
    refine le_trans ((List.take_sublist _ _).countP_le) ?_
    rw [(List.mergeSort_perm _ _).countP_eq]
    exact List.filter_sublist.countP_le
  have hlen : (c.chosen order now).length =
      min ((c.map.retain fun _ e => !e.gone now).entries.length - LOW_WATER) (c.victims now).length := by
    rw [chosen, List.length_take, List.length_mergeSort]
    omega
  have hcount := List.length_eq_countP_add_countP
    (fun e : Sigma fun _ : K => Entry => decide (e.1 ∈ (c.chosen order now).map Sigma.fst))
    (l := (c.map.retain fun _ e => !e.gone now).entries)
  have hroom : (c.makeRoom order now).map.entries.length = (c.map.retain fun _ e => !e.gone now).entries.countP
      fun e => decide ¬decide (e.1 ∈ (c.chosen order now).map Sigma.fst) = true := by
    rw [List.countP_eq_length_filter]
    exact congrArg List.length (List.filter_congr fun e _ => by simp [chosen, victims])
  have hlow : 1 ≤ LOW_WATER := by decide
  omega

end Cache

/-! ## Runs -/

namespace Watch

variable {w : Watch K} {ip k : K}

structure Sound (w : Watch K) : Prop where
  size : w.cache.map.entries.length ≤ MAX_ENTRIES
  timely : ∀ k, Timely (w.asked k)
  probed : ∀ k e, w.cache.map.lookup k = some e → e.Probed (w.asked k)

theorem Sound.erase (h : w.Sound) (ip : K) : Sound { w with cache := { w.cache with map := w.cache.map.erase ip } } := by
  refine ⟨?_, h.timely, fun k e hl => ?_⟩
  · refine le_trans ?_ h.size
    exact (List.kerase_sublist ip w.cache.map.entries).length_le
  · rw [Table.lookup_erase_eq] at hl
    split at hl
    · cases hl
    · exact h.probed k e hl

theorem Sound.lookup (h : w.Sound) (ip : K) (now : Instant) : (w.step (.lookup ip now)).Sound := by
  rw [step, Cache.lookup]
  cases hl : w.cache.map.lookup ip with
  | none => exact h
  | some e =>
    dsimp only
    split
    · exact h.erase ip
    · exact h

/-- A live entry becomes another one. -/
theorem Sound.insert (h : w.Sound) (hl : w.cache.map.lookup ip = some e) {asked : List Instant} (ht : Timely asked)
    (hp : e'.Probed asked) : Sound ⟨{ w.cache with map := w.cache.map.insert ip e' },
      Function.update w.asked ip asked⟩ := by
  refine ⟨?_, fun k => ?_, fun k e hk => ?_⟩
  · dsimp only
    rw [Table.length_insert_of_some hl]
    exact h.size
  · by_cases hk : k = ip
    · subst hk
      simpa using ht
    · simpa [hk] using h.timely k
  · dsimp only at hk ⊢
    rw [Table.lookup_insert_eq] at hk
    split at hk
    · next heq =>
      cases hk
      rw [heq, Function.update_self]
      exact hp
    · next hne =>
      rw [Function.update_of_ne hne]
      exact h.probed k e hk

theorem Sound.resolveAt (h : w.Sound) (ip : K) (now : Instant) : (w.step (.resolveAt ip now)).Sound := by
  rw [step, Cache.resolveAt]
  cases hl : w.cache.map.lookup ip with
  | none => exact h
  | some e =>
    cases hg : e.gone now with
    | true => simpa [hg, Resolved.isProbe] using h.erase ip
    | false =>
      obtain ⟨hyes, hno⟩ := Entry.used_asks (h.probed ip e hl) (h.timely ip) hg
      simp only [hg, Bool.false_eq_true, if_false]
      cases hb : (e.used now).2.isProbe with
      | true => exact h.insert hl (hyes hb).2 (hyes hb).1
      | false =>
        have hsame := h.insert hl (h.timely ip) (hno hb)
        rwa [Function.update_eq_self] at hsame

theorem mem_poll {c : Cache K} : k ∈ (c.poll now).2.map Prod.fst ↔
    ∃ e, c.map.lookup k = some e ∧ (e.timed now).any Prod.snd = true := by
  rw [List.mem_map]
  constructor
  · rintro ⟨⟨k', mac⟩, hmem, rfl⟩
    obtain ⟨⟨k'', e⟩, he, hs⟩ := List.mem_filterMap.mp hmem
    dsimp only at hs
    split_ifs at hs with hb
    cases hs
    exact ⟨e, Table.lookup_eq_some.mpr he, hb⟩
  · rintro ⟨e, hl, hb⟩
    exact ⟨(k, e.mac), List.mem_filterMap.mpr ⟨⟨k, e⟩, Table.lookup_eq_some.mp hl, if_pos hb⟩, rfl⟩

theorem lookup_poll {c : Cache K} (hl : (c.poll now).1.map.lookup k = some e') :
    ∃ e b, c.map.lookup k = some e ∧ e.timed now = some (e', b) := by
  simp only [Cache.poll, Table.lookup_mapValues, Table.lookup_retain, Option.map_eq_some_iff,
    Option.filter_eq_some_iff] at hl
  obtain ⟨e, ⟨hl, hsome⟩, rfl⟩ := hl
  obtain ⟨⟨e', b⟩, htimed⟩ := Option.isSome_iff_exists.mp hsome
  exact ⟨e, b, hl, by rw [htimed]; rfl⟩

theorem Sound.poll (h : w.Sound) (now : Instant) : (w.step (.poll now)).Sound := by
  refine ⟨?_, fun k => ?_, fun k e' hl => ?_⟩
  · refine le_trans ?_ h.size
    simp only [step, Cache.poll, Table.mapValues, List.length_map]
    exact Table.length_retain_le
  · dsimp only [step]
    split
    · next hk =>
      obtain ⟨e, hl, hb⟩ := mem_poll.mp hk
      obtain ⟨⟨e', b⟩, htimed, hb⟩ := (Option.any_eq_true _ _).mp hb
      exact ((Entry.timed_asks (h.probed k e hl) (h.timely k) htimed).1 hb).2
    · exact h.timely k
  · obtain ⟨e, b, hl₀, htimed⟩ := lookup_poll hl
    obtain ⟨hyes, hno⟩ := Entry.timed_asks (h.probed k e hl₀) (h.timely k) htimed
    dsimp only [step]
    split
    · next hk =>
      obtain ⟨e₁, hl₁, hb⟩ := mem_poll.mp hk
      rw [hl₀] at hl₁
      cases hl₁
      rw [htimed] at hb
      exact (hyes hb).1
    · next hk =>
      apply hno
      by_contra hb
      exact hk (mem_poll.mpr ⟨e, hl₀, by rw [htimed]; simpa using hb⟩)

theorem Sound.learn (h : w.Sound) {c : Cache K} (hsub : ∀ k e, c.map.lookup k = some e →
    w.cache.map.lookup k = some e)
    (hlen : (c.map.insert ip e').entries.length ≤ MAX_ENTRIES) (hp : e'.Probed []) :
    Sound ⟨{ c with map := c.map.insert ip e' }, Function.update w.asked ip []⟩ := by
  refine ⟨hlen, fun k => ?_, fun k e hk => ?_⟩
  · by_cases hk : k = ip
    · subst hk
      simpa using (⟨Nat.zero_le _, .nil⟩ : Timely [])
    · simpa [hk] using h.timely k
  · dsimp only at hk ⊢
    rw [Table.lookup_insert_eq] at hk
    split at hk
    · next heq =>
      cases hk
      rw [heq, Function.update_self]
      exact hp
    · next hne =>
      rw [Function.update_of_ne hne]
      exact h.probed k e (hsub k e hk)

theorem Sound.updateAt (h : w.Sound) (order : K → ℕ) (ip : K) (mac : MacAddr) (solicited override : Bool)
    (now : Instant) : (w.step (.updateAt order ip mac solicited override now)).Sound := by
  have hlearnt := Entry.learnt_probed mac solicited now
  rw [step, Cache.updateAt, Cache.renews]
  cases hl : w.cache.map.lookup ip with
  | none =>
    simp only [if_true]
    split
    · refine h.learn (fun k e hk => (Cache.makeRoom_sub hk).1) ?_ hlearnt
      have hroom : (w.cache.makeRoom order now).map.lookup ip = none := by rw [Cache.makeRoom_lookup, hl]; rfl
      rw [Table.length_insert_of_none hroom]
      exact (Nat.succ_le_succ Cache.makeRoom_length).trans (by decide)
    · next hlen =>
      refine h.learn (fun _ _ hk => hk) ?_ hlearnt
      rw [Table.length_insert_of_none hl]
      omega
  | some e =>
    cases hg : e.gone now with
    | true =>
      simp only [hg, Bool.true_or, if_true]
      refine h.learn (fun _ _ hk => hk) ?_ hlearnt
      rw [Table.length_insert_of_some hl]
      exact h.size
    | false =>
      simp only [hg, Bool.false_or, Bool.false_eq_true, if_false]
      cases hr : e.renewedBy mac solicited override with
      | true =>
        simp only [if_true]
        refine h.learn (fun _ _ hk => hk) ?_ (Entry.updated_renewed hr)
        rw [Table.length_insert_of_some hl]
        exact h.size
      | false =>
        have hsame := h.insert hl (h.timely ip) (Entry.updated_probed (h.probed ip e hl) hr now)
        rwa [Function.update_eq_self] at hsame

theorem Sound.step (h : w.Sound) (op : CacheOp K) : (w.step op).Sound := by
  cases op with
  | resolveAt ip now => exact h.resolveAt ip now
  | poll now => exact h.poll now
  | updateAt order ip mac solicited override now => exact h.updateAt order ip mac solicited override now
  | lookup ip now => exact h.lookup ip now
  | pin ip => exact ⟨h.size, h.timely, h.probed⟩

theorem sound_empty : ({} : Watch K).Sound :=
  ⟨Nat.zero_le _, fun _ => ⟨Nat.zero_le _, .nil⟩, fun k e h => by simp at h⟩

theorem sound_after (ops : List (CacheOp K)) : (after ops).Sound := by
  have hrun : ∀ (ops : List (CacheOp K)) (w : Watch K), w.Sound → (ops.foldl Watch.step w).Sound := by
    intro ops
    induction ops with
    | nil => exact fun w h => h
    | cons op ops ih => exact fun w h => ih _ (h.step op)
  exact hrun ops {} sound_empty

/-- An entry is not used once all the waits after its first probe are over. -/
theorem Sound.resolveAt_miss (h : w.Sound) {t : Instant} (ht : t ∈ (w.asked ip).head?)
    (hn : t + RETRANS_TIMER * 6 ≤ now) : (w.cache.resolveAt ip now).2 = .miss := by
  rw [Cache.resolveAt]
  cases hl : w.cache.map.lookup ip with
  | none => rfl
  | some e =>
    have hg : e.gone now = true := by
      have hp := h.probed ip e hl
      cases hs : e.state with
      | probe sent next =>
        simp only [Entry.Probed, hs] at hp
        rw [Entry.gone, hs]
        apply decide_eq_true
        calc next + RETRANS_TIMER * (MAX_UNICAST_SOLICIT - sent) ≤ t + RETRANS_TIMER * waits sent := hp.2.2.2 t ht
          _ ≤ t + RETRANS_TIMER * 6 := Nat.add_le_add_left (Nat.mul_le_mul_left _ (waits_le sent)) _
          _ ≤ now := hn
      | _ =>
        have hnil := hp.eq_nil (by simp [hs])
        rw [hnil] at ht
        simp at ht
    simp [hg]

/-- What an update leaves of other addresses: all of them, or what making room does. -/
theorem updateAt_other (c : Cache K) (order : K → ℕ) (ip : K) (mac : MacAddr) (solicited override : Bool)
    (now : Instant) :
    (∀ k, k ≠ ip → (c.updateAt order ip mac solicited override now).map.lookup k = c.map.lookup k) ∨
    ∀ k, k ≠ ip → (c.updateAt order ip mac solicited override now).map.lookup k =
      (c.makeRoom order now).map.lookup k := by
  rw [Cache.updateAt]
  cases hl : c.map.lookup ip with
  | some e =>
    refine .inl fun k hk => ?_
    dsimp only
    split <;> rw [Table.lookup_insert_eq, if_neg hk]
  | none =>
    dsimp only
    split
    · exact .inr fun k hk => by rw [Table.lookup_insert_eq, if_neg hk]
    · exact .inl fun k hk => by rw [Table.lookup_insert_eq, if_neg hk]

/-- Whatever is done to the cache: since its last renewal an address is probed at most three times, far enough apart, and
six seconds after the first probe its entry is not used; the cache keeps its cap; and a new address costs the router
its entry only once it has lapsed, and a neighbour that answered its entry only when no other is left that was learnt
unasked. -/
theorem silent_dropped (ops : List (CacheOp K)) :
    (∀ k, ((after ops).asked k).length ≤ MAX_UNICAST_SOLICIT ∧
      ((after ops).asked k).Pairwise (fun a b => a + RETRANS_TIMER ≤ b) ∧
      ∀ t ∈ ((after ops).asked k).head?, ∀ now, t + Duration.fromSecs 6 ≤ now →
        ((after ops).cache.resolveAt k now).2 = .miss) ∧
    (after ops).cache.map.entries.length ≤ MAX_ENTRIES ∧
    ∀ order ip mac solicited override now k e, k ≠ ip → (after ops).cache.map.lookup k = some e →
      e.gone now = false →
      ((after ops).cache.updateAt order ip mac solicited override now).map.lookup k ≠ some e →
      (after ops).cache.pinned ≠ some k ∧ (e.resolved = true → ∀ k' e', k' ≠ ip →
        (after ops).cache.pinned ≠ some k' →
        ((after ops).cache.updateAt order ip mac solicited override now).map.lookup k' = some e' →
        e'.resolved = true) := by
  have h := sound_after ops
  refine ⟨fun k => ⟨(h.timely k).few, (h.timely k).apart, fun t ht now hn => h.resolveAt_miss ht ?_⟩, h.size, ?_⟩
  · exact hn
  · intro order ip mac solicited override now k e hk hl hg hdrop
    rcases updateAt_other (after ops).cache order ip mac solicited override now with hall | hroom
    · exact absurd ((hall k hk).trans hl) hdrop
    rw [hroom k hk] at hdrop
    refine ⟨fun hp => hdrop (Cache.makeRoom_pinned hp hl hg), fun hr k' e' hk' hp' hl' => ?_⟩
    rw [hroom k' hk'] at hl'
    refine Cache.makeRoom_resolved hl hg hr ?_ hp' hl'
    cases hd : ((after ops).cache.makeRoom order now).map.lookup k with
    | none => rfl
    | some e₁ =>
      have hsame := (Cache.makeRoom_sub hd).1
      rw [hl] at hsame
      exact absurd (hd.trans hsame.symm) hdrop

end Watch

end PktKit.Arp
