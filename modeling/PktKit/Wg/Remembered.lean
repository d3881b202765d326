import PktKit.Wg.Initiations
import PktKit.Wg.Agreement

/-! # An initiation is accepted once

While its peer is remembered, removed or not, no initiation older than one accepted is accepted. The
queue of tombstones goes by first removals, so a peer is remembered for 4095 other removals after its
first one, and not after its last.
-/

namespace PktKit.Wg
open Foundations Foundations.Actions

/-! ## The queue -/

namespace Tombstones

def put (t : Tombstones) (key : PublicKey) (ts : Bytes 12) : Tombstones :=
  match t.last.lookup key with
  | some old => if old.val < ts.val then { t with last := t.last.insert key ts } else t
  | none =>
    let t : Tombstones :=
      match t.order with
      | old :: order => if MAX_TOMBSTONES ≤ t.last.entries.length then ⟨t.last.erase old, order⟩ else t
      | [] => t
    ⟨t.last.insert key ts, t.order ++ [key]⟩

theorem record_eq (t : Tombstones) (p : PeerEntry) :
    t.record p = p.mark.2.elim t fun ts => t.put p.mark.1 ts := by
  unfold record PeerEntry.mark
  cases p.hasTimestamp <;> rfl

theorem put_new {t : Tombstones} {key : PublicKey} {ts : Bytes 12} (hperm : t.order.Perm t.last.keys)
    (hnew : key ∉ t.order)
    (hroom : t.order.length < MAX_TOMBSTONES) : t.put key ts = ⟨t.last.insert key ts, t.order ++ [key]⟩ := by
  have hfull : ¬ MAX_TOMBSTONES ≤ t.last.entries.length := by
    rw [← Table.length_eq_of_perm hperm]
    exact not_le.mpr hroom
  rw [put, (Table.lookup_eq_none_iff hperm).mpr hnew]
  cases horder : t.order <;> simp [hfull, horder]

/-- The queue holds the keys remembered, each once; behind `key` only keys of `since`, all put there
after `key` was. -/
structure Queued (t : Tombstones) (key : PublicKey) (since : Finset PublicKey) (removed : Prop) : Prop where
  order : t.order.Perm t.last.keys
  behind : ∀ pre post, t.order = pre ++ key :: post → ∀ k ∈ post, k ∈ since
  before : key ∈ t.order → removed

variable {t : Tombstones} {key k : PublicKey} {ts : Bytes 12} {since : Finset PublicKey} {removed : Prop}

theorem Queued.nodup (h : t.Queued key since removed) : t.order.Nodup := h.order.nodup_iff.mpr t.last.keys_nodup

theorem Queued.snoc (h : t.Queued key since removed) (hk : k ∉ t.order) (hsince : removed → k ≠ key → k ∈ since)
    (hremoved : k = key → removed) : Queued ⟨t.last.insert k ts, t.order ++ [k]⟩ key since removed where
  order := Table.perm_keys_insert h.order hk
  behind pre post heq x hx := by
    rcases List.eq_nil_or_concat post with rfl | ⟨post, y, rfl⟩
    · cases hx
    rw [List.concat_eq_append, ← List.cons_append, ← List.append_assoc] at heq
    obtain ⟨horder, hy⟩ := List.append_inj' heq rfl
    obtain rfl : k = y := by simpa using hy
    have hkey : key ∈ t.order := by simp [horder]
    rw [List.concat_eq_append, List.mem_append, List.mem_singleton] at hx
    rcases hx with hx | rfl
    · exact h.behind pre post horder x hx
    · exact hsince (h.before hkey) fun he => hk (he ▸ hkey)
  before hkey := by
    rcases List.mem_append.mp hkey with hkey | hkey
    · exact h.before hkey
    · exact hremoved (List.mem_singleton.mp hkey).symm

/-- The first key leaves a full queue; it is not `key`, with too few others removed. -/
theorem Queued.evict {old : PublicKey} {rest : List PublicKey} (h : t.Queued key since removed)
    (horder : t.order = old :: rest) (hfull : MAX_TOMBSTONES ≤ t.last.entries.length) (hk : k ∉ t.order)
    (hsince : removed → k ≠ key → k ∈ since) (hfew : since.card < MAX_TOMBSTONES) :
    old ≠ key ∧ Queued ⟨t.last.erase old, rest⟩ key since removed := by
  have hnodup := h.nodup
  rw [horder] at hnodup
  constructor
  · rintro rfl
    have hlen := Table.length_eq_of_perm h.order
    have hmem : ∀ x ∈ k :: rest, x ∈ since := by
      intro x hx
      rcases List.mem_cons.mp hx with rfl | hx
      · exact hsince (h.before (by simp [horder])) fun he => hk (by simp [horder, he])
      · exact h.behind [] rest horder x hx
    have hnd : (k :: rest).Nodup := List.nodup_cons.mpr ⟨fun hx => hk (by simp [horder, hx]),
      (List.nodup_cons.mp hnodup).2⟩
    have hcard : (k :: rest).toFinset.card ≤ since.card :=
      Finset.card_le_card fun x hx => hmem x (List.mem_toFinset.mp hx)
    rw [List.toFinset_card_of_nodup hnd, List.length_cons] at hcard
    rw [horder, List.length_cons] at hlen
    omega
  · refine ⟨Table.perm_keys_erase (horder ▸ h.order), fun pre post heq => h.behind (old :: pre)
      post (horder.trans (congrArg (old :: ·) heq)), fun hkey =>
      h.before (by simp [horder, hkey])⟩

/-- Remembering a timestamp forgets neither `key` nor how late it was. -/
theorem Queued.put (h : t.Queued key since removed) (hsince : removed → k ≠ key → k ∈ since)
    (hremoved : k = key → removed)
    (hfew : since.card < MAX_TOMBSTONES) (ts : Bytes 12) : (t.put k ts).Queued key since removed ∧
      (∀ old, t.last.lookup key = some old → ∃ new, (t.put k ts).last.lookup key = some new ∧ old.val ≤ new.val) ∧
      (k = key → ∃ new, (t.put k ts).last.lookup key = some new ∧ ts.val ≤ new.val) := by
  unfold Tombstones.put
  cases hlook : t.last.lookup k with
  | some cur =>
    have hmem : k ∈ t.order := by
      by_contra hk
      rw [(Table.lookup_eq_none_iff h.order).mpr hk] at hlook
      cases hlook
    dsimp only
    split
    · next hlt =>
      refine ⟨⟨Table.perm_keys_insert_of_mem h.order hmem, h.behind, h.before⟩, fun old hold => ?_, fun he => ?_⟩
      · rw [Table.lookup_insert_eq]
        split
        · next he =>
          rw [he, hlook] at hold
          cases hold
          exact ⟨ts, rfl, List.le_of_lt hlt⟩
        · exact ⟨old, hold, List.le_refl _⟩
      · rw [Table.lookup_insert_eq, if_pos he.symm]
        exact ⟨ts, rfl, List.le_refl _⟩
    · next hle =>
      refine ⟨h, fun old hold => ⟨old, hold, List.le_refl _⟩, fun he => ⟨cur, he ▸ hlook, List.not_lt.mp hle⟩⟩
  | none =>
    have hk : k ∉ t.order := (Table.lookup_eq_none_iff h.order).mp hlook
    have hdone : ∀ t' : Tombstones, t'.Queued key since removed → k ∉ t'.order →
        (∀ old, t.last.lookup key = some old → t'.last.lookup key = some old) →
        Queued ⟨t'.last.insert k ts, t'.order ++ [k]⟩ key since removed ∧
          (∀ old, t.last.lookup key = some old → ∃ new, (t'.last.insert k ts).lookup key = some new ∧
            old.val ≤ new.val) ∧
          (k = key → ∃ new, (t'.last.insert k ts).lookup key = some new ∧ ts.val ≤ new.val) :=
            fun t' h' hk' hsame => by
      refine ⟨h'.snoc hk' hsince hremoved, fun old hold => ?_, fun he => ?_⟩
      · have hne : key ≠ k := fun he => by
          rw [he, hlook] at hold
          cases hold
        rw [Table.lookup_insert_eq, if_neg hne]
        exact ⟨old, hsame old hold, List.le_refl _⟩
      · rw [Table.lookup_insert_eq, if_pos he.symm]
        exact ⟨ts, rfl, List.le_refl _⟩
    dsimp only
    split
    · next old rest horder =>
      split
      · next hfull =>
        obtain ⟨hne, hrest⟩ := h.evict horder hfull hk hsince hfew
        refine hdone _ hrest (fun hmem => hk (by simp [horder, hmem])) fun cur hcur => ?_
        rw [Table.lookup_erase_eq, if_neg hne.symm]
        exact hcur
      · exact hdone t h hk fun _ => id
    · exact hdone t h hk fun _ => id

end Tombstones

/-! ## What is remembered of a peer -/

/-- The last timestamp that is held against a peer, in its entry or its tombstone. -/
def Handler.bar (h : Handler) (key : PublicKey) : Option (Bytes 12) :=
  match h.marks key with
  | some m => m.2
  | none => h.tombstones.last.lookup key

/-- All initiations accepted from a peer are remembered by the latest. -/
structure Remembers (key : PublicKey) (since : Finset PublicKey) (removed : Prop)
    (accepted : List (PublicKey × List UInt8)) (h : Handler) : Prop where
  keyed : ∀ k m, h.marks k = some m → m.1 = k
  queued : h.tombstones.Queued key since removed
  bar : ∀ ts, (key, ts) ∈ accepted → ∃ t, h.bar key = some t ∧ ts ≤ t.val
  increasing : ((accepted.filter (·.1 = key)).map (·.2)).Pairwise (· < ·)

section Remembers

variable {key : PublicKey} {since : Finset PublicKey} {removed : Prop} {acc acc' : List (PublicKey × List UInt8)}
  {h h' : Handler} {gone : List PublicKey}

theorem Remembers.keeps (hr : Remembers key since removed acc h) (hk : Keeps h h') :
    Remembers key since removed acc h' where
  keyed k m hm := hr.keyed k m ((hk.marks k).symm.trans hm)
  queued := hk.tombstones ▸ hr.queued
  bar ts hts := by
    have hbar : h'.bar key = h.bar key := by
      unfold Handler.bar
      rw [hk.marks key, hk.tombstones]
    exact hbar ▸ hr.bar ts hts
  increasing := hr.increasing

theorem marks_insert {p : PeerEntry} {k k' : PublicKey} :
    ({ h with peers := h.peers.insert k p } : Handler).marks k' = if k' = k then some p.mark else h.marks k' := by
  rw [Handler.marks, Table.lookup_insert_eq, Handler.marks]
  split <;> rfl

/-- A peer comes into the table with what its tombstone says. -/
theorem Remembers.enter {p : PeerEntry} {k : PublicKey} (hr : Remembers key since removed acc h)
    (hnone : h.peers.lookup k = none) (hp : p.mark = (k, h.tombstones.last.lookup k)) :
    Remembers key since removed acc { h with peers := h.peers.insert k p } where
  keyed k' m hm := by
    rw [marks_insert] at hm
    split at hm
    · next he =>
      cases hm
      rw [hp, he]
    · exact hr.keyed k' m hm
  queued := hr.queued
  bar ts hts := by
    obtain ⟨t, ht, hle⟩ := hr.bar ts hts
    refine ⟨t, ?_, hle⟩
    unfold Handler.bar at ht ⊢
    rw [marks_insert]
    by_cases hk : key = k
    · subst hk
      rw [show h.marks key = none by rw [Handler.marks, hnone]; rfl] at ht
      rw [if_pos rfl, hp]
      exact ht
    · rw [if_neg hk]
      exact ht
  increasing := hr.increasing

/-- A peer leaves the table, and its last timestamp is remembered. -/
theorem Remembers.leave {p : PeerEntry} {k : PublicKey} (hr : Remembers key since removed acc h)
    (hp : h.peers.lookup k = some p) (hsince : removed → k ≠ key → k ∈ since) (hremoved : k = key → removed)
    (hfew : since.card < MAX_TOMBSTONES) :
    Remembers key since removed acc { h with peers := h.peers.erase k, tombstones := h.tombstones.record p } := by
  have hmark : h.marks k = some p.mark := by rw [Handler.marks, hp]; rfl
  have hpk : p.mark.1 = k := hr.keyed k _ hmark
  have hmarks : ∀ k', ({ h with peers := h.peers.erase k, tombstones := h.tombstones.record p } :
    Handler).marks k' =
      if k' = k then none else h.marks k' := fun k' => by
    rw [Handler.marks, Table.lookup_erase_eq, Handler.marks]
    split <;> rfl
  have hrecord : (h.tombstones.record p).Queued key since removed ∧
      (∀ old, h.tombstones.last.lookup key = some old →
        ∃ new, (h.tombstones.record p).last.lookup key = some new ∧ old.val ≤ new.val) ∧
      (∀ ts, k = key → p.mark.2 = some ts →
        ∃ new, (h.tombstones.record p).last.lookup key = some new ∧ ts.val ≤ new.val) := by
    rw [Tombstones.record_eq, hpk]
    cases hts : p.mark.2 with
    | none => exact ⟨hr.queued, fun old hold => ⟨old, hold, List.le_refl _⟩, fun ts _ he => by cases he⟩
    | some ts =>
      obtain ⟨hq, hold, hnew⟩ := hr.queued.put hsince hremoved hfew ts
      exact ⟨hq, hold, fun ts' he hts' => by cases hts'; exact hnew he⟩
  refine ⟨fun k' m hm => ?_, hrecord.1, fun ts hts => ?_, hr.increasing⟩
  · rw [hmarks] at hm
    split at hm
    · cases hm
    · exact hr.keyed k' m hm
  · obtain ⟨t, ht, hle⟩ := hr.bar ts hts
    unfold Handler.bar at ht ⊢
    rw [hmarks]
    by_cases hk : key = k
    · subst hk
      rw [hmark] at ht
      rw [if_pos rfl]
      obtain ⟨new, hnew, hle'⟩ := hrecord.2.2 t rfl ht
      exact ⟨new, hnew, List.le_trans hle hle'⟩
    · rw [if_neg hk]
      cases hm : h.marks key with
      | some m =>
        rw [hm] at ht
        exact ⟨t, ht, hle⟩
      | none =>
        rw [hm] at ht
        obtain ⟨new, hnew, hle'⟩ := hrecord.2.1 t ht
        exact ⟨new, hnew, List.le_trans hle hle'⟩

theorem Remembers.accept {k : PublicKey} {ts : List UInt8} (hr : Remembers key since removed acc h)
    (ha : Accepted h k ts h') : Remembers key since removed (acc ++ [(k, ts)]) h' := by
  obtain ⟨p, p', hp, hkey, hhas, hts, hlt, rfl⟩ := ha
  have hmark : h.marks k = some p.mark := by rw [Handler.marks, hp]; rfl
  have hlast : k = key → ∀ ts', (key, ts') ∈ acc → ts' < ts := by
    rintro rfl ts' hts'
    obtain ⟨t, ht, hle⟩ := hr.bar ts' hts'
    rw [Handler.bar, hmark] at ht
    obtain ⟨hpt, rfl⟩ : p.hasTimestamp = true ∧ p.lastTimestamp = t := by simpa [PeerEntry.mark] using ht
    exact List.lt_of_le_of_lt hle (hlt hpt)
  have hmark' : p'.mark = (k, some p'.lastTimestamp) := by
    rw [PeerEntry.mark, if_pos hhas, hkey]
    exact congrArg (·, _) (hr.keyed k _ hmark)
  refine ⟨fun k' m hm => ?_, hr.queued, fun ts' hts' => ?_, ?_⟩
  · rw [marks_insert] at hm
    split at hm
    · next he =>
      cases hm
      rw [hmark', he]
    · exact hr.keyed k' m hm
  · unfold Handler.bar
    rw [marks_insert]
    by_cases hk : key = k
    · subst hk
      rw [if_pos rfl]
      refine ⟨p'.lastTimestamp, congrArg Prod.snd hmark', ?_⟩
      rw [hts]
      rcases List.mem_append.mp hts' with hold | hnew
      · exact List.le_of_lt (hlast rfl ts' hold)
      · obtain ⟨-, rfl⟩ : key = key ∧ ts' = ts := by simpa using hnew
        exact List.le_refl _
    · rw [if_neg hk]
      refine hr.bar ts' ((List.mem_append.mp hts').resolve_right fun hnew => hk ?_)
      exact congrArg Prod.fst (List.mem_singleton.mp hnew)
  · rw [List.filter_append, List.map_append, List.pairwise_append]
    refine ⟨hr.increasing, ?_, fun a ha b hb => ?_⟩
    · by_cases hk : k = key <;> simp [hk]
    · by_cases hk : k = key
      · obtain rfl : b = ts := by simpa [hk] using hb
        exact hlast hk a (by simpa using ha)
      · simp [hk] at hb

/-- A call keeps what is remembered, while few other peers have been removed. -/
theorem Remembers.deeds (hr : Remembers key since removed acc h) (hd : Deeds gone h acc' h')
    (hsince : ∀ k ∈ gone, removed → k ≠ key → k ∈ since) (hremoved : key ∈ gone → removed)
    (hfew : since.card < MAX_TOMBSTONES) : Remembers key since removed (acc ++ acc') h' := by
  induction hd with
  | refl => simpa using hr
  | keeps _ hk ih => exact ih.keeps hk
  | enter _ hnone hp ih => exact ih.enter hnone hp
  | leave _ hkey hp ih => exact ih.leave hp (hsince _ hkey) (fun he => hremoved (he ▸ hkey)) hfew
  | accept _ hacc ih =>
    rw [← List.append_assoc]
    exact ih.accept hacc

end Remembers

/-! ## Runs -/

section Runs

variable {P : Primitives} {s s' : Story} {c : Call} {key k : PublicKey} {gone : List PublicKey}

theorem Story.step_eq_some (h : s.step P c = some s') : ∃ gone,
    gone = s.running.handler.gone s'.running.handler ∧ s.running.step P c = some s'.running ∧
    s'.accepted = s.accepted ++ (c.op.accepts P c.env s.running.handler).toList ∧ s'.removed =
      s.removed ++ [gone] := by
  obtain ⟨running, hstep, rfl⟩ := Option.map_eq_some_iff.mp h
  exact ⟨_, rfl, hstep, rfl, rfl⟩

theorem Story.removedSinceFirst_subset (h : s'.removed = s.removed ++ [gone]) :
    s.removedSinceFirst key ⊆ s'.removedSinceFirst key := by
  unfold removedSinceFirst
  refine Finset.erase_subset_erase _ fun k hk => ?_
  rw [h, List.dropWhile_append]
  split
  · next hnil =>
    rw [List.isEmpty_iff.mp hnil] at hk
    simp at hk
  · rw [List.flatten_append, List.toFinset_append]
    exact Finset.mem_union_left _ hk

/-- Who is removed in a call is removed since the first removal, if that was not after the call. -/
theorem Story.mem_removedSinceFirst (h : s'.removed = s.removed ++ [gone]) (hkey : key ∈ s'.removed.flatten)
    (hk : k ∈ gone) (hne : k ≠ key) : k ∈ s'.removedSinceFirst key := by
  rw [removedSinceFirst, Finset.mem_erase, List.mem_toFinset]
  refine ⟨hne, List.mem_flatten.mpr ⟨gone, ?_, hk⟩⟩
  rw [h, List.dropWhile_append]
  split
  · next hnil =>
    have hall : ∀ l ∈ s.removed, key ∉ l := by
      simpa [List.dropWhile_eq_nil_iff] using hnil
    have hgone : key ∈ gone := by
      rw [h, List.flatten_append, List.mem_append] at hkey
      rcases hkey with hold | hnew
      · obtain ⟨l, hl, hkl⟩ := List.mem_flatten.mp hold
        exact absurd hkl (hall l hl)
      · simpa using hnew
    simp [hgone]
  · simp

theorem Running.step_deeds (hP : P.KeepsLength) {r r' : Running} (h : r.step P c = some r') :
    Deeds (r.handler.gone r'.handler) r.handler (c.op.accepts P c.env r.handler).toList r'.handler := by
  have hdeeds := deeds_perform (h := r.handler) (e := c.env) hP c.op
  unfold Running.step at h
  split at h
  · split at h <;> cases h
    all_goals
      next heq =>
      rw [wp, heq] at hdeeds
      exact hdeeds
  · cases h

theorem Remembers.mono {since since' : Finset PublicKey} {removed removed' : Prop} {h : Handler}
    {acc : List (PublicKey × List UInt8)} (hr : Remembers key since removed acc h) (hs : since ⊆ since')
    (hremoved : removed → removed') : Remembers key since' removed' acc h where
  keyed := hr.keyed
  queued := ⟨hr.queued.order, fun pre post heq k hk => hs (hr.queued.behind pre post heq k hk),
    fun hk => hremoved (hr.queued.before hk)⟩
  bar := hr.bar
  increasing := hr.increasing

theorem remembers_step (hP : P.KeepsLength) (h : s.step P c = some s')
    (hs : (s.removedSinceFirst key).card < MAX_TOMBSTONES → Remembers key (s.removedSinceFirst key)
      (key ∈ s.removed.flatten) s.accepted s.running.handler)
    (hfew : (s'.removedSinceFirst key).card < MAX_TOMBSTONES) :
    Remembers key (s'.removedSinceFirst key) (key ∈ s'.removed.flatten) s'.accepted s'.running.handler := by
  obtain ⟨gone, rfl, hstep, hacc, hgone⟩ := Story.step_eq_some h
  have hsub := @Story.removedSinceFirst_subset _ _ key _ hgone
  have hbefore := hs ((Finset.card_le_card hsub).trans_lt hfew)
  rw [hacc]
  refine (hbefore.mono hsub fun hk => ?_).deeds (Running.step_deeds hP hstep)
    (fun k hk hkey hne => Story.mem_removedSinceFirst hgone hkey hk hne) (fun hk => ?_) hfew
  · simp [hgone, List.mem_flatten.mp hk]
  · simp [hgone, hk]

end Runs

/-- **An initiation is accepted once**, in every run in which fewer than 4096 other peers are removed
from when its peer is first removed. -/
theorem initiations_increase (P : Primitives) (hP : P.KeepsLength) (e : Env) (privateKey : PrivateKey)
    (threshold limit : Option ℕ) (calls : List Call) (s : Story)
    (hrun : Runs.run (Story.step P) ⟨⟨Handler.new P e privateKey threshold limit, e.now 0⟩, [], []⟩ calls = some s)
    (key : PublicKey) (hfew : (s.removedSinceFirst key).card < MAX_TOMBSTONES) :
    (s.timestamps key).Pairwise (· < ·) := by
  have hnew : Remembers key ∅ False [] (Handler.new P e privateKey threshold limit) :=
    ⟨fun k m hm => by simp [Handler.marks, Handler.new] at hm,
      ⟨.nil, fun pre post heq => by simp [Handler.new] at heq, fun hk => by simp [Handler.new] at hk⟩,
      fun ts hts => (List.not_mem_nil hts).elim, .nil⟩
  exact (Runs.run_invariant (P := fun s => (s.removedSinceFirst key).card < MAX_TOMBSTONES →
    Remembers key (s.removedSinceFirst key) (key ∈ s.removed.flatten) s.accepted s.running.handler)
    (fun s c s' hs hstep => remembers_step hP hstep hs) hrun
    (fun _ => hnew.mono (Finset.empty_subset _) False.elim) hfew).increasing

/-- A peer is heard, removed and added again; what it said before is not taken from it once more. -/
theorem initiations_increase_answered : ∃ s, Runs.run (Story.step .plain) ⟨Running.start 16, [], []⟩
      (answered ++ [.still 1 0 (.removePeer (publicOf 8)), .still 2 0 (.addPeer (publicOf 8)),
        .still 3 9 (.datagram initiation)]) = some s ∧
    (s.timestamps (publicOf 8)).length = 1 ∧ (s.timestamps (publicOf 8)).Pairwise (· < ·) := by
  refine Runs.exists_of_any (P := fun s => (s.timestamps (publicOf 8)).length = 1 ∧
    (s.removedSinceFirst (publicOf 8)).card < MAX_TOMBSTONES) (by decide +kernel) ?_
  rintro s hs ⟨hlen, hfew⟩
  exact ⟨hlen, initiations_increase .plain Primitives.plain_keepsLength { now := fun _ => 0 } (keyOf 16) none none _ s
    hs (publicOf 8) hfew⟩

/-! ## A peer that is forgotten -/

namespace Primitives

theorem plain_x25519Dh (sk : PrivateKey) (pk : PublicKey) : plain.x25519Dh sk pk = .ok (plain.x25519 sk pk) := by
  rw [x25519Dh, if_neg]
  intro h
  have hone := (foldl_or_eq_zero h).2 1 (by simp [plain])
  exact absurd hone (by decide)

theorem plain_aeadOpen (key : Bytes 32) (counter : ℕ) (pt ad : List UInt8) :
    plain.aeadOpen key counter (pt ++ (Bytes.zero 16).val) ad = .ok pt := by
  simp [aeadOpen, splitTag, plain, bind, Except.bind]

end Primitives

/-- An initiation, with nothing kept secret. -/
def hello (key : PublicKey) (ts : Bytes 12) : List UInt8 :=
  leBytes 4 MESSAGE_INITIATION_TYPE ++ leBytes 4 0 ++ (Bytes.zero 32).val ++ (key.val ++ (Bytes.zero 16).val) ++
    (ts.val ++ (Bytes.zero 16).val) ++ (Bytes.zero 16).val ++ (Bytes.zero 16).val

/-- No initiation came in the last second. -/
structure Unhurried (h : Handler) (t : Instant) : Prop where
  until_ : h.load.until_ = none
  window : ∀ w, h.load.windowStart = some w → Duration.fromSecs 1 ≤ t - w
  threshold : 1 ≤ h.loadThreshold

/-- And nobody is known, and nothing pending. -/
structure Idle (h : Handler) (t : Instant) : Prop extends Unhurried h t where
  peers : ∀ key, h.peers.lookup key = none
  inUse : ∀ idx, h.inUse idx = false

section Visit

variable {h : Handler} {t : Instant} {key : PublicKey} {ts : Bytes 12}

theorem hello_layout : (hello key ts).length = MESSAGE_INITIATION_SIZE ∧
    ofLeBytes (slice (hello key ts) 0 4) = MESSAGE_INITIATION_TYPE ∧
    slice (hello key ts) 40 88 = key.val ++ (Bytes.zero 16).val ∧
    slice (hello key ts) 88 116 = ts.val ++ (Bytes.zero 16).val := by
  have htype : slice (hello key ts) 0 4 = leBytes 4 MESSAGE_INITIATION_TYPE := by simp [hello, slice_head]
  refine ⟨by simp [hello, MESSAGE_INITIATION_SIZE], by rw [htype]; decide, ?_⟩
  rw [hello]
  generalize hes : key.val ++ (Bytes.zero 16).val = es
  generalize het : ts.val ++ (Bytes.zero 16).val = et
  have hesl : es.length = 48 := by simp [← hes]
  have hetl : et.length = 28 := by simp [← het]
  simp [slice_head, slice_skip, hesl, hetl]

theorem openInitiation_hello : ∃ i : Handler.Initiation,
    h.openInitiation .plain (hello key ts) = .ok i ∧ i.remoteStatic = key ∧ i.timestamp = ts.val := by
  obtain ⟨-, htype, hstatic, hts⟩ := @hello_layout key ts
  simp only [Handler.openInitiation, except_guard_ok, except_bind_ok, htype, hstatic, hts,
    Primitives.plain_x25519Dh,
    Primitives.plain_aeadOpen, Primitives.orElse, Except.ok.injEq, exists_eq_left', Bytes.length_val,
      Bytes.ofSlice_val]
  exact ⟨_, ⟨by decide, by decide, rfl⟩, rfl, rfl⟩

theorem checkMac1_hello : h.cookieChecker.checkMac1 .plain (hello key ts) = true :=
  checkMac1With_append (P := .plain) (Bytes.zero 16)

theorem Unhurried.underLoad (hc : Unhurried h t) : h.underLoad true t =
    ({ h with load := ⟨some t, 1, none⟩ }, false) := by
  have hw : (h.load.windowStart.all fun w => decide (Duration.fromSecs 1 ≤ t - w)) = true := by
    cases hs : h.load.windowStart with
    | none => rfl
    | some w => exact decide_eq_true (hc.window w hs)
  have ht : ¬ 1 > h.loadThreshold := not_lt.mpr hc.threshold
  unfold Handler.underLoad
  simp [hw, hc.until_, ht]

theorem wp_takeInitiation_hello {addr : SocketAddr} {p : PeerEntry} {e : Env} (he : e.now = fun _ => t)
    (hc : Unhurried h t)
    (hp : h.peers.lookup key = some p) (hexp : p.expiresAt = none) (hfirst : p.lastInitiationConsumed = none)
    (hnew : p.hasTimestamp = true → p.lastTimestamp.val < ts.val) :
    wp (Handler.takeInitiation .plain e false (hello key ts) addr) (fun r h' => ∃ i p', r = .inr i ∧
      i.remoteStatic = key ∧ i.timestamp = ts.val ∧ p'.expiresAt = none ∧
      h' = { h with load := ⟨some t, 1, none⟩, peers := h.peers.insert key p' }) (fun _ _ => False) h := by
  simp only [Handler.takeInitiation, ↓wp_bind, ↓wp_get, ↓wp_ite, ↓wp_fail, Handler.admitInitiation,
    ↓wp_set, ↓wp_pure, he,
    hc.underLoad, Bool.not_false]
  refine ⟨fun hl => hl hello_layout.1, fun _ => ⟨fun hm => ?_, fun _ => ?_⟩⟩
  · rw [checkMac1_hello] at hm
    cases hm
  obtain ⟨i, hi, hkey, hts⟩ := @openInitiation_hello { h with load := ⟨some t, 1, none⟩ } key ts
  refine ⟨fun _ => ?_, fun hbad => (hbad trivial).elim⟩
  rw [hi, wp_ofExcept]
  refine ⟨?_, fun _ hbad => by cases hbad⟩
  rintro _ ⟨⟩
  have hauth : Handler.isAuthorizedPeer { h with load := ⟨some t, 1, none⟩ } i.remoteStatic t = true :=
    (authorized_eq (hkey ▸ hp)).trans (by rw [hexp]; rfl)
  refine ⟨fun hbad => ?_, fun _ => ?_⟩
  · rw [hauth] at hbad
    cases hbad
  rw [hkey, hts]
  refine wp_mono ?_ (fun _ _ => False.elim) (wp_acceptPeerInitiation hp hnew fun w hw => ?_)
  · rintro _ _ ⟨p', rfl, hexp', -, -⟩
    exact ⟨i, p', rfl, hkey, hts, hexp'.trans hexp, rfl⟩
  · rw [hfirst] at hw
    cases hw

theorem buildResponse_plain {i : Handler.Initiation} {e : Env} {localIdx : Index} {psk : PresharedKey} :
    ∃ r, Handler.buildResponse .plain e i localIdx psk = .ok r := by
  simp only [Handler.buildResponse, except_bind_ok, except_guard_ok, Primitives.plain_x25519Dh,
    Primitives.aeadSeal_length Primitives.plain_lawful, Except.ok.injEq, exists_eq_left']
  exact ⟨_, not_not.mpr rfl, rfl⟩

theorem wp_answerInitiation_free {i : Handler.Initiation} {p : PeerEntry} {e : Env}
    (hfree : ∀ idx, h.inUse idx = false)
    (hp : h.peers.lookup i.remoteStatic = some p) (hexp : p.expiresAt = none)
    (hdraw : ∃ idx ∈ e.draws, idx ≠ 0 ∧ e.taken idx = false) :
    wp (Handler.answerInitiation .plain e i) (fun _ h' => (∀ idx, h'.handshakes.lookup idx = none) ∧
      (∀ idx kp, h'.keypairs.lookup idx = some kp → kp.peerKey = i.remoteStatic) ∧ h'.load = h.load ∧
      h'.loadThreshold = h.loadThreshold) (fun _ _ => False) h := by
  simp only [Handler.answerInitiation, ↓wp_bind, ↓wp_get, ↓wp_ofExcept, ↓wp_set, ↓wp_modify, ↓wp_pure]
  obtain ⟨idx, hidx, h0, htaken⟩ := hdraw
  refine wp_mono ?_ (fun _ _ => False.elim) (wp_allocateIndex_free ⟨idx, hidx, h0, hfree idx, htaken⟩)
  rintro idx h1 ⟨rfl, -⟩
  have hauth : h1.isAuthorizedPeer i.remoteStatic (e.now 8) = true := (authorized_eq hp).trans (by rw [hexp]; rfl)
  have hnone : ∀ idx, h1.handshakes.lookup idx = none ∧ h1.keypairs.lookup idx = none := fun idx => by
    simpa [Handler.inUse] using hfree idx
  refine ⟨fun r _ => ?_, fun err herr => ?_⟩
  · refine wp_mono ?_ (fun _ _ => False.elim) (wp_install_ok hauth (hnone idx).2)
    rintro _ _ ⟨x, gone, rfl⟩
    refine ⟨fun idx => (hnone idx).1, fun idx' kp hkp => ?_, rfl, rfl⟩
    have hins := (lookup_unindex_eq_some.mp hkp).1
    rw [Table.lookup_insert_eq] at hins
    split at hins
    · cases hins
      rfl
    · cases (hnone idx').2.symm.trans hins
  · obtain ⟨r, hr⟩ := @buildResponse_plain i e idx (h1.preshared i.remoteStatic)
    rw [hr] at herr
    cases herr

/-- The datagram of a visit was taken. -/
structure Heard (t : Instant) (key : PublicKey) (ts : Bytes 12) (h h' : Handler) : Prop where
  handshakes : ∀ idx, h'.handshakes.lookup idx = none
  keypairs : ∀ idx kp, h'.keypairs.lookup idx = some kp → kp.peerKey = key
  load : h'.load = ⟨some t, 1, none⟩
  threshold : h'.loadThreshold = h.loadThreshold
  tombstones : h'.tombstones = h.tombstones
  marks : ∀ k, h'.marks k = if k = key then some (key, some ts) else none

theorem Receives.marks {h' : Handler} {k : PublicKey} {ts : List UInt8} (hr : Receives h (some (key, ts)) h') :
    h'.tombstones = h.tombstones ∧
    h'.marks k = if k = key then (h.marks key).map fun m => (m.1, some (Bytes.ofSlice 12 ts)) else h.marks k := by
  cases hr with
  | accept hs1 hacc hs2 =>
    obtain ⟨p, p', hp, hpub, hhas, rfl, -, rfl⟩ := hacc
    refine ⟨hs2.tombstones.trans hs1.tombstones, ?_⟩
    rw [hs2.marks, marks_insert, ← hs1.marks k, ← hs1.marks key]
    simp [Handler.marks, hp, PeerEntry.mark, hpub, hhas, Bytes.ofSlice_val]

theorem Idle.addPeer (hi : Idle h t) (key : PublicKey) : ∃ p, h.addPeer .plain key =
    { h with peers := h.peers.insert key p } ∧
    p.mark = (key, h.tombstones.last.lookup key) ∧ p.expiresAt = none ∧ p.lastInitiationConsumed = none := by
  refine ⟨{ h.newEntry .plain key (Bytes.zero 32) false with acceptedUnknown := false }, ?_, newEntry_mark, ?_⟩
  · rw [Handler.addPeer, Handler.addPeerLocked, hi.peers key]
  · simp only [Handler.newEntry, Tombstones.restore]
    split <;> exact ⟨rfl, rfl⟩

theorem Story.step_still {P : Primitives} {last : Instant} {accepted : List (PublicKey × List UInt8)}
    {removed : List (List PublicKey)} {op : Op} {idx : Index} {h' : Handler} {r : Option (PublicKey × List UInt8)}
    {gone : List PublicKey} (hlast : last ≤ t) (hok : op.perform P (Call.still t idx op).env h = .ok () h')
    (hr : op.accepts P (Call.still t idx op).env h = r) (hgone : h.gone h' = gone) :
    Story.step P ⟨⟨h, last⟩, accepted, removed⟩ (.still t idx op) =
      some ⟨⟨h', t⟩, accepted ++ r.toList, removed ++ [gone]⟩ := by
  subst hr hgone
  simp only [Story.step, Running.step]
  rw [if_pos (show last ≤ (Call.still t idx op).clock.at_ 0 from hlast),
    show (Call.still t idx op).op.perform P (Call.still t idx op).env h = _ from hok]
  rfl

theorem discard_ok {α : Type} {m : Action α} {a : α} {h' : Handler} (hm : m h = .ok a h') :
    discard m h = .ok () h' := by
  simp only [discard, Functor.discard, Functor.mapConst, EStateM.map, Function.comp, Function.const, hm]

theorem gone_eq_nil {h' : Handler} (hg : ∀ key, h'.peers.lookup key = none → h.peers.lookup key = none) :
    h.gone h' = [] := by
  refine List.eq_nil_iff_forall_not_mem.mpr fun key hkey => ?_
  obtain ⟨hsome, hnone⟩ := mem_gone.mp hkey
  rw [hg key hnone] at hsome
  cases hsome

theorem gone_eq_singleton {h' : Handler} (hsome : ∀ k, (h.peers.lookup k).isSome ↔ k = key)
    (hnone : h'.peers.lookup key = none) : h.gone h' = [key] := by
  have hnodup : (h.gone h').Nodup := h.peers.keys_nodup.filter _
  refine List.perm_singleton.mp ((List.perm_ext_iff_of_nodup hnodup (List.nodup_singleton key)).mpr fun k => ?_)
  rw [mem_gone, hsome, List.mem_singleton]
  exact ⟨And.left, fun hk => ⟨hk, hk ▸ hnone⟩⟩

/-- The first two calls of a visit. -/
theorem Idle.heard (hi : Idle h t) (hnew : ∀ old, h.tombstones.last.lookup key = some old → old.val < ts.val)
    (addr : SocketAddr) {e : Env} (he : e.now = fun _ => t) (hdraw : ∃ idx ∈ e.draws, idx ≠ 0 ∧
      e.taken idx = false) :
    Handler.acceptsPacket .plain e false (hello key ts) addr (h.addPeer .plain key) = some (key, ts.val) ∧
    ∃ r h', Handler.processPacket .plain e (hello key ts) addr (h.addPeer .plain key) = .ok r h' ∧
      Heard t key ts h h' := by
  obtain ⟨p, hadd, hmark, hexp, hfirst⟩ := hi.addPeer key
  rw [hadd]
  generalize h1eq : ({ h with peers := h.peers.insert key p } : Handler) = h1
  have hpnew : p.hasTimestamp = true → p.lastTimestamp.val < ts.val := fun hhas => by
    refine hnew _ ((congrArg Prod.snd hmark).symm.trans ?_)
    rw [PeerEntry.mark, if_pos hhas]
  have hp : h1.peers.lookup key = some p := h1eq ▸ AList.lookup_insert _
  obtain ⟨hlen, htype, -, -⟩ := @hello_layout key ts
  obtain ⟨_, h2, htake, i, p', rfl, hkey, hts, hexp', h2eq⟩ :=
    exists_ok_of_wp (@wp_takeInitiation_hello h1 t key ts addr p e he
    (h1eq ▸ ⟨hi.until_, hi.window, hi.threshold⟩) hp hexp hfirst hpnew)
  have haccepts : Handler.acceptsPacket .plain e false (hello key ts) addr h1 = some (key, ts.val) := by
    rw [Handler.acceptsPacket, if_pos ⟨by rw [hlen]; decide, htype⟩, htake]
    exact congrArg some (Prod.ext hkey hts)
  obtain ⟨r, h', hanswer, hhs, hkp, hload, hthreshold⟩ := exists_ok_of_wp
    (wp_answerInitiation_free (h := h2) (i := i)
    (h2eq ▸ h1eq ▸ hi.inUse) (by rw [h2eq, hkey]; exact AList.lookup_insert _) hexp' hdraw)
  have hok : Handler.processPacket .plain e (hello key ts) addr h1 = .ok r h' := by
    rw [processPacket_initiation hlen htype, Handler.processHandshakeInitiation_eq, Handler.bind_apply, htake]
    exact hanswer
  have hreceives := receives_processPacketAs (h := h1) Primitives.plain_keepsLength e false (hello key ts) addr
  rw [haccepts, wp_of_ok (show Handler.processPacketAs .plain e false (hello key ts) addr h1 =
    _ from hok)] at hreceives
  refine ⟨haccepts, r, h', hok, hhs, hkey ▸ hkp, hload.trans (h2eq ▸ rfl), hthreshold.trans (h2eq ▸ h1eq ▸ rfl),
    (hreceives.marks (k := key)).1.trans (h1eq ▸ rfl), fun k => ?_⟩
  rw [hreceives.marks.2, ← h1eq, marks_insert, marks_insert, if_pos rfl, hmark, Handler.marks, hi.peers,
    Bytes.ofSlice_val]
  split <;> rfl

theorem Heard.removePeer {h' : Handler} (hh : Heard t key ts h h') (hthreshold : 1 ≤ h.loadThreshold) :
    Idle (h'.removePeer key) (t + Duration.fromSecs 1) ∧ (h'.removePeer key).tombstones = h.tombstones.put key ts ∧
      h'.gone (h'.removePeer key) = [key] := by
  have hkey := hh.marks key
  rw [if_pos rfl, Handler.marks, Option.map_eq_some_iff] at hkey
  obtain ⟨p, hp, hmark⟩ := hkey
  have hsome : ∀ k, (h'.peers.lookup k).isSome ↔ k = key := fun k => by
    rw [← Option.isSome_map (f := PeerEntry.mark), ← Handler.marks, hh.marks]
    split <;> simp [*]
  have hremove : h'.removePeer key =
      Handler.forgetPeers { h' with peers := h'.peers.erase key, tombstones := h'.tombstones.record p } [key] := by
    rw [Handler.removePeer, Handler.takePeerLocked, hp]
  have hpeers : ∀ k, (h'.removePeer key).peers.lookup k = none := fun k => by
    rw [hremove]
    refine Table.lookup_erase_eq.trans ?_
    split
    · rfl
    · next hk => exact Option.not_isSome_iff_eq_none.mp fun hs => hk ((hsome k).mp hs)
  refine ⟨⟨⟨?_, fun w hw => ?_, ?_⟩, hpeers, fun idx => ?_⟩, ?_, gone_eq_singleton hsome (hpeers key)⟩
  · rw [hremove]
    exact congrArg LoadMeter.until_ hh.load
  · rw [hremove] at hw
    have hw' : h'.load.windowStart = some w := hw
    rw [hh.load] at hw'
    cases hw'
    exact (Nat.add_sub_cancel_left _ _).ge
  · rw [hremove]
    exact hh.threshold.symm ▸ hthreshold
  · rw [hremove]
    have hhs := hh.handshakes idx
    have hkp : ∀ kp, h'.keypairs.lookup idx = some kp → kp.peerKey = key := hh.keypairs idx
    simp only [Handler.inUse, Handler.forgetPeers, Table.lookup_retain, hhs, Option.filter_none,
      Option.isSome_none,
      Bool.false_or, Option.isSome_eq_false_iff, Option.isNone_iff_eq_none, Option.filter_eq_none_iff]
    exact fun kp hkp' => by simp [hkp kp hkp']
  · rw [hremove, ← hh.tombstones]
    refine (Tombstones.record_eq _ p).trans ?_
    rw [hmark]
    rfl

theorem exists_heard {s : Story} (hi : Idle s.running.handler t) (hlast : s.running.last ≤ t)
    (hnew : ∀ old, s.running.handler.tombstones.last.lookup key = some old → old.val < ts.val) :
    ∃ h', Runs.run (Story.step .plain) s [.still t 0 (.addPeer key), .still t 1 (.datagram (hello key ts))] =
      some ⟨⟨h', t⟩, s.accepted ++ [(key, ts.val)], s.removed ++ [[], []]⟩ ∧
        Heard t key ts s.running.handler h' := by
  obtain ⟨⟨h, last⟩, accepted, removed⟩ := s
  obtain ⟨haccepts, r, h', hok, hh⟩ := hi.heard hnew ⟨.v4 (Bytes.zero 4), 0⟩
    (e := (Call.still t 1 (.datagram (hello key ts))).env) rfl ⟨1, by simp [Call.still, Call.env], by decide, rfl⟩
  have hadded : h.gone (h.addPeer .plain key) = [] := gone_eq_nil fun k _ => hi.peers k
  have hheard : (h.addPeer .plain key).gone h' = [] := gone_eq_nil fun k hk => by
    have hne : k ≠ key := fun he => by
      have hmark := hh.marks k
      rw [Handler.marks, hk, if_pos he] at hmark
      cases hmark
    obtain ⟨p, hadd, -⟩ := hi.addPeer key
    rw [hadd]
    exact (Table.lookup_insert_eq.trans (if_neg hne)).trans (hi.peers k)
  refine ⟨h', Runs.run_cons.mpr ⟨_, Story.step_still hlast rfl rfl hadded, Runs.run_cons.mpr ⟨_,
    Story.step_still le_rfl (discard_ok hok) haccepts hheard, ?_⟩⟩, hh⟩
  simp [Op.accepts]

def Resting (s : Story) (t : Instant) : Prop := Idle s.running.handler t ∧ s.running.last ≤ t

/-- A peer visits: it is added, heard and removed, and nothing is left of it but its timestamp. -/
theorem exists_visit {s : Story} (hs : Resting s t)
    (hnew : ∀ old, s.running.handler.tombstones.last.lookup key = some old → old.val < ts.val) :
    ∃ calls s', Runs.run (Story.step .plain) s calls = some s' ∧ Resting s' (t + Duration.fromSecs 1) ∧
      s'.running.handler.tombstones = s.running.handler.tombstones.put key ts ∧
      s'.accepted = s.accepted ++ [(key, ts.val)] ∧ s'.removed = s.removed ++ [[], [], [key]] := by
  obtain ⟨h', hrun, hh⟩ := exists_heard hs.1 hs.2 hnew
  obtain ⟨hidle, htomb, hgone⟩ := hh.removePeer hs.1.threshold
  have hstep : Story.step .plain ⟨⟨h', t⟩, s.accepted ++ [(key, ts.val)], s.removed ++ [[], []]⟩
    (.still t 0 (.removePeer key)) =
      _ := Story.step_still le_rfl rfl rfl hgone
  refine ⟨_ ++ [.still t 0 (.removePeer key)],
    ⟨⟨h'.removePeer key, t⟩, s.accepted ++ [(key, ts.val)], s.removed ++ [[], [], [key]]⟩,
    Runs.run_append.mpr ⟨_, hrun, Runs.run_cons.mpr ⟨_, hstep, ?_⟩⟩,
    ⟨hidle, Nat.le_add_right t (Duration.fromSecs 1)⟩, htomb, rfl, rfl⟩
  simp [Op.accepts]

/-- Peers that were never here visit, while there is room to remember them. -/
theorem exists_visits {keys : List PublicKey} {s : Story} (ts : Bytes 12) (hs : Resting s t) (hnodup : keys.Nodup)
    (hperm : s.running.handler.tombstones.order.Perm s.running.handler.tombstones.last.keys)
    (hnew : ∀ k ∈ keys, k ∉ s.running.handler.tombstones.order)
    (hroom : s.running.handler.tombstones.order.length + keys.length ≤ MAX_TOMBSTONES) :
    ∃ calls s' t', Runs.run (Story.step .plain) s calls = some s' ∧ Resting s' t' ∧
      s'.running.handler.tombstones.order = s.running.handler.tombstones.order ++ keys ∧
      s'.running.handler.tombstones.order.Perm s'.running.handler.tombstones.last.keys ∧
      (∀ k ∉ keys, s'.running.handler.tombstones.last.lookup k = s.running.handler.tombstones.last.lookup k) ∧
      ∃ accepted removed, s'.accepted = s.accepted ++ accepted ∧ s'.removed = s.removed ++ removed := by
  induction keys generalizing s t with
  | nil => exact ⟨[], s, t, rfl, hs, by simp, hperm, fun _ _ => rfl, [], [], by simp, by simp⟩
  | cons k keys ih =>
    obtain ⟨hk, hnodup⟩ := List.nodup_cons.mp hnodup
    have hnone : s.running.handler.tombstones.last.lookup k = none :=
      (Table.lookup_eq_none_iff hperm).mpr (hnew k List.mem_cons_self)
    obtain ⟨calls₁, s₁, hrun₁, hs₁, htomb, hacc₁, hrem₁⟩ := @exists_visit _ k ts _ hs (by simp [hnone])
    simp only [List.length_cons] at hroom
    rw [Tombstones.put_new hperm (hnew k List.mem_cons_self) (by omega)] at htomb
    obtain ⟨calls₂, s₂, t₂, hrun₂, hs₂, horder, hperm₂, hlast, acc, rem, hacc₂, hrem₂⟩ := ih hs₁ hnodup
      (by rw [htomb]; exact Table.perm_keys_insert hperm (hnew k List.mem_cons_self)) (fun k' hk' => by
        rw [htomb, List.mem_append, List.mem_singleton]
        rintro (hold | rfl)
        · exact hnew k' (List.mem_cons_of_mem _ hk') hold
        · exact hk hk')
      (by rw [htomb, List.length_append]; simp only [List.length_singleton]; omega)
    refine ⟨calls₁ ++ calls₂, s₂, t₂, Runs.run_append.mpr ⟨s₁, hrun₁, hrun₂⟩, hs₂, ?_, hperm₂,
      fun k' hk' => ?_, _, _,
      by rw [hacc₂, hacc₁, List.append_assoc], by rw [hrem₂, hrem₁, List.append_assoc]⟩
    · rw [horder, htomb, List.append_assoc]
      rfl
    · obtain ⟨hne, hk'⟩ := List.ne_and_not_mem_of_not_mem_cons hk'
      rw [hlast k' hk', htomb, Table.lookup_insert_eq, if_neg hne]

/-- The first in a full queue is forgotten for a new one, however late it was removed last. -/
theorem Tombstones.lookup_put_put {q : Tombstones} {k : PublicKey} {rest : List PublicKey} {old ts' : Bytes 12}
    (hperm : q.order.Perm q.last.keys) (horder : q.order = key :: rest) (hfull : q.order.length = MAX_TOMBSTONES)
    (hkey : q.last.lookup key = some old) (hlt : old.val < ts.val) (hk : k ∉ q.order) :
    (q.put key ts).last.lookup k = none ∧ ((q.put key ts).put k ts').last.lookup key = none := by
  have hput : q.put key ts = ⟨q.last.insert key ts, key :: rest⟩ := by
    rw [put, hkey, ← horder]
    exact if_pos hlt
  have hperm' : (key :: rest).Perm (q.last.insert key ts).keys :=
    Table.perm_keys_insert_of_mem (horder ▸ hperm) List.mem_cons_self
  have hnone : (q.put key ts).last.lookup k = none := by
    rw [hput]
    exact (Table.lookup_eq_none_iff hperm').mpr (horder ▸ hk)
  refine ⟨hnone, ?_⟩
  have hlen : MAX_TOMBSTONES ≤ (q.last.insert key ts).entries.length := by
    rw [← Table.length_eq_of_perm hperm', ← horder, hfull]
  rw [put, hnone, hput]
  simp only [if_pos hlen]
  rw [Table.lookup_insert_eq, Table.lookup_erase_eq, if_pos rfl, if_neg fun he => hk (by simp [horder, he])]

def stamp (b : UInt8) : Bytes 12 := ⟨List.replicate 11 0 ++ [b], by simp⟩

/-- A peer is removed, 4095 others are, and it is once more; one more removal, and an initiation of its
is accepted again. -/
theorem exists_accepted_again {s : Story} {k : PublicKey} {others : List PublicKey} (hs : Resting s t)
    (hempty : s.running.handler.tombstones = {}) (hnodup : (key :: k :: others).Nodup)
    (hlen : others.length + 1 = MAX_TOMBSTONES) :
    ∃ calls s', Runs.run (Story.step .plain) s calls = some s' ∧ s'.removedSinceLast key = {k} ∧
      ∃ acc, s'.timestamps key = acc ++ [(stamp 2).val, (stamp 2).val] := by
  simp only [List.nodup_cons, List.mem_cons, not_or] at hnodup
  obtain ⟨⟨hne, hkey⟩, hk, hnodup⟩ := hnodup
  have hlt : (stamp 1).val < (stamp 2).val := by decide
  obtain ⟨c₁, s₁, hr₁, hs₁, ht₁, ha₁, hd₁⟩ := @exists_visit _ key (stamp 1) _ hs (by rw [hempty]; nofun)
  rw [hempty, Tombstones.put_new .nil List.not_mem_nil (by decide)] at ht₁
  obtain ⟨c₂, s₂, t₂, hr₂, hs₂, horder, hperm, hlast, acc, rem, ha₂, hd₂⟩ := exists_visits (stamp 1) hs₁ hnodup
    (by rw [ht₁]; exact Table.perm_keys_insert .nil List.not_mem_nil)
    (fun k' hk' => by rw [ht₁]; exact fun he => hkey (List.mem_singleton.mp he ▸ hk'))
      (by rw [ht₁]; exact (Nat.add_comm _ _).trans hlen |>.le)
  have hmine : s₂.running.handler.tombstones.last.lookup key = some (stamp 1) := by
    rw [hlast _ hkey, ht₁]
    exact AList.lookup_insert _
  rw [ht₁] at horder
  obtain ⟨hnew, hgone⟩ := @Tombstones.lookup_put_put _ _ _ k _ _ (stamp 1) hperm horder
    (by rw [horder, ← hlen]; rfl) hmine hlt (by rw [horder]; simp [hk, Ne.symm hne])
  obtain ⟨c₃, s₃, hr₃, hs₃, ht₃, ha₃, hd₃⟩ := @exists_visit _ key (stamp 2) _ hs₂
    (fun old hold => by rw [hmine] at hold; cases hold; exact hlt)
  obtain ⟨c₄, s₄, hr₄, hs₄, ht₄, ha₄, hd₄⟩ := @exists_visit _ k (stamp 1) _ hs₃
    (by rw [ht₃, hnew]; nofun)
  obtain ⟨h₅, hr₅, -⟩ := @exists_heard _ key (stamp 2) _ hs₄.1 hs₄.2 (by rw [ht₄, ht₃, hgone]; nofun)
  refine ⟨c₁ ++ (c₂ ++ (c₃ ++ (c₄ ++ [_, _]))), _, Runs.run_append.mpr ⟨s₁, hr₁, Runs.run_append.mpr ⟨s₂, hr₂,
    Runs.run_append.mpr ⟨s₃, hr₃, Runs.run_append.mpr ⟨s₄, hr₄, hr₅⟩⟩⟩⟩, ?_, ?_⟩
  · simp [Story.removedSinceLast, hd₄, hd₃, hne]
  · simp [Story.timestamps, ha₄, ha₃, Ne.symm hne]

end Visit

def numbered (i : ℕ) : PublicKey := ⟨leBytes 32 i, leBytes_length 32 i⟩

theorem numbered_inj {i j : ℕ} (hi : i < 256 ^ 32) (hj : j < 256 ^ 32) (h : numbered i = numbered j) : i = j := by
  have hb := congrArg ofLeBytes (Subtype.ext_iff.mp h)
  simp only [numbered] at hb
  rwa [ofLeBytes_leBytes, ofLeBytes_leBytes, Nat.mod_eq_of_lt hi, Nat.mod_eq_of_lt hj] at hb

theorem initiation_accepted_twice : ∃ calls s key, Runs.run (Story.step .plain) ⟨Running.start 16, [], []⟩
    calls = some s ∧
    (s.removedSinceLast key).card < MAX_TOMBSTONES ∧ ¬ (s.timestamps key).Pairwise (· < ·) := by
  have hnodup : ((List.range' 0 4097).map numbered).Nodup := by
    refine (List.nodup_range' 1).map_on fun i hi j hj he => ?_
    exact numbered_inj ((List.mem_range'_1.mp hi).2.trans (by norm_num))
      ((List.mem_range'_1.mp hj).2.trans (by norm_num)) he
  have hstart : Resting ⟨Running.start 16, [], []⟩ 0 :=
    ⟨⟨⟨rfl, nofun, by decide⟩, fun _ => rfl, fun _ => rfl⟩, le_rfl⟩
  obtain ⟨calls, s, hrun, hsince, acc, hts⟩ := @exists_accepted_again _ (numbered 0) _ (numbered 1)
    ((List.range' 2 4095).map numbered) hstart rfl hnodup (by simp [MAX_TOMBSTONES])
  refine ⟨calls, s, numbered 0, hrun, by simp [hsince, MAX_TOMBSTONES], fun hpair => ?_⟩
  rw [hts, List.pairwise_append] at hpair
  exact absurd hpair.2.1 (by decide)

end PktKit.Wg
