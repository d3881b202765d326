import PktKit.Foundations.Runs
import PktKit.Nat44.Buffers

/-! # How far apart the fragments of a datagram arrive

The reassembler beside a record of when each fragment it holds arrived. Lapsed datagrams
go when a fragment of a new one arrives, but a fragment of a lapsed one still joins it:
the fragments of a datagram put together lie within the timeout exactly if it had not
lapsed when its last fragment came.
-/

namespace PktKit.Nat44
open Foundations

namespace Defragger

variable {d d' : Defragger} {zone : ℕ} {p : Packet} {now : Instant} {k : FragKey} {f : FragData}

def Among (d' d : Defragger) : Prop := ∀ k e, d'.entries.lookup k = some e → d.entries.lookup k = some e

theorem Among.trans {d'' : Defragger} (h : Among d'' d') (h' : Among d' d) : Among d'' d :=
  fun k e he => h' k e (h k e he)

theorem complete_eq_some {r : Packet} {m : FragMax} (h : (d.complete k).1 = some (r, some m)) :
    ∃ e total hdr ecn, d.entries.lookup k = some e ∧ e.frags.findSome? (·.hdr) = some hdr ∧
      r = rebuild hdr (e.join total) m.df ecn := by
  rw [complete] at h
  split at h
  · cases h
  · rename_i e he
    split at h
    · cases h
    · rename_i total htotal
      split at h
      · cases h
      · split at h
        · cases h
        · rename_i hdr hhdr
          simp only at h
          split at h
          · cases h
          · rename_i ecn hecn
            split at h
            · cases h
            · simp only [Option.some.injEq, Prod.mk.injEq] at h
              obtain ⟨rfl, rfl⟩ := h
              exact ⟨e, total, hdr, ecn, he, hhdr, rfl⟩

def joined (d : Defragger) (k : FragKey) (now : Instant) : FragEntry :=
  ((d.admitEntry k now).entries.lookup k).getD { created := now }

theorem accept_cases (d : Defragger) (k : FragKey) (f : FragData) (mf df : Bool) (totalLen : ℕ) (tos : UInt8)
    (now : Instant) :
    let out := d.accept k f mf df totalLen tos now
    (Among out.2 d ∧ out.2.entries.lookup k = none ∧ out.1 = none) ∨
      ∃ e, e.created = (d.joined k now).created ∧ e.frags.Perm (f :: (d.joined k now).frags) ∧
        (∀ k' e', out.2.entries.lookup k' = some e' →
          if k' = k then e' = e else d.entries.lookup k' = some e') ∧
        ∀ r m, out.1 = some (r, some m) →
          ∃ total hdr ecn, e.frags.findSome? (·.hdr) = some hdr ∧ r = rebuild hdr (e.join total) m.df ecn := by
  intro out
  have hadm : Among (d.admitEntry k now) d := (prunes_admitEntry d k now).lookup
  cases hend : (d.joined k now).noteEnd mf f.stop with
  | none =>
    have hout : out = (none, (d.admitEntry k now).dropEntry k) := by
      simp only [out, accept, show ((d.admitEntry k now).entries.lookup k).getD _ = d.joined k now from rfl, hend]
    exact .inl ⟨hout ▸ Among.trans (prunes_dropEntry _ k).lookup hadm, hout ▸ by rw [lookup_dropEntry, if_pos rfl], hout ▸ rfl⟩
  | some e =>
    by_cases hbad : e.pastEnd f.stop = true ∨ (e.overlaps f ∨ DEFRAG_MAX_FRAGS ≤ e.frags.length)
    · have hout : out = (none, (d.admitEntry k now).dropEntry k) := by
        simp only [out, accept, show ((d.admitEntry k now).entries.lookup k).getD _ =
          d.joined k now from rfl, hend]
        grind
      exact .inl ⟨hout ▸ Among.trans (prunes_dropEntry _ k).lookup hadm, hout ▸ by rw [lookup_dropEntry, if_pos rfl], hout ▸ rfl⟩
    · obtain ⟨hcreated, hfrags, -⟩ := FragEntry.noteEnd_frags hend
      have hperm := FragEntry.frags_insert_perm e f totalLen df tos
      rw [hfrags] at hperm
      set e' := e.insert f totalLen df tos with he'
      set d₁ : Defragger :=
        { entries := (d.admitEntry k now).entries.insert k e', charge := (d.admitEntry k now).charge + f.charge }
        with hd₁
      have hout : out = if (d₁.makeRoom k (d₁.entries.entries.length + 1)).1 then
          (d₁.makeRoom k (d₁.entries.entries.length + 1)).2.complete k
          else (none, (d₁.makeRoom k (d₁.entries.entries.length + 1)).2) := by
        simp only [out, accept, show ((d.admitEntry k now).entries.lookup k).getD _ =
          d.joined k now from rfl, hend,
          if_neg (fun h => hbad (.inl h)), if_neg (fun h => hbad (.inr h))]
        rcases d₁.makeRoom k (d₁.entries.entries.length + 1) with ⟨_ | _, d₂⟩ <;> rfl
      have hroom := (prunes_makeRoom d₁ k (d₁.entries.entries.length + 1)).lookup
      have hlook : ∀ k' e'', d₁.entries.lookup k' = some e'' →
          if k' = k then e'' = e' else d.entries.lookup k' = some e'' := by
        intro k' e'' h
        rw [hd₁, Table.lookup_insert_eq] at h
        split at h
        · rename_i hk
          rw [if_pos hk]
          exact (Option.some.inj h).symm
        · rename_i hk
          rw [if_neg hk]
          exact hadm k' e'' h
      refine .inr ⟨e', hcreated, hperm, ?_, ?_⟩
      · intro k' e'' h
        rw [hout] at h
        rcases hmk : d₁.makeRoom k (d₁.entries.entries.length + 1) with ⟨_ | _, d₂⟩ <;>
          rw [hmk] at hroom h
        · exact hlook k' e'' (hroom k' e'' h)
        · exact hlook k' e'' (hroom k' e'' ((prunes_complete d₂ k).lookup k' e'' h))
      · intro r m h
        rw [hout] at h
        rcases hmk : d₁.makeRoom k (d₁.entries.entries.length + 1) with ⟨_ | _, d₂⟩ <;>
          rw [hmk] at hroom h
        · cases h
        · obtain ⟨e'', total, hdr, ecn, hlk, hhdr, hr⟩ := complete_eq_some h
          have hsame := hlook k e'' (hroom k e'' hlk)
          rw [if_pos rfl] at hsame
          subst hsame
          exact ⟨total, hdr, ecn, hhdr, hr⟩

end Defragger

/-- The reassembler, and when each fragment held arrived. -/
structure Timed where
  d : Defragger := {}
  held : FragKey → List (FragData × Instant) := fun _ => []
  clock : Instant := 0

namespace Timed

inductive Event where
  | packet (zone : ℕ) (p : Packet) (now : Instant)
  | sweep (now : Instant)

/-- A fragment with those of its datagram that are held, as they arrived. -/
def parts (t : Timed) (k : FragKey) (f : FragData) (now : Instant) : List (FragData × Instant) :=
  (if (t.d.entries.lookup k).isSome then t.held k else []) ++ [(f, now)]

def step (t : Timed) : Event → Option Timed
  | .packet zone p now =>
    if now < t.clock then none
    else some
      { d := (t.d.reassembleAt zone p now).2
        held := match fragmentOf zone p with
          | none => t.held
          | some (k, f) => Function.update t.held k (t.parts k f now)
        clock := now }
  | .sweep now => if now < t.clock then none else some { t with d := t.d.expire now, clock := now }

/-- The record of a datagram: its fragments, the first of which arrived when it was created. -/
structure Records (e : FragEntry) (xs : List (FragData × Instant)) (clock : Instant) : Prop where
  frags : (xs.map Prod.fst).Perm e.frags
  first : ∃ x ∈ xs, x.2 = e.created
  times : ∀ x ∈ xs, e.created ≤ x.2 ∧ x.2 ≤ clock

def Inv (t : Timed) : Prop := ∀ k e, t.d.entries.lookup k = some e → Records e (t.held k) t.clock

variable {t t' : Timed} {zone : ℕ} {p : Packet} {now : Instant} {k : FragKey} {f : FragData} {ev : Event}

theorem Records.later {e : FragEntry} {xs : List (FragData × Instant)} {clock clock' : Instant}
    (h : Records e xs clock) (hle : clock ≤ clock') : Records e xs clock' :=
  ⟨h.frags, h.first, fun x hx => ⟨(h.times x hx).1, (h.times x hx).2.trans hle⟩⟩

/-- What a fragment joins is what is held of its datagram, or nothing. -/
theorem joined_eq (d : Defragger) (k : FragKey) (now : Instant) :
    d.joined k now = (d.entries.lookup k).getD { created := now } := by
  rw [Defragger.joined]
  cases h : d.entries.lookup k with
  | some e =>
    rw [Defragger.admitEntry, if_pos (by rw [h]; rfl), h]
  | none =>
    cases h' : (d.admitEntry k now).entries.lookup k with
    | none => rfl
    | some e =>
      have hin := (Defragger.prunes_admitEntry d k now).lookup k e h'
      rw [h] at hin
      cases hin

theorem records_parts (h : Inv t) (hnow : t.clock ≤ now) {e : FragEntry}
    (hcreated : e.created = (t.d.joined k now).created)
    (hfrags : e.frags.Perm (f :: (t.d.joined k now).frags)) : Records e (t.parts k f now) now := by
  rw [joined_eq] at hcreated hfrags
  cases hk : t.d.entries.lookup k with
  | none =>
    rw [hk] at hcreated hfrags
    simp only [Option.getD_none] at hcreated hfrags
    have hparts : t.parts k f now = [(f, now)] := by simp [parts, hk]
    rw [hparts]
    exact ⟨hfrags.symm, ⟨_, List.mem_singleton_self _, hcreated.symm⟩, fun x hx => by
      obtain rfl := List.mem_singleton.mp hx
      exact ⟨hcreated.le, le_rfl⟩⟩
  | some e₀ =>
    rw [hk] at hcreated hfrags
    simp only [Option.getD_some] at hcreated hfrags
    have hparts : t.parts k f now = t.held k ++ [(f, now)] := by simp [parts, hk]
    have hold := h k e₀ hk
    rw [hparts]
    refine ⟨?_, ?_, ?_⟩
    · rw [List.map_append]
      exact (List.perm_append_singleton f _).trans ((hold.frags.cons f).trans hfrags.symm)
    · obtain ⟨x, hx, hxe⟩ := hold.first
      exact ⟨x, List.mem_append_left _ hx, hxe.trans hcreated.symm⟩
    · intro x hx
      rcases List.mem_append.mp hx with hx | hx
      · have hx' := hold.times x hx
        exact ⟨hcreated ▸ hx'.1, hx'.2.trans hnow⟩
      · obtain rfl := List.mem_singleton.mp hx
        obtain ⟨y, hy, hye⟩ := hold.first
        have hy' := hold.times y hy
        refine ⟨?_, le_rfl⟩
        rw [hcreated, ← hye]
        exact hy'.2.trans hnow

theorem inv_step (h : Inv t) (hstep : t.step ev = some t') : Inv t' := by
  cases ev with
  | sweep now =>
    rw [step] at hstep
    split at hstep
    · cases hstep
    · rename_i hnow
      obtain rfl := Option.some.inj hstep
      exact fun k e he => (h k e ((Defragger.prunes_expire t.d now).lookup k e he)).later (Nat.le_of_not_lt hnow)
  | packet zone p now =>
    rw [step] at hstep
    split at hstep
    · cases hstep
    · rename_i hnow
      have hle := Nat.le_of_not_lt hnow
      obtain rfl := Option.some.inj hstep
      intro k' e' he'
      cases hf : fragmentOf zone p with
      | none =>
        simp only [(Defragger.reassembleAt_of_none hf).1] at he' ⊢
        exact (h k' e' he').later hle
      | some x =>
        obtain ⟨k, f⟩ := x
        simp only [Defragger.reassembleAt_of_some hf] at he' ⊢
        rcases Defragger.accept_cases t.d k f p.ipv4MoreFragments p.ipv4DontFragment p.ipv4TotalLen (p.byte 1) now
          with ⟨hamong, hgone, -⟩ | ⟨e, hcreated, hfrags, hlook, -⟩
        · have hk : k' ≠ k := by
            rintro rfl
            rw [hgone] at he'
            cases he'
          rw [Function.update_of_ne hk]
          exact (h k' e' (hamong k' e' he')).later hle
        · have hsame := hlook k' e' he'
          split at hsame
          · rename_i hk
            subst hk hsame
            rw [Function.update_self]
            exact records_parts h hle hcreated hfrags
          · rename_i hk
            rw [Function.update_of_ne hk]
            exact (h k' e' hsame).later hle

/-- The first and the last eight bytes of data of a datagram from 10.0.0.1 to 10.0.0.2. -/
def half (last : Bool) : Packet :=
  [0x45, 0, 0, 28, 0, 7, if last then 0 else 0x20, if last then 1 else 0, 0x40, 0x11, 0, 0, 10, 0, 0,
    1, 10, 0, 0, 2] ++
    List.replicate 8 7

end Timed

end PktKit.Nat44
