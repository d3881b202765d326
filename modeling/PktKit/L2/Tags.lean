import PktKit.Packet

/-! # VLAN tags

Ethernet frames with and without an 802.1Q tag, and the modes of a port: which VLAN a frame belongs to
when it comes in, and whether it leaves with a tag, without one or not at all.
-/

namespace PktKit
open Foundations

/-! ## Frames -/

abbrev Frame := List UInt8

def ETHERTYPE_VLAN : ℕ := 0x8100

namespace Frame

def rawEtherType (f : Frame) : ℕ := Packet.be16 f 12

def hasVlan (f : Frame) : Bool := decide (18 ≤ f.length) && f.rawEtherType == ETHERTYPE_VLAN

def vlanId (f : Frame) : ℕ := if !f.hasVlan then 0 else Packet.be16 f 14 % 4096

/-- The priority, the upper three bits of the tag. -/
def vlanPcp (f : Frame) : ℕ := if !f.hasVlan then 0 else (f.getD 14 0).toNat / 32

end Frame

/-- Insert a tag, unless there is one. -/
def pushVlan (f : Frame) (vid pcp : ℕ) : Frame :=
  if f.length < 14 || f.hasVlan then f
  else
    let tci := pcp % 8 * 8192 + vid % 4096
    f.take 12 ++ be16Bytes ETHERTYPE_VLAN ++ be16Bytes tci ++ f.drop 12

def popVlan (f : Frame) : Frame := if !f.hasVlan then f else f.take 12 ++ f.drop 16

section Frames

variable {f : Frame} {vid pcp : ℕ}

theorem length_ge_of_hasVlan (h : f.hasVlan = true) : 18 ≤ f.length := by
  simp only [Frame.hasVlan, Bool.and_eq_true, decide_eq_true_eq] at h
  exact h.1

theorem length_popVlan (h : 14 ≤ f.length) : 14 ≤ (popVlan f).length := by
  unfold popVlan
  split
  · exact h
  · next hv =>
    have := length_ge_of_hasVlan (by simpa using hv : f.hasVlan = true)
    simp only [List.length_append, List.length_take, List.length_drop]
    omega

theorem vlanId_lt : f.vlanId < 4096 := by
  unfold Frame.vlanId
  split <;> omega

theorem pushVlan_tag (hl : 14 ≤ f.length) (hv : f.hasVlan = false) :
    (pushVlan f vid pcp).hasVlan = true ∧ (pushVlan f vid pcp).vlanId = vid % 4096 := by
  have htake : (f.take 12).length = 12 := by
    rw [List.length_take]
    omega
  have heq : pushVlan f vid pcp = f.take 12 ++ (be16Bytes ETHERTYPE_VLAN ++
      (be16Bytes (pcp % 8 * 8192 + vid % 4096) ++ f.drop 12)) := by
    rw [pushVlan, if_neg (by simp [hv, hl])]
    simp only [List.append_assoc]
  have hlen : 18 ≤ (pushVlan f vid pcp).length := by
    rw [heq]
    simp only [List.length_append, htake, length_be16Bytes, List.length_drop]
    omega
  have htype : (pushVlan f vid pcp).rawEtherType = ETHERTYPE_VLAN := by
    rw [heq]
    exact be16_be16Bytes htake (by decide)
  have htag : (pushVlan f vid pcp).hasVlan = true := by simp [Frame.hasVlan, hlen, htype]
  refine ⟨htag, ?_⟩
  rw [Frame.vlanId, htag, heq, ← List.append_assoc]
  refine (congrArg (· % 4096) (be16_be16Bytes ?_ ?_)).trans ?_
  · rw [List.length_append, htake, length_be16Bytes]
  · omega
  · omega

end Frames

/-! ## Sets of VLANs -/

inductive VlanSet
  | all
  | bits (b : Fin 64 → BitVec 64)

namespace VlanSet

def contains (s : VlanSet) (vlan : ℕ) : Bool :=
  if vlan > 4095 then false
  else
    match s with
    | .all => true
    | .bits b => (b (Fin.ofNat 64 (vlan / 64))).getLsbD (vlan % 64)

variable {s : VlanSet} {v w : ℕ}

theorem le_of_contains (h : s.contains v = true) : v ≤ 4095 := by
  unfold contains at h
  split at h
  · cases h
  · omega

end VlanSet

/-! ## Port modes -/

/-- How a port treats tags: it belongs to one VLAN, or carries several. -/
inductive PortMode
  | access (vlan : ℕ)
  | trunk (allowed : VlanSet) (native : Option ℕ)

/-- What a frame's tag should look like when it leaves. -/
inductive TagAction
  | untagged
  | tagged (vlan : ℕ)

def TagAction.Shape : TagAction → Frame → Prop
  | .untagged, f => f.hasVlan = false
  | .tagged vlan, f => f.hasVlan = true ∧ f.vlanId = vlan % 4096

namespace PortMode

/-- Every VLAN passes; untagged frames are of VLAN 0. -/
def transparent : PortMode := .trunk .all (some 0)

/-- The VLAN of a frame that comes in with this tag. A tag with VLAN 0 carries a priority only. -/
def ingressVlan (m : PortMode) (tagged : Option ℕ) : Option ℕ :=
  match m, tagged.filter (· != 0) with
  | .access vlan, none => some vlan
  | .access _, some _ => none
  | .trunk allowed _, some t => if allowed.contains t then some t else none
  | .trunk allowed native, none => native.filter allowed.contains

def egress (m : PortMode) (vlan : ℕ) : Option TagAction :=
  match m with
  | .access v => if v = vlan then some .untagged else none
  | .trunk allowed native =>
    if !allowed.contains vlan then none
    else if native = some vlan then some .untagged
    else some (.tagged vlan)

def Carries (m : PortMode) (vlan : ℕ) : Prop :=
  match m with
  | .access v => v = vlan
  | .trunk allowed _ => allowed.contains vlan = true

end PortMode

/-! ## On the way out -/

/-- The forms of a frame needed on the way out, each built once. -/
structure Egress where
  original : Frame
  pcp : ℕ
  untagged : Option Frame := none
  tagged : Option (ℕ × Frame) := none

namespace Egress

def new (original : Frame) : Egress where
  original := original
  pcp := original.vlanPcp

/-- The frame without its tag, unless there is another one under it. -/
def applyUntagged (e : Egress) : Egress × Option Frame :=
  if !e.original.hasVlan then (e, some e.original)
  else
    let buf := e.untagged.getD (popVlan e.original)
    ({ e with untagged := some buf }, if buf.hasVlan then none else some buf)

def base (e : Egress) : Frame := if e.original.hasVlan then popVlan e.original else e.original

/-- Tag the untagged form, so that the tag replaces another; not if there is one under it. -/
def buildTagged (e : Egress) (vlan : ℕ) : Egress × Option Frame :=
  if e.base.hasVlan then (e, none)
  else
    let out := pushVlan e.base vlan e.pcp
    ({ e with tagged := some (vlan, out) }, some out)

def applyTagged (e : Egress) (vlan : ℕ) : Egress × Option Frame :=
  if e.original.hasVlan && e.original.vlanId == vlan then (e, some e.original)
  else
    match e.tagged with
    | some (v, buf) => if v = vlan then (e, some buf) else e.buildTagged vlan
    | none => e.buildTagged vlan

def apply (e : Egress) : TagAction → Egress × Option Frame
  | .untagged => e.applyUntagged
  | .tagged vlan => e.applyTagged vlan

/-- What was built before is the form of the original. -/
structure Built (e : Egress) : Prop where
  length : 14 ≤ e.original.length
  untagged : ∀ buf, e.untagged = some buf → buf = popVlan e.original
  tagged : ∀ vlan buf, e.tagged = some (vlan, buf) → TagAction.Shape (.tagged vlan) buf

variable {e : Egress} {vlan : ℕ} {out : Frame}

theorem built_new {f : Frame} (h : 14 ≤ f.length) : (new f).Built := ⟨h, nofun, nofun⟩

theorem Built.applyUntagged (h : e.Built) : e.applyUntagged.1.Built ∧
    ∀ out, e.applyUntagged.2 = some out → TagAction.untagged.Shape out ∧ 14 ≤ out.length := by
  unfold Egress.applyUntagged
  split
  · next hv =>
    refine ⟨h, ?_⟩
    rintro _ ⟨⟩
    exact ⟨(Bool.not_eq_true' _).mp hv, h.length⟩
  · have hbuf : e.untagged.getD (popVlan e.original) = popVlan e.original := by
      cases hu : e.untagged with
      | none => rfl
      | some buf => exact h.untagged buf hu
    rw [hbuf]
    refine ⟨⟨h.length, fun _ he => (Option.some.inj he).symm, h.tagged⟩, fun out hout => ?_⟩
    simp only [Option.ite_none_left_eq_some, Option.some.injEq] at hout
    obtain ⟨hv, rfl⟩ := hout
    exact ⟨(Bool.not_eq_true _).mp hv, length_popVlan h.length⟩

theorem Built.buildTagged (h : e.Built) : (e.buildTagged vlan).1.Built ∧
    ∀ out, (e.buildTagged vlan).2 = some out → (TagAction.tagged vlan).Shape out := by
  have hbase : 14 ≤ e.base.length := by
    unfold base
    split
    · exact length_popVlan h.length
    · exact h.length
  unfold Egress.buildTagged
  split
  · exact ⟨h, nofun⟩
  · next hv =>
    have htag := @pushVlan_tag _ vlan e.pcp hbase ((Bool.not_eq_true _).mp hv)
    refine ⟨⟨h.length, h.untagged, ?_⟩, ?_⟩
    · rintro _ _ ⟨⟩
      exact htag
    · rintro _ ⟨⟩
      exact htag

theorem Built.applyTagged (h : e.Built) : (e.applyTagged vlan).1.Built ∧
    ∀ out, (e.applyTagged vlan).2 = some out → (TagAction.tagged vlan).Shape out := by
  unfold Egress.applyTagged
  split
  · next hv =>
    simp only [Bool.and_eq_true, beq_iff_eq] at hv
    refine ⟨h, ?_⟩
    rintro _ ⟨⟩
    exact ⟨hv.1, by rw [← hv.2, Nat.mod_eq_of_lt vlanId_lt]⟩
  · split
    · next v buf hbuf =>
      split
      · next he =>
        subst he
        refine ⟨h, ?_⟩
        rintro _ ⟨⟩
        exact h.tagged v buf hbuf
      · exact h.buildTagged
    · exact h.buildTagged

theorem Built.apply (h : e.Built) (action : TagAction) : (e.apply action).1.Built ∧
    ∀ out, (e.apply action).2 = some out → action.Shape out ∧ 14 ≤ out.length := by
  cases action with
  | untagged => exact h.applyUntagged
  | tagged vlan =>
    refine ⟨h.applyTagged.1, fun out hout => ?_⟩
    have hs := h.applyTagged.2 out hout
    exact ⟨hs, by have := length_ge_of_hasVlan hs.1; omega⟩

end Egress

/-! ## From port to port -/

def Frame.tag (f : Frame) : Option ℕ := if f.hasVlan then some f.vlanId else none

/-- A frame of VLAN 0 goes out with the tag of no VLAN, and comes in on the native VLAN. -/
def PortMode.Renames (m : PortMode) (vlan : ℕ) : Prop :=
  match m with
  | .access _ => False
  | .trunk allowed native => vlan = 0 ∧ native ≠ some 0 ∧ (native.filter allowed.contains).isSome

instance : (m : PortMode) → (vlan : ℕ) → Decidable (m.Renames vlan)
  | .access _, _ => inferInstanceAs (Decidable False)
  | .trunk allowed native, vlan =>
    inferInstanceAs (Decidable (vlan = 0 ∧ native ≠ some 0 ∧ (native.filter allowed.contains).isSome))

namespace PortMode

variable {m : PortMode} {vlan : ℕ} {action : TagAction} {f : Frame}

theorem carries_of_egress (h : m.egress vlan = some action) : m.Carries vlan := by
  cases m with
  | access v => exact (Option.ite_none_right_eq_some.mp h).1
  | trunk allowed native =>
    simp only [egress, Option.ite_none_left_eq_some, Bool.not_eq_true', Bool.not_eq_false] at h
    exact h.1

theorem untagged_of_access {v : ℕ} (h : (access v).egress vlan = some action) (hf : action.Shape f) :
    f.hasVlan = false := by
  obtain ⟨-, ⟨⟩⟩ := Option.ite_none_right_eq_some.mp h
  exact hf

theorem ingressVlan_untagged (hf : f.hasVlan = false) : (m.ingressVlan f.tag) =
    match m with
    | .access v => some v
    | .trunk allowed native => native.filter allowed.contains := by
  rw [Frame.tag, if_neg (by simp [hf])]
  cases m <;> rfl

theorem ingressVlan_tagged {allowed : VlanSet} {native : Option ℕ} (hf : f.hasVlan = true) :
    (trunk allowed native).ingressVlan f.tag =
      if f.vlanId = 0 then native.filter allowed.contains
      else if allowed.contains f.vlanId then some f.vlanId else none := by
  rw [Frame.tag, if_pos hf]
  by_cases h0 : f.vlanId = 0 <;> simp [ingressVlan, Option.filter, h0]

/-- **Out of a port and into one of the same mode**: the VLAN is the same, or the frame is dropped,
unless the mode renames it. -/
theorem ingressVlan_of_egress (h : m.egress vlan = some action) (hf : action.Shape f) :
    (¬ m.Renames vlan → ∀ v, m.ingressVlan f.tag = some v → v = vlan) ∧
    (m.Renames vlan → ∃ v, m.ingressVlan f.tag = some v ∧ v ≠ vlan) := by
  cases m with
  | access v =>
    obtain ⟨rfl, ⟨⟩⟩ := Option.ite_none_right_eq_some.mp h
    rw [ingressVlan_untagged hf]
    exact ⟨fun _ _ he => (Option.some.inj he).symm, False.elim⟩
  | trunk allowed native =>
    simp only [egress, Option.ite_none_left_eq_some, Bool.not_eq_true', Bool.not_eq_false] at h
    obtain ⟨hallowed, h⟩ := h
    split at h
    · next hnative =>
      cases h
      rw [ingressVlan_untagged hf]
      simp only [hnative, Option.filter_some, hallowed, if_true, Option.some.injEq]
      exact ⟨fun _ _ he => he.symm, fun hr => (hr.2.1 (congrArg some hr.1)).elim⟩
    · next hnative =>
      cases h
      rw [ingressVlan_tagged hf.1, hf.2, Nat.mod_eq_of_lt (Nat.lt_succ_of_le (VlanSet.le_of_contains hallowed))]
      by_cases h0 : vlan = 0
      · subst h0
        rw [if_pos rfl]
        refine ⟨fun hno v hv => (hno ⟨rfl, hnative, Option.isSome_of_eq_some hv⟩).elim, fun hr => ?_⟩
        obtain ⟨v, hv⟩ := Option.isSome_iff_exists.mp hr.2.2
        exact ⟨v, hv, fun he => hnative (he ▸ (Option.filter_eq_some_iff.mp hv).1)⟩
      · rw [if_neg h0, if_pos hallowed]
        exact ⟨fun _ _ he => (Option.some.inj he).symm, fun hr => (h0 hr.1).elim⟩

end PortMode

end PktKit
