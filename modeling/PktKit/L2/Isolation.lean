import PktKit.Foundations.Runs
import PktKit.L2.Hub

/-! # VLANs across switches

Switches joined port to port. A frame keeps the VLAN it came in on from switch to switch, except that
one of VLAN 0 is put in the native VLAN at the far end of a trunk.
-/

namespace PktKit.L2
open Foundations

variable {ι : Type} [DecidableEq ι]

/-! ## Networks -/

/-- A frame that left a hub, and the VLAN it was put in where it first came in. -/
structure Sent (ι : Type) where
  hub : ι
  port : PortId
  frame : Frame
  origin : ℕ

/-- Hubs, and which port is joined to which; the frames between hubs. For the properties of runs, all
frames that left a hub, and for each that went from one hub to the next the VLAN it was first put in
and the one there. -/
structure Network (ι : Type) where
  hubs : ι → L2Hub
  joint : ι × PortId → Option (ι × PortId)
  wire : List (Sent ι) := []
  left : List (Sent ι) := []
  crossed : List (ℕ × ℕ) := []

/-- A frame from a device comes in, or one from another hub; `depth` hops deep, and the clock is read
twice. -/
inductive Event (ι : Type)
  | arrive (hub : ι) (port : PortId) (frame : Frame) (depth : ℕ) (now now' : Instant)
  | cross (k : ℕ) (depth : ℕ) (now now' : Instant)

namespace Network

/-- A frame comes in by a port of a hub; `origin` is its VLAN if it has one already. -/
def takeIn (net : Network ι) (i : ι) (port : PortId) (f : Frame) (origin : Option ℕ) (depth : ℕ)
    (now now' : Instant) :
    Network ι :=
  match (net.hubs i).classify depth f port with
  | none => net
  | some (_, vlan) =>
    let (h, sent) := (net.hubs i).forward depth f port now now'
    let out := sent.map fun x => (⟨i, x.1, x.2, origin.getD vlan⟩ : Sent ι)
    { net with
      hubs := Function.update net.hubs i h
      wire := net.wire ++ out.filter fun x => (net.joint (x.hub, x.port)).isSome
      left := net.left ++ out
      crossed := net.crossed ++ (origin.map (·, vlan)).toList }

def step (net : Network ι) : Event ι → Option (Network ι)
  | .arrive i port f depth now now' => some (net.takeIn i port f none depth now now')
  | .cross k depth now now' =>
    match net.wire[k]? with
    | none => none
    | some x =>
      (net.joint (x.hub, x.port)).map fun far =>
        { net with wire := net.wire.eraseIdx k }.takeIn far.1 far.2 x.frame (some x.origin) depth now now'

def portAt (net : Network ι) (a : ι × PortId) : Option Port := (net.hubs a.1).ports.get a.2

def SameMode (net : Network ι) : Prop :=
  ∀ a b p q, net.joint a = some b → net.portAt a = some p → net.portAt b = some q → p.mode = q.mode

/-- Frames left only by ports that carry the VLAN they came in on, without a tag by an access port, and
were in that VLAN in every hub. -/
structure Isolated (net : Network ι) : Prop where
  left : ∀ x ∈ net.left, ∃ p, net.portAt (x.hub, x.port) = some p ∧ p.mode.Carries x.origin ∧
    ∀ v, p.mode = .access v → x.frame.hasVlan = false
  crossed : ∀ c ∈ net.crossed, c.2 = c.1

/-- No frame of VLAN 0 goes from one hub to the next by ports with another native VLAN. -/
def Keeps (net : Network ι) : Event ι → Prop
  | .arrive .. => True
  | .cross k depth _ _ => ∀ x ∈ net.wire[k]?, ∀ far ∈ net.joint (x.hub, x.port), ∀ q ∈ net.portAt far,
      depth < (net.hubs far.1).maxDepth → ¬ q.mode.Renames x.origin

instance (net : Network ι) : (e : Event ι) → Decidable (net.Keeps e)
  | .arrive .. => inferInstanceAs (Decidable True)
  | .cross k depth _ _ => inferInstanceAs (Decidable (∀ x ∈ net.wire[k]?, ∀ far ∈ net.joint (x.hub, x.port),
      ∀ q ∈ net.portAt far, depth < (net.hubs far.1).maxDepth → ¬ q.mode.Renames x.origin))

/-! ## What a frame does on its way -/

/-- Every frame between hubs looks as the port it left by asks for. -/
structure Sound (net : Network ι) : Prop extends Isolated net where
  same : net.SameMode
  wire : ∀ x ∈ net.wire, ∃ p action, net.portAt (x.hub, x.port) = some p ∧ p.mode.egress x.origin = some action ∧
    action.Shape x.frame ∧ 14 ≤ x.frame.length

theorem step_cross {net net' : Network ι} {k depth : ℕ} {now now' : Instant} :
    net.step (.cross k depth now now') = some net' ↔ ∃ x far, net.wire[k]? = some x ∧
      net.joint (x.hub, x.port) = some far ∧
      { net with wire := net.wire.eraseIdx k }.takeIn far.1 far.2 x.frame (some x.origin)
        depth now now' = net' := by
  rw [step]
  cases net.wire[k]? with
  | none => simp
  | some x => simp [Option.map_eq_some_iff]

variable {net net' : Network ι} {i : ι} {port : PortId} {f : Frame} {origin : Option ℕ} {depth : ℕ}
  {now now' : Instant}

theorem portAt_update {h : L2Hub} (hc : L2Hub.SameConfig (net.hubs i) h) (a : ι × PortId) :
    portAt { net with hubs := Function.update net.hubs i h } a = net.portAt a := by
  unfold portAt
  by_cases ha : a.1 = i
  · subst ha
    simp [hc.ports]
  · simp [Function.update_of_ne ha]

omit [DecidableEq ι] in
theorem carries_of_leaves {vlan : ℕ} {id : PortId} {out : Frame} (hl : (net.hubs i).Leaves vlan id out) :
    ∃ p, net.portAt (i, id) = some p ∧ p.mode.Carries vlan ∧ ∀ v, p.mode = .access v → out.hasVlan = false := by
  obtain ⟨p, action, hp, haction, hshape⟩ := hl.exists_port
  exact ⟨p, hp, PortMode.carries_of_egress haction, fun v hv => PortMode.untagged_of_access (hv ▸ haction) hshape⟩

/-- A frame that is put in the VLAN it came in on first, or comes in first, does no harm. -/
theorem Sound.takeIn (hs : net.Sound)
    (horigin : ∀ p vlan, (net.hubs i).classify depth f port = some (p, vlan) → ∀ o ∈ origin, vlan = o) :
    (net.takeIn i port f origin depth now now').Sound := by
  unfold Network.takeIn
  split
  · exact hs
  next p vlan hclass =>
  obtain ⟨hc, hl⟩ := @L2Hub.forward_leaves (net.hubs i) depth port f now now'
  generalize (net.hubs i).forward depth f port now now' = r at hc hl
  obtain ⟨h, sent⟩ := r
  have hvlan : origin.getD vlan = vlan := by
    cases horig : origin with
    | none => rfl
    | some o => exact (horigin p vlan hclass o horig).symm
  have hleaves : ∀ x ∈ sent, (net.hubs i).Leaves vlan x.1 x.2 := fun x hx => by
    obtain ⟨p', vlan', hclass', hx'⟩ := hl x hx
    obtain ⟨-, rfl⟩ := Prod.mk.inj (Option.some.inj (hclass.symm.trans hclass'))
    exact hx'
  have hport := @portAt_update _ _ net _ _ hc
  dsimp only
  rw [hvlan]
  refine ⟨⟨fun x hx => ?_, fun c hcross => ?_⟩, fun a b p q hab hp hq => ?_, fun x hx => ?_⟩
  · rcases List.mem_append.mp hx with hx | hx
    · obtain ⟨p, hp, hcarries⟩ := hs.left x hx
      exact ⟨p, (hport _).trans hp, hcarries⟩
    · obtain ⟨y, hy, rfl⟩ := List.mem_map.mp hx
      obtain ⟨p, hp, hcarries⟩ := carries_of_leaves (hleaves y hy)
      exact ⟨p, (hport _).trans hp, hcarries⟩
  · rcases List.mem_append.mp hcross with hcross | hcross
    · exact hs.crossed c hcross
    · obtain ⟨o, ho, rfl⟩ := by simpa using hcross
      exact horigin p vlan hclass o ho
  · exact hs.same a b p q hab ((hport a).symm.trans hp) ((hport b).symm.trans hq)
  · rcases List.mem_append.mp hx with hx | hx
    · obtain ⟨p, action, hp, hshape⟩ := hs.wire x hx
      exact ⟨p, action, (hport _).trans hp, hshape⟩
    · obtain ⟨y, hy, rfl⟩ := List.mem_map.mp (List.mem_of_mem_filter hx)
      obtain ⟨p, action, hp, haction, hshape⟩ := (hleaves y hy).exists_port
      exact ⟨p, action, (hport (i, y.1)).trans hp, haction, hshape, (hleaves y hy).length⟩

section Cross

variable {k : ℕ} {x : Sent ι} {far : ι × PortId}

omit [DecidableEq ι] in
/-- A frame that goes from one hub to the next is put in its VLAN there, or in none, unless it is
renamed. -/
theorem Sound.classify_cross (hs : net.Sound) (hx : net.wire[k]? = some x)
    (hfar : net.joint (x.hub, x.port) = some far)
    {q : Port} (hq : net.portAt far = some q) :
    (¬ q.mode.Renames x.origin → ∀ v, q.mode.ingressVlan x.frame.tag = some v → v = x.origin) ∧
    (q.mode.Renames x.origin → ∃ v, q.mode.ingressVlan x.frame.tag = some v ∧ v ≠ x.origin) := by
  obtain ⟨p, action, hp, haction, hshape, -⟩ := hs.wire x (List.mem_of_getElem? hx)
  rw [← hs.same _ far p q hfar hp hq]
  exact PortMode.ingressVlan_of_egress haction hshape

theorem Sound.step (hs : net.Sound) {e : Event ι} (hk : net.Keeps e) (h : net.step e = some net') :
    net'.Sound := by
  cases e with
  | arrive i port f depth now now' =>
    cases h
    exact hs.takeIn nofun
  | cross k depth now now' =>
    obtain ⟨x, far, hx, hfar, rfl⟩ := step_cross.mp h
    refine Sound.takeIn ⟨⟨hs.left, hs.crossed⟩, hs.same, fun y hy => hs.wire y (List.mem_of_mem_eraseIdx hy)⟩ ?_
    rintro q vlan hclass o ⟨⟩
    obtain ⟨hdepth, -, hq, hvlan⟩ := L2Hub.classify_eq_some.mp hclass
    exact (hs.classify_cross hx hfar hq).1 (hk x hx far hfar q hq hdepth) vlan hvlan

/-- A frame that is renamed is in another VLAN there. -/
theorem Sound.keeps_of_isolated (hs : net.Sound) {e : Event ι} (h : net.step e = some net') (hi : net'.Isolated) :
    net.Keeps e := by
  cases e with
  | arrive i port f depth now now' => trivial
  | cross k depth now now' =>
    obtain ⟨x, far, hx, hfar, rfl⟩ := step_cross.mp h
    intro x' hx' far' hfar' q hq hdepth hr
    obtain rfl := Option.some.inj (hx.symm.trans hx')
    obtain rfl := Option.some.inj (hfar.symm.trans hfar')
    obtain ⟨v, hv, hne⟩ := (hs.classify_cross hx hfar hq).2 hr
    obtain ⟨-, -, -, -, -, hlen⟩ := hs.wire x (List.mem_of_getElem? hx)
    have hclass : (net.hubs far.1).classify depth x.frame far.2 = some (q, v) :=
      L2Hub.classify_eq_some.mpr ⟨hdepth, hlen, hq, hv⟩
    refine hne (hi.crossed (x.origin, v) ?_)
    unfold Network.takeIn
    rw [show (net.hubs far.1).classify depth x.frame far.2 = _ from hclass]
    simp

end Cross

def start (hubs : ι → L2Hub) (joint : ι × PortId → Option (ι × PortId)) : Network ι := { hubs, joint }

end Network

/-- **VLANs are kept apart across switches**, in exactly the runs in which no frame of VLAN 0 goes over
a trunk with another native VLAN. -/
theorem isolated_iff_keeps (hubs : ι → L2Hub) (joint : ι × PortId → Option (ι × PortId))
    (hsame : (Network.start hubs joint).SameMode) (events : List (Event ι)) (net : Network ι)
    (hrun : Runs.run Network.step (Network.start hubs joint) events = some net) :
    (∀ es rest s, events = es ++ rest → Runs.run Network.step (Network.start hubs joint) es =
      some s → s.Isolated) ↔
      ∀ es e rest s, events = es ++ e :: rest → Runs.run Network.step (Network.start hubs joint) es =
        some s → s.Keeps e :=
  Runs.run_states_iff (I := Network.Sound) (fun _ hs => hs.toIsolated) (fun _ _ _ hs hk h => hs.step hk h)
    (fun _ _ _ hs h hi => hs.keeps_of_isolated h hi) hrun ⟨⟨nofun, nofun⟩, hsame, nofun⟩

/-! ## A trunk with a native VLAN -/

/-- Two switches joined by a trunk with native VLAN 10; a device without a VLAN on one, an access port
of VLAN 10 on the other. -/
def twoHubs : Bool → L2Hub
  | false => { ports := { list := [{ id := 1 }, { id := 2, mode := .trunk .all (some 10) }] } }
  | true => { ports := { list := [{ id := 3, mode := .trunk .all (some 10) }, { id := 4, mode := .access 10 }] } }

def twoJoint (a : Bool × PortId) : Option (Bool × PortId) :=
  if a = (false, 2) then some (true, 3) else if a = (true, 3) then some (false, 2) else none

def broadcast : Frame := List.replicate 6 0xff ++ [2, 0, 0, 0, 0, 1] ++ [8, 0] ++ List.replicate 4 0

theorem twoHubs_sameMode : (Network.start twoHubs twoJoint).SameMode := by
  intro a b p q hab hp hq
  simp only [Network.start, twoJoint] at hab
  split at hab
  · next ha =>
    subst ha
    cases hab
    cases hp
    cases hq
    rfl
  split at hab
  · next ha =>
    subst ha
    cases hab
    cases hp
    cases hq
    rfl
  · cases hab

/-- A frame of no VLAN comes out of the access port of VLAN 10. -/
theorem untagged_reaches_access : ∃ net, Runs.run Network.step (Network.start twoHubs twoJoint)
      [.arrive false 1 broadcast 0 0 0, .cross 0 1 0 0] = some net ∧
    (∃ x ∈ net.left, x.hub = true ∧ x.port = 4 ∧ x.origin = 0) ∧ ¬ net.Isolated := by
  refine Runs.exists_of_any (P := fun net => net.crossed = [(0, 10)] ∧
    ∃ x ∈ net.left, x.hub = true ∧ x.port = 4 ∧ x.origin = 0) (by decide +kernel) ?_
  rintro net hnet ⟨hcrossed, hleft⟩
  refine ⟨hleft, fun hi => ?_⟩
  have h10 := hi.crossed (0, 10) (by simp [hcrossed])
  cases h10

/-- A frame of VLAN 10 keeps to it. -/
theorem isolated_iff_keeps_tagged : ∃ net, Runs.run Network.step (Network.start twoHubs twoJoint)
      [.arrive false 1 (pushVlan broadcast 10 0) 0 0 0, .cross 0 1 0 0] = some net ∧
    (∃ x ∈ net.left, x.hub = true ∧ x.port = 4 ∧ x.origin = 10) ∧ net.Isolated := by
  refine Runs.exists_of_any (P := fun net => ∃ x ∈ net.left, x.hub = true ∧ x.port = 4 ∧ x.origin = 10)
    (by decide +kernel) fun net hnet hleft => ⟨hleft, ?_⟩
  have hkeeps := (isolated_iff_keeps twoHubs twoJoint twoHubs_sameMode _ net hnet).mpr
    (Runs.along_sound (by decide +kernel))
  exact hkeeps _ [] net (List.append_nil _).symm hnet

end PktKit.L2
