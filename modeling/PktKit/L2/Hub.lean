import PktKit.Foundations.Tables
import PktKit.L2.Tags
import PktKit.Time

/-! # The learning switch

Ports, the addresses learned on them, and the way of a frame through the switch: the VLAN its port
puts it in, learning its source, and the ports it leaves by.
-/

namespace PktKit.L2
open Foundations

def MAC_AGING : Duration := .fromSecs (5 * 60)
def MAC_TABLE_MAX_SIZE : ℕ := 8192
def DEFAULT_PORT_MAC_LIMIT : ℕ := 1024
def DEFAULT_MAX_FORWARD_DEPTH : ℕ := 16

abbrev PortId := ℕ

/-- A connected device, by its id, and the policy applied to it. -/
structure Port where
  id : PortId
  macLimit : Option ℕ := some DEFAULT_PORT_MAC_LIMIT
  mode : PortMode := .transparent
  secure : Bool := false

/-- The connected ports. Ids come from a counter, so there is one port for an id. -/
structure PortTable where
  list : List Port := []
  nodup : (list.map Port.id).Nodup := by decide

def PortTable.get (t : PortTable) (id : PortId) : Option Port := t.list.find? (·.id == id)

theorem PortTable.get_id {t : PortTable} {p : Port} (hp : p ∈ t.list) : t.get p.id = some p := by
  unfold get
  cases hq : t.list.find? (·.id == p.id) with
  | none => exact absurd (beq_self_eq_true p.id) (List.find?_eq_none.mp hq p hp)
  | some q =>
    have hid : q.id = p.id := by simpa using List.find?_some hq
    exact congrArg some (List.inj_on_of_nodup_map t.nodup (List.mem_of_find?_eq_some hq) hp hid)

theorem PortTable.id_of_get {t : PortTable} {p : Port} {id : PortId} (h : t.get id = some p) : p.id = id := by
  simpa using List.find?_some h

structure MacEntry where
  portId : PortId
  expires : Instant

abbrev MacKey := ℕ × List UInt8

/-! ## Addresses learned -/

/-- The addresses learned, and how many on each port. -/
structure MacTable where
  entries : Table MacKey MacEntry := ∅
  perPort : Table PortId ℕ := ∅
  pruneAfter : Option Instant := none

def decrement (counts : Table PortId ℕ) (id : PortId) : Table PortId ℕ :=
  match counts.lookup id with
  | some n => if n - 1 = 0 then counts.erase id else counts.insert id (n - 1)
  | none => counts

def increment (counts : Table PortId ℕ) (id : PortId) : Table PortId ℕ :=
  counts.insert id ((counts.lookup id).getD 0 + 1)

namespace MacTable

def insert (t : MacTable) (key : MacKey) (entry : MacEntry) : MacTable :=
  let perPort := match t.entries.lookup key with
    | some old => decrement t.perPort old.portId
    | none => t.perPort
  { t with entries := t.entries.insert key entry, perPort := increment perPort entry.portId }

def remove (t : MacTable) (key : MacKey) : MacTable :=
  match t.entries.lookup key with
  | some old => { t with entries := t.entries.erase key, perPort := decrement t.perPort old.portId }
  | none => t

def purgePort (t : MacTable) (id : PortId) : MacTable :=
  { t with entries := t.entries.retain fun _ e => e.portId != id, perPort := t.perPort.erase id }

def portCount (t : MacTable) (id : PortId) : ℕ := (t.perPort.lookup id).getD 0

/-- Drop what has expired, and count anew; not before something can have. -/
def pruneExpired (t : MacTable) (now : Instant) : MacTable :=
  if t.pruneAfter.any (decide <| now < ·) then t
  else
    let entries := t.entries.retain fun _ e => decide (now < e.expires)
    { entries := entries
      perPort := entries.values.foldl (fun counts e => increment counts e.portId) ∅
      pruneAfter := (entries.values.map (·.expires)).min? }

end MacTable

/-! ## The switch -/

structure L2Hub where
  ports : PortTable := {}
  macTable : MacTable := {}
  maxDepth : ℕ := DEFAULT_MAX_FORWARD_DEPTH

inductive Dest
  | port (p : Port)
  | ingress
  | unknown

namespace L2Hub

def held (h : L2Hub) (source : Port) (now : Instant) (e : MacEntry) : Bool :=
  e.portId != source.id && decide (now < e.expires) && (h.ports.get e.portId).any (·.secure)

/-- The address was learned on the port, not too long ago. -/
def fresh (source : Port) (now : Instant) (e : MacEntry) : Bool :=
  e.portId == source.id && decide (MAC_AGING / 2 < e.expires - now)

/-- The address is new to the port and there is no room for it. -/
def full (t : MacTable) (known : Option PortId) (source : Port) : Bool :=
  (known.isNone && decide (MAC_TABLE_MAX_SIZE ≤ t.entries.entries.length)) ||
    source.macLimit.any (decide <| · ≤ t.portCount source.id)

/-- Record that an address lives on a port. False if the frame must be dropped. -/
def learn (h : L2Hub) (key : MacKey) (source : Port) (now : Instant) : L2Hub × Bool :=
  if (h.macTable.entries.lookup key).any (fresh source now) then (h, true)
  else if (h.macTable.entries.lookup key).any (h.held source now) then (h, false)
  else
    let known := (h.macTable.entries.lookup key).map (·.portId)
    let entry : MacEntry := ⟨source.id, now + MAC_AGING⟩
    if known ≠ some source.id ∧ full h.macTable known source then
      let table := h.macTable.pruneExpired now
      if full table known source then ({ h with macTable := table.remove key }, !source.secure)
      else ({ h with macTable := table.insert key entry }, true)
    else ({ h with macTable := h.macTable.insert key entry }, true)

def lookup (h : L2Hub) (key : MacKey) (source : PortId) (now : Instant) : L2Hub × Dest :=
  match h.macTable.entries.lookup key with
  | none => (h, .unknown)
  | some e =>
    let stale := { h with macTable := h.macTable.remove key }
    if e.expires ≤ now then (stale, .unknown)
    else if e.portId = source then (h, .ingress)
    else
      match h.ports.get e.portId with
      | some p => (h, .port p)
      | none => (stale, .unknown)

def sendOut (egress : Egress) (vlan : ℕ) (p : Port) : Egress × List (PortId × Frame) :=
  match p.mode.egress vlan with
  | none => (egress, [])
  | some action =>
    let (egress, out) := egress.apply action
    (egress, out.toList.map (p.id, ·))

def flood (vlan : ℕ) (source : PortId) : Egress → List Port → List (PortId × Frame)
  | _, [] => []
  | egress, p :: ports =>
    if p.id = source then flood vlan source egress ports
    else
      let (egress, sent) := sendOut egress vlan p
      sent ++ flood vlan source egress ports

/-- The port a frame came in by, and the VLAN that puts it in; none if it is dropped. -/
def classify (h : L2Hub) (depth : ℕ) (f : Frame) (source : PortId) : Option (Port × ℕ) :=
  if h.maxDepth ≤ depth then none
  else if f.length < 14 then none
  else (h.ports.get source).bind fun p => (p.mode.ingressVlan f.tag).map (p, ·)

def learnSource (h : L2Hub) (f : Frame) (source : Port) (vlan : ℕ) (now : Instant) : L2Hub × Bool :=
  if f.getD 6 0 &&& 1 = 0 then h.learn (vlan, slice f 6 12) source now else (h, true)

def dispatch (h : L2Hub) (f : Frame) (source : PortId) (vlan : ℕ) (now : Instant) :
    L2Hub × List (PortId × Frame) :=
  if f.getD 0 0 &&& 1 ≠ 0 then (h, flood vlan source (.new f) h.ports.list)
  else
    let (h, dest) := h.lookup (vlan, slice f 0 6) source now
    match dest with
    | .port p => (h, (sendOut (.new f) vlan p).2)
    | .ingress => (h, [])
    | .unknown => (h, flood vlan source (.new f) h.ports.list)

/-- A frame comes in by a port, `depth` hops deep; what is sent, and out of which ports. The clock is
read when the source is learned and when the destination is looked up. -/
def forward (h : L2Hub) (depth : ℕ) (f : Frame) (source : PortId) (now now' : Instant) :
    L2Hub × List (PortId × Frame) :=
  match h.classify depth f source with
  | none => (h, [])
  | some (p, vlan) =>
    let (h, ok) := h.learnSource f p vlan now
    if !ok then (h, []) else h.dispatch f source vlan now'

/-! ## What leaves -/

/-- Where ports and depth limit are concerned, the hub is the same. -/
structure SameConfig (h h' : L2Hub) : Prop where
  ports : h'.ports = h.ports := by rfl
  maxDepth : h'.maxDepth = h.maxDepth := by rfl

structure Leaves (h : L2Hub) (vlan : ℕ) (id : PortId) (out : Frame) : Prop where
  exists_port : ∃ p action, h.ports.get id = some p ∧ p.mode.egress vlan = some action ∧ action.Shape out
  length : 14 ≤ out.length

variable {h h' : L2Hub} {vlan depth : ℕ} {id source : PortId} {out f : Frame} {now now' : Instant} {p : Port}

theorem classify_eq_some : h.classify depth f source = some (p, vlan) ↔ depth < h.maxDepth ∧ 14 ≤ f.length ∧
    h.ports.get source = some p ∧ p.mode.ingressVlan f.tag = some vlan := by
  unfold classify
  rw [Option.ite_none_left_eq_some, Option.ite_none_left_eq_some, Option.bind_eq_some_iff, not_le, not_lt]
  simp only [Option.map_eq_some_iff, Prod.mk.injEq]
  grind

theorem sendOut_leaves {e : Egress} (he : e.Built) (hp : h.ports.get p.id = some p) :
    (sendOut e vlan p).1.Built ∧ ∀ x ∈ (sendOut e vlan p).2, h.Leaves vlan x.1 x.2 := by
  unfold sendOut
  split
  · exact ⟨he, nofun⟩
  · next action haction =>
    obtain ⟨hbuilt, hshape⟩ := he.apply action
    refine ⟨hbuilt, fun x hx => ?_⟩
    simp only [List.mem_map, Option.mem_toList] at hx
    obtain ⟨out, hout, rfl⟩ := hx
    obtain ⟨hs, hl⟩ := hshape out hout
    exact ⟨⟨p, action, hp, haction, hs⟩, hl⟩

theorem flood_leaves {e : Egress} {ports : List Port} (he : e.Built) (hports : ports ⊆ h.ports.list) :
    ∀ x ∈ flood vlan source e ports, h.Leaves vlan x.1 x.2 := by
  induction ports generalizing e with
  | nil => nofun
  | cons p ports ih =>
    obtain ⟨hp, hports⟩ := List.cons_subset.mp hports
    unfold flood
    split
    · exact ih he hports
    · obtain ⟨hbuilt, hsent⟩ := @sendOut_leaves _ vlan _ _ he (PortTable.get_id hp)
      intro x hx
      rcases List.mem_append.mp hx with hx | hx
      · exact hsent x hx
      · exact ih hbuilt hports x hx

theorem sameConfig_learn {key : MacKey} : SameConfig h (h.learn key p now).1 := by
  unfold learn
  split
  · exact {}
  split
  · exact {}
  dsimp only
  split
  · split <;> exact {}
  · exact {}

theorem sameConfig_lookup {key : MacKey} : SameConfig h (h.lookup key source now).1 := by
  unfold lookup
  split
  · exact {}
  dsimp only
  split
  · exact {}
  split
  · exact {}
  split <;> exact {}

theorem lookup_port {key : MacKey} (hd : (h.lookup key source now).2 = .port p) : h.ports.get p.id = some p := by
  unfold lookup at hd
  split at hd
  · cases hd
  dsimp only at hd
  split at hd
  · cases hd
  split at hd
  · cases hd
  split at hd
  · next q hq =>
    cases hd
    rw [PortTable.id_of_get hq]
    exact hq
  · cases hd

theorem sameConfig_learnSource : SameConfig h (h.learnSource f p vlan now).1 := by
  unfold learnSource
  split
  · exact sameConfig_learn
  · exact {}

theorem Leaves.congr (hc : SameConfig h h') (hl : h'.Leaves vlan id out) : h.Leaves vlan id out :=
  ⟨hc.ports ▸ hl.exists_port, hl.length⟩

theorem dispatch_leaves (hf : 14 ≤ f.length) : SameConfig h (h.dispatch f source vlan now).1 ∧
    ∀ x ∈ (h.dispatch f source vlan now).2, h.Leaves vlan x.1 x.2 := by
  unfold dispatch
  split
  · exact ⟨{}, flood_leaves (Egress.built_new hf) (List.Subset.refl _)⟩
  have hc : SameConfig h (h.lookup (vlan, slice f 0 6) source now).1 := sameConfig_lookup
  have hport := fun p => @lookup_port h source now p (vlan, slice f 0 6)
  generalize h.lookup (vlan, slice f 0 6) source now = r at hc hport
  obtain ⟨h1, dest⟩ := r
  cases dest with
  | port p => exact ⟨hc, (sendOut_leaves (Egress.built_new hf) (hport p rfl)).2⟩
  | ingress => exact ⟨hc, nofun⟩
  | unknown => exact ⟨hc, fun x hx => (flood_leaves (Egress.built_new hf) (List.Subset.refl _) x hx).congr hc⟩

/-- **What a frame that comes in does**: what leaves is of the VLAN it was put in, in the shape the port
asks for. -/
theorem forward_leaves : SameConfig h (h.forward depth f source now now').1 ∧
    ∀ x ∈ (h.forward depth f source now now').2, ∃ p vlan, h.classify depth f source = some (p, vlan) ∧
      h.Leaves vlan x.1 x.2 := by
  unfold forward
  split
  · exact ⟨{}, nofun⟩
  next p vlan hclass =>
  have hf : 14 ≤ f.length := (classify_eq_some.mp hclass).2.1
  have hlearn : SameConfig h (h.learnSource f p vlan now).1 := sameConfig_learnSource
  generalize h.learnSource f p vlan now = r at hlearn
  obtain ⟨h1, ok⟩ := r
  cases ok with
  | false => exact ⟨hlearn, nofun⟩
  | true =>
    obtain ⟨hc, hl⟩ := @dispatch_leaves h1 vlan source f now' hf
    exact ⟨⟨hc.ports.trans hlearn.ports, hc.maxDepth.trans hlearn.maxDepth⟩,
      fun x hx => ⟨p, vlan, hclass, (hl x hx).congr hlearn⟩⟩

end L2Hub

end PktKit.L2
