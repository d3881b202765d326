import PktKit.Afxdp.Ring
import PktKit.Foundations.Runs

/-! # The receive loop of an AF_XDP socket

It puts the addresses of what it received back on the FILL ring, while the kernel takes from there.
-/

namespace PktKit.Afxdp
open Foundations

def BATCH : ℕ := 64

structure XdpDesc where
  addr : ℕ
  len : ℕ
  options : ℕ

structure Config where
  ringBits : ℕ
  numFrames : ℕ
  frameSize : ℕ
  ringBits_lt : ringBits < 32
  frameSize_pos : 0 < frameSize

def umemSplit (numFrames : ℕ) : ℕ × ℕ := (max (numFrames / 2) 1, numFrames - max (numFrames / 2) 1)

def Config.rxAddrs (c : Config) : List ℕ := (List.range (umemSplit c.numFrames).1).map (· * c.frameSize)

def Config.ring {α : Type} (c : Config) (cursor : BitVec 32) (a : α) : Ring α :=
  ⟨c.ringBits, c.ringBits_lt, fun _ => a, cursor, cursor⟩

theorem Config.contents_ring {α : Type} {c : Config} {i : BitVec 32} {a : α} : (c.ring i a).contents = [] := by
  simp [Ring.contents, Ring.used, ring, Ring.read]

structure PollLoop where
  rx : Ring XdpDesc
  fill : Ring ℕ
  /-- received, and not put back yet -/
  batch : List ℕ := []
  /-- taken from the FILL ring by the kernel -/
  kernel : List ℕ := []
  /-- how many it has taken since the last step of the loop -/
  moved : ℕ := 0
  /-- put on the RX ring so far, taken off it, and given to the handler -/
  arrived : List XdpDesc := []
  received : List XdpDesc := []
  handled : List XdpDesc := []

/-- The kernel has moved by `lag` since the loop loaded its cursor. -/
inductive Event
  | receive (lag : ℕ) (handler : Bool)
  | refill (lag : ℕ)
  | kernelTakes
  | kernelDelivers (i len options : ℕ)

namespace PollLoop

def step (s : PollLoop) : Event → Option PollLoop
  | .receive lag handler =>
    if s.batch = [] ∧ lag ≤ s.rx.used then
      let r := s.rx.consume (s.rx.producer - BitVec.ofNat 32 lag) BATCH
      some { s with
        rx := r.2, batch := r.1.map XdpDesc.addr, moved := 0, received := s.received ++ r.1
        handled := s.handled ++ if handler then r.1.filter fun d => 14 ≤ d.len else [] }
    else none
  | .refill lag =>
    -- what there is no room for is lost
    if lag ≤ s.moved then
      some { s with
        fill := (s.fill.produce (s.fill.consumer - BitVec.ofNat 32 lag) s.batch).1, batch := [], moved := 0 }
    else none
  | .kernelTakes =>
    let r := s.fill.consume s.fill.producer 1
    some { s with fill := r.2, kernel := s.kernel ++ r.1, moved := s.moved + r.1.length }
  | .kernelDelivers i len options => (s.kernel[i]?).map fun addr =>
    { s with
      rx := s.rx.push ⟨addr, len, options⟩, kernel := s.kernel.eraseIdx i
      arrived := s.arrived ++ [⟨addr, len, options⟩] }

/-- A socket just opened, its cursors where the kernel says. -/
def opened (c : Config) (rx fill : BitVec 32) : PollLoop where
  rx := c.ring rx ⟨0, 0, 0⟩
  fill := ((c.ring fill 0).produce fill c.rxAddrs).1

/-- Where the addresses to receive into are. -/
def everywhere (s : PollLoop) : List ℕ :=
  s.kernel ++ s.fill.contents ++ s.batch ++ s.rx.contents.map XdpDesc.addr

structure Sound (pool : List ℕ) (s : PollLoop) : Prop where
  owned : s.everywhere.Perm pool
  pool_le : pool.length ≤ s.fill.size
  sizes : s.rx.size = s.fill.size
  /-- there is room to put the batch back, even as the FILL ring was last seen -/
  back : s.fill.used + s.moved + s.batch.length ≤ s.fill.size
  order : s.arrived = s.received ++ s.rx.contents
  handled : s.handled.Sublist s.received

variable {c : Config} {rx fill : BitVec 32} {es : List Event} {pool : List ℕ} {s t : PollLoop}

theorem Sound.step (h : Sound pool s) {e : Event} (he : s.step e = some t) : Sound pool t := by
  have howned := h.owned
  have hlen := h.owned.length_eq.le.trans h.pool_le
  have hback := h.back
  simp only [everywhere, List.length_append, List.length_map, Ring.length_contents] at hlen
  cases e with
  | receive lag handler =>
    obtain ⟨⟨hempty, hlag⟩, ht⟩ := Option.ite_none_right_eq_some.mp he
    cases ht
    obtain ⟨hcontents, hgot, hsize⟩ := Ring.consume_spec (m := BATCH) hlag
    refine ⟨?_, h.pool_le, hsize.trans h.sizes, ?_, ?_, ?_⟩
    · simpa [everywhere, hempty, hcontents] using howned
    · simp only [List.length_map, hgot]
      omega
    · rw [h.order, hcontents, List.append_assoc]
    · apply h.handled.append
      split
      · exact List.filter_sublist
      · exact List.nil_sublist _
  | refill lag =>
    obtain ⟨hlag, ht⟩ := Option.ite_none_right_eq_some.mp he
    cases ht
    have hsize := s.fill.size_lt
    obtain ⟨hcontents, hring, hall⟩ := Ring.produce_spec (l := s.batch)
      (show s.fill.used + lag ≤ s.fill.size by omega)
    rw [Nat.mod_eq_of_lt (by omega), min_eq_left (by omega)] at hall
    rw [hall, List.take_length] at hcontents
    have hused := congrArg List.length hcontents
    simp only [Ring.length_contents, List.length_append] at hused
    refine { h with
      owned := ?_, pool_le := h.pool_le.trans hring.ge, sizes := h.sizes.trans hring.symm, back := ?_ }
    · simpa [everywhere, hcontents] using howned
    · rw [hring, hused, List.length_nil]
      dsimp only
      omega
  | kernelTakes =>
    cases he
    obtain ⟨hcontents, hgot, hsize⟩ := Ring.consume_spec (r := s.fill) (m := 1) (Nat.zero_le _)
    simp only [BitVec.sub_zero] at hgot hcontents hsize
    have hused := congrArg List.length hcontents
    simp only [Ring.length_contents, List.length_append] at hused
    refine { h with
      owned := ?_, pool_le := h.pool_le.trans hsize.ge, sizes := h.sizes.trans hsize.symm, back := ?_ }
    · simpa [everywhere, hcontents] using howned
    · rw [hsize]
      dsimp only
      omega
  | kernelDelivers i len options =>
    obtain ⟨addr, ha, rfl⟩ := Option.map_eq_some_iff.mp he
    obtain ⟨hi, rfl⟩ := List.getElem?_eq_some_iff.mp ha
    have hroom : s.rx.used < s.rx.size := by rw [h.sizes]; omega
    refine { h with owned := ?_, order := ?_ }
    · have hmove := (List.perm_append_singleton _ _).trans ((List.getElem_cons_eraseIdx_perm hi).append_right
        (s.fill.contents ++ s.batch ++ s.rx.contents.map XdpDesc.addr))
      simpa [everywhere, Ring.contents_push hroom] using hmove.trans (by simpa [everywhere] using howned)
    · rw [Ring.contents_push hroom, h.order, List.append_assoc]

theorem sound_opened (c : Config) (rx fill : BitVec 32) :
    Sound (opened c rx fill).fill.contents (opened c rx fill) ∧
      (opened c rx fill).fill.contents.Sublist c.rxAddrs := by
  have hroom : (c.ring fill 0).used + (c.rxAddrs.take ((c.ring fill 0).produce fill c.rxAddrs).2).length ≤
      (c.ring fill 0).size := by
    rw [← Ring.length_contents, Config.contents_ring, List.length_nil, Nat.zero_add]
    exact (List.length_take_le _ _).trans ((min_le_right _ _).trans (Nat.sub_le _ _))
  obtain ⟨hcontents, hsize⟩ := Ring.pushes hroom
  rw [Config.contents_ring, List.nil_append] at hcontents
  have hle : (opened c rx fill).fill.contents.length ≤ (opened c rx fill).fill.size :=
    (congrArg List.length hcontents).le.trans ((Nat.le_add_left _ _).trans (hroom.trans hsize.ge))
  refine ⟨⟨?_, hle, hsize.symm, ?_, ?_, List.Sublist.slnil⟩, hcontents ▸ List.take_sublist _ _⟩
  · simp [everywhere, opened, Config.contents_ring]
  · rwa [Ring.length_contents] at hle
  · simp [opened, Config.contents_ring]

end PollLoop

end PktKit.Afxdp
