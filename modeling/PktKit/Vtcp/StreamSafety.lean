import PktKit.Foundations.Runs
import PktKit.Vtcp.Intake
import PktKit.Vtcp.SendBuf

/-! # One direction of a connection, end to end

A send buffer and a receive buffer joined by a network that keeps every segment
ever sent: it delivers any of them at any time, any number of times or never.
What the receiver reads is a front of what the sender's writes accepted.
-/

namespace PktKit.Vtcp
open Foundations.Wrapping Foundations.Fragments Foundations.Runs

/-- A data segment on the network. `off` is the stream position its sender meant; only the
network's freedom to deliver is stated with it, neither end sees it. -/
structure WireSeg (α : Type*) where
  seq : Seq
  payload : List α
  off : ℕ
deriving DecidableEq, Repr

/-- The two ends, all segments ever sent, and what went in and came out so far. -/
structure Link (α : Type*) where
  snd : SendBuf α
  rcv : RecvBuf α
  wire : List (WireSeg α)
  accepted : List α
  delivered : List α
deriving DecidableEq, Repr

inductive LinkOp (α : Type*) where
  /-- the application writes -/
  | write (p : List α)
  /-- send up to `n` bytes of new data -/
  | send (n : ℕ)
  /-- send up to `n` bytes again, from `k` past SND.UNA on -/
  | resend (k n : ℕ)
  /-- an ACK arrives -/
  | ack (a : Seq)
  /-- the network delivers the `i`th segment ever sent -/
  | deliver (i : ℕ)
  /-- the application reads, and `n` bytes move -/
  | read (n : ℕ)
deriving DecidableEq, Repr

namespace Link

variable {α : Type*}

def init (iss : Seq) (capacity windowSize : ℕ) : Link α :=
  { snd := SendBuf.new capacity iss, rcv := RecvBuf.new iss windowSize, wire := [],
    accepted := [], delivered := [] }

def unaOff (s : Link α) : ℕ := s.accepted.length - s.snd.data.length

/-- One step. It is impossible to send past a window of `2 ^ 30` bytes, to acknowledge outside
SND.UNA to SND.NXT and to deliver a segment half the sequence space or more away from RCV.NXT; a
panic of the receiver ends the run. -/
def step (s : Link α) : LinkOp α → Option (Link α)
  | .write p =>
    let (snd, n) := s.snd.write p
    some { s with snd := snd, accepted := s.accepted ++ p.take n }
  | .send n =>
    let d := s.snd.peekUnsent n
    if s.snd.unacked + d.length ≤ 2 ^ 30 then
      some { s with
        snd := s.snd.advanceSent d.length
        wire := s.wire ++ [⟨s.snd.nxt, d, s.unaOff + s.snd.unacked⟩] }
    else none
  | .resend k n =>
    if k ≤ s.snd.unacked then
      let seq := s.snd.una + BitVec.ofNat 32 k
      some { s with wire := s.wire ++ [⟨seq, s.snd.dataAt seq n, s.unaOff + k⟩] }
    else none
  | .ack a =>
    if (a - s.snd.una).toNat ≤ s.snd.unacked then some { s with snd := (s.snd.acknowledge a).1 }
    else none
  | .deliver i =>
    match s.wire[i]? with
    | none => none
    | some seg =>
      if seg.off < s.rcv.nxtOff + 2 ^ 31 ∧ s.rcv.nxtOff < seg.off + 2 ^ 31 then
        (s.rcv.insert seg.seq seg.payload).map fun r => { s with rcv := r.1 }
      else none
  | .read n =>
    let (rcv, out) := s.rcv.read n
    some { s with rcv := rcv, delivered := s.delivered ++ out }

structure Inv (iss : Seq) (s : Link α) : Prop where
  snd : ∃ una nxt, s.snd.Holds iss s.accepted una nxt
  wire : ∀ seg ∈ s.wire, seg.seq = pos iss seg.off ∧ Frag s.accepted seg.off seg.payload ∧
    seg.payload.length ≤ 2 ^ 30
  shape : s.rcv.Shape iss
  window : s.rcv.windowSize ≤ 2 ^ 30
  budget : s.rcv.oooMem ≤ s.rcv.oooBudget
  nxtOff_eq : s.rcv.nxtOff = s.delivered.length + s.rcv.buf.length
  stream : Frag s.accepted 0 (s.delivered ++ s.rcv.buf)
  agrees : s.rcv.OooAgrees s.accepted

variable {iss : Seq} {s t : Link α}

theorem inv_init (iss : Seq) (capacity : ℕ) {windowSize : ℕ} (hw : windowSize ≤ 2 ^ 30) :
    Inv iss (init iss capacity windowSize : Link α) where
  snd := ⟨0, 0, SendBuf.Holds.new capacity iss⟩
  wire := by simp [init]
  shape := RecvBuf.shape_new iss windowSize
  window := hw
  budget := by simp [init, RecvBuf.new]
  nxtOff_eq := by simp [init, RecvBuf.new]
  stream := Frag.nil _ _
  agrees := by simp [init, RecvBuf.new, RecvBuf.OooAgrees]

/-- The memory bound keeps every range short. -/
theorem Inv.short (h : Inv iss s) : s.rcv.Short := by
  intro x hx
  have h1 : x.2.cost ≤ s.rcv.oooMem := by
    rw [h.shape.mem_eq]
    exact List.single_le_sum (by simp) _ (List.mem_map_of_mem hx)
  have h2 := h.budget
  have h3 := h.window
  simp only [RecvBuf.oooBudget, OooEntry.cost, RANGE_OVERHEAD] at h1 h2
  omega

theorem Inv.unaOff_eq {una nxt : ℕ} (h : s.snd.Holds iss s.accepted una nxt) : s.unaOff = una := by
  have h1 := h.una_le
  have h2 := h.nxt_le
  rw [unaOff, h.data_eq, List.length_drop]
  omega

/-- Growth of the stream keeps what agreed with it. -/
theorem Inv.grow (h : Inv iss s) {w : List α} {snd : SendBuf α} (hw : s.accepted <+: w)
    (hs : ∃ una nxt, snd.Holds iss w una nxt) : Inv iss { s with snd := snd, accepted := w } where
  snd := hs
  wire := fun seg hseg => ⟨(h.wire seg hseg).1, (h.wire seg hseg).2.1.mono hw, (h.wire seg hseg).2.2⟩
  shape := h.shape
  window := h.window
  budget := h.budget
  nxtOff_eq := h.nxtOff_eq
  stream := h.stream.mono hw
  agrees := fun x hx => (h.agrees x hx).mono hw

/-- A segment cut from the stream may join the network. -/
theorem Inv.post (h : Inv iss s) {snd : SendBuf α} {seg : WireSeg α}
    (hs : ∃ una nxt, snd.Holds iss s.accepted una nxt) (hseq : seg.seq = pos iss seg.off)
    (hf : Frag s.accepted seg.off seg.payload) (hlen : seg.payload.length ≤ 2 ^ 30) :
    Inv iss { s with snd := snd, wire := s.wire ++ [seg] } where
  snd := hs
  wire := by
    intro x hx
    rcases List.mem_append.mp hx with hx | hx
    · exact h.wire x hx
    · rw [List.mem_singleton.mp hx]
      exact ⟨hseq, hf, hlen⟩
  shape := h.shape
  window := h.window
  budget := h.budget
  nxtOff_eq := h.nxtOff_eq
  stream := h.stream
  agrees := h.agrees

theorem Inv.deliver (h : Inv iss s) {seg : WireSeg α} (hseg : seg ∈ s.wire)
    (hnear : Near seg.off s.rcv.nxtOff) {rcv : RecvBuf α} {n : ℕ}
    (hi : s.rcv.insert seg.seq seg.payload = some (rcv, n)) : Inv iss { s with rcv := rcv } := by
  obtain ⟨hseq, hfrag, hlen⟩ := h.wire seg hseg
  rw [hseq] at hi
  obtain ⟨q, d, ht, hcut, -⟩ := RecvBuf.insert_taken h.shape h.short hnear (by omega) hi
  have hd := hcut _ hfrag
  obtain ⟨new, ooo, mem, recent, dup, hr, hnew⟩ := ht.frame
  have hshape := ht.shape
  have hbudget := ht.budget h.budget
  have hagrees := ht.agrees _ hd h.agrees
  subst hr
  refine ⟨h.snd, h.wire, hshape, h.window, hbudget, ?_, ?_, hagrees⟩
  · have := h.nxtOff_eq
    simp only [List.length_append]
    omega
  · change Frag s.accepted 0 (s.delivered ++ (s.rcv.buf ++ new))
    rw [← List.append_assoc]
    refine h.stream.append ?_
    have := hnew _ hd h.agrees
    rwa [h.nxtOff_eq, ← List.length_append, ← Nat.zero_add (List.length _)] at this

theorem Inv.read (h : Inv iss s) (n : ℕ) :
    Inv iss { s with rcv := (s.rcv.read n).1, delivered := s.delivered ++ (s.rcv.read n).2 } where
  snd := h.snd
  wire := h.wire
  shape := ⟨h.shape.nxt_eq, h.shape.apart, h.shape.placed, h.shape.ahead, h.shape.mem_eq⟩
  window := h.window
  budget := h.budget
  nxtOff_eq := by
    have := h.nxtOff_eq
    simp only [RecvBuf.read, List.length_append, List.length_take, List.length_drop]
    omega
  stream := by
    have := h.stream
    simpa [RecvBuf.read, List.append_assoc] using this
  agrees := h.agrees

theorem inv_step (op : LinkOp α) (h : Inv iss s) (hs : step s op = some t) : Inv iss t := by
  obtain ⟨una, nxt, hsnd⟩ := h.snd
  have hua := hsnd.unacked_eq
  have hle := hsnd.una_le
  have hfl := hsnd.flight
  have huo := Inv.unaOff_eq hsnd
  cases op with
  | write p =>
    obtain rfl := Option.some.inj hs
    exact h.grow (List.prefix_append _ _) ⟨una, nxt, hsnd.write p⟩
  | send n =>
    simp only [step] at hs
    split at hs
    · rename_i hroom
      obtain rfl := Option.some.inj hs
      have hf := hsnd.peekUnsent_frag n
      have hoff : una + (nxt - una) = nxt := by omega
      refine h.post ⟨una, _, hsnd.advanceSent (n := (s.snd.peekUnsent n).length) ?_ ?_⟩ ?_ ?_ ?_
      · have := hf.length_le
        have := hsnd.nxt_le
        omega
      · omega
      · rw [huo, hua, hoff]
        exact hsnd.nxt_eq
      · rw [huo, hua, hoff]
        exact hf
      · exact le_trans (Nat.le_add_left _ _) hroom
    · cases hs
  | resend k n =>
    simp only [step] at hs
    split at hs
    · rename_i hk
      obtain rfl := Option.some.inj hs
      have hseq : s.snd.una + BitVec.ofNat 32 k = pos iss (una + k) := by rw [hsnd.una_eq, pos_add]
      refine h.post ⟨una, nxt, hsnd⟩ ?_ ?_ ?_
      · rw [huo]
        exact hseq
      · rw [huo, hseq]
        exact hsnd.dataAt_frag (by omega) n
      · exact (s.snd.dataAt_length_le _ n).trans (by omega)
    · cases hs
  | ack a =>
    simp only [step] at hs
    split at hs
    · rename_i hin
      obtain rfl := Option.some.inj hs
      have ha : a = pos iss (una + (a - s.snd.una).toNat) := by
        have := exists_pos_ge iss una a
        rwa [← hsnd.una_eq] at this
      refine h.grow List.prefix_rfl ⟨una + (a - s.snd.una).toNat, nxt, ?_⟩
      have := hsnd.acknowledge (k := (a - s.snd.una).toNat) (by omega)
      rwa [← ha] at this
    · cases hs
  | deliver i =>
    simp only [step] at hs
    split at hs
    · cases hs
    · rename_i seg hseg
      split at hs
      · rename_i hnear
        obtain ⟨⟨rcv, n⟩, hi, rfl⟩ := Option.map_eq_some_iff.mp hs
        exact h.deliver (List.mem_of_getElem? hseg) hnear hi
      · cases hs
  | read n =>
    obtain rfl := Option.some.inj hs
    exact h.read n

/-- End-to-end safety: whatever is lost, duplicated, reordered and delayed, the reader has a front
of what the writer's writes accepted, RCV.NXT counts the in-order bytes taken, and no byte is
delivered twice. -/
theorem delivered_prefix (iss : Seq) (capacity windowSize : ℕ) (hw : windowSize ≤ 2 ^ 30)
    (ops : List (LinkOp α)) (s : Link α) (h : run step (init iss capacity windowSize) ops = some s) :
    s.delivered <+: s.accepted ∧
      s.rcv.nxt = iss + BitVec.ofNat 32 (s.delivered.length + s.rcv.readable) ∧
      (s.accepted.Nodup → s.delivered.Nodup) := by
  have hinv : Inv iss s := run_invariant (fun _ op _ hs ht => inv_step op hs ht) h (inv_init iss capacity hw)
  have hpre : s.delivered <+: s.accepted :=
    (List.prefix_append _ _).trans hinv.stream.prefix_of_zero
  refine ⟨hpre, ?_, fun hn => hn.sublist hpre.sublist⟩
  rw [hinv.shape.nxt_eq, hinv.nxtOff_eq]
  rfl

/-- A run across the wrap of the sequence space: the second segment arrives first and twice. -/
def reordered : List (LinkOp ℕ) :=
  [.write [1, 2, 3, 4, 5], .send 3, .send 2, .deliver 1, .deliver 1, .resend 1 2, .deliver 2, .deliver 0,
    .ack 1#32, .read 4, .read 9]

theorem delivered_prefix_reordered : ∃ s, run step (init 0xfffffffe#32 100 50) reordered = some s ∧
    s.delivered = [1, 2, 3, 4, 5] ∧ s.delivered <+: s.accepted ∧
      s.rcv.nxt = 0xfffffffe#32 + BitVec.ofNat 32 (s.delivered.length + s.rcv.readable) ∧
      (s.accepted.Nodup → s.delivered.Nodup) :=
  exists_of_any (P := fun s => s.delivered = [1, 2, 3, 4, 5]) (by decide) fun s hs hd =>
    ⟨hd, delivered_prefix 0xfffffffe#32 100 50 (by norm_num) reordered s hs⟩

end Link

end PktKit.Vtcp
