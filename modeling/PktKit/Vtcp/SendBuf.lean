import PktKit.Foundations.Fragments
import PktKit.Vtcp.SeqSpace

/-! # The sender's byte buffer

`buf[head..]` holds the data from SND.UNA on, in flight first and then queued.
Acknowledged bytes before `head` are dropped lazily, which nothing outside can
see: every operation is stated through `data`. The bytes are of any type, the
buffer never looks at them.
-/

namespace PktKit.Vtcp
open Foundations.Wrapping Foundations.Fragments

/-- `SendBuf`. The allocation's capacity is left out: where the source frees a large
empty allocation, the drain of the other branch leaves the same contents. -/
structure SendBuf (α : Type*) where
  buf : List α
  head : ℕ
  cap : ℕ
  una : Seq
  nxt : Seq
deriving DecidableEq, Repr

namespace SendBuf

variable {α : Type*}

def new (capacity : ℕ) (initialSeq : Seq) : SendBuf α :=
  { buf := [], head := 0, cap := capacity, una := initialSeq, nxt := initialSeq }

/-- The unacknowledged and unsent data, from SND.UNA on. -/
def data (b : SendBuf α) : List α := b.buf.drop b.head

def available (b : SendBuf α) : ℕ := b.cap - b.data.length

/-- Append data; also the number of bytes accepted. -/
def write (b : SendBuf α) (p : List α) : SendBuf α × ℕ :=
  let avail := b.available
  if avail = 0 then (b, 0)
  else
    let n := min p.length avail
    ({ b with buf := b.buf ++ p.take n }, n)

/-- Sent-but-unacknowledged bytes. -/
def unacked (b : SendBuf α) : ℕ := (b.nxt - b.una).toNat

def peekUnsent (b : SendBuf α) (n : ℕ) : List α := (b.data.drop b.unacked).take n

/-- Advance SND.NXT after the data was put on the wire. -/
def advanceSent (b : SendBuf α) (n : ℕ) : SendBuf α := { b with nxt := b.nxt + BitVec.ofNat 32 n }

/-- Shift the rest down once the dropped bytes outnumber what is left, or reach a quarter of
the capacity. -/
def compact (b : SendBuf α) : SendBuf α :=
  let live := b.buf.length - b.head
  if live ≤ b.head ∨ b.cap / 4 ≤ b.head then { b with buf := b.buf.drop b.head, head := 0 } else b

/-- Cumulative ACK; also the number of bytes newly freed. -/
def acknowledge (b : SendBuf α) (ack : Seq) : SendBuf α × ℕ :=
  if !seqAfter ack b.una then (b, 0)
  else
    let ack := if seqAfter ack b.nxt then b.nxt else ack
    let n := min (ack - b.una).toNat b.data.length
    ({ ({ b with head := b.head + n }).compact with una := ack }, n)

/-- Up to `n` bytes of data from `seq` on, for a retransmission. Stops at the FIN. -/
def dataAt (b : SendBuf α) (seq : Seq) (n : ℕ) : List α :=
  let off := min (seq - b.una).toNat b.data.length
  let sent := min b.unacked b.data.length
  (b.data.take (min (max sent off) (off + n))).drop off

theorem data_write (b : SendBuf α) (p : List α) (h : b.head ≤ b.buf.length) :
    (b.write p).1.data = b.data ++ p.take (b.write p).2 := by
  simp only [write]
  split
  · simp
  · simp [data, List.drop_append_of_le_length h]

@[simp] theorem data_advanceSent (b : SendBuf α) (n : ℕ) : (b.advanceSent n).data = b.data := rfl

@[simp] theorem data_compact (b : SendBuf α) : b.compact.data = b.data := by
  simp only [compact]
  split <;> simp [data]

theorem compact_head_le (b : SendBuf α) (h : b.head ≤ b.buf.length) :
    b.compact.head ≤ b.compact.buf.length := by
  simp only [compact]
  split
  · exact Nat.zero_le _
  · exact h

@[simp] theorem compact_nxt (b : SendBuf α) : b.compact.nxt = b.nxt := by
  simp only [compact]
  split <;> rfl

theorem dataAt_length_le (b : SendBuf α) (seq : Seq) (n : ℕ) :
    (b.dataAt seq n).length ≤ b.unacked := by
  simp only [dataAt, List.length_drop, List.length_take]
  omega

@[simp] theorem write_una (b : SendBuf α) (p : List α) : (b.write p).1.una = b.una := by
  simp only [write]
  split <;> rfl

@[simp] theorem write_nxt (b : SendBuf α) (p : List α) : (b.write p).1.nxt = b.nxt := by
  simp only [write]
  split <;> rfl

/-- The buffer `b` of a stream that began at sequence number `iss`: of the bytes `w` accepted so
far, `una` are acknowledged and `nxt` sent. -/
structure Holds (iss : Seq) (w : List α) (una nxt : ℕ) (b : SendBuf α) : Prop where
  head_le : b.head ≤ b.buf.length
  una_eq : b.una = pos iss una
  nxt_eq : b.nxt = pos iss nxt
  una_le : una ≤ nxt
  nxt_le : nxt ≤ w.length
  flight : nxt - una ≤ 2 ^ 30
  data_eq : b.data = w.drop una

namespace Holds

variable {iss : Seq} {w : List α} {una nxt : ℕ} {b : SendBuf α}

theorem new (capacity : ℕ) (iss : Seq) : Holds iss ([] : List α) 0 0 (SendBuf.new capacity iss) := by
  constructor <;> simp [SendBuf.new, data]

theorem unacked_eq (h : Holds iss w una nxt b) : b.unacked = nxt - una := by
  rw [unacked, h.una_eq, h.nxt_eq]
  exact toNat_pos_sub iss h.una_le (by have := h.flight; omega)

theorem write (h : Holds iss w una nxt b) (p : List α) :
    Holds iss (w ++ p.take (b.write p).2) una nxt (b.write p).1 where
  head_le := by
    have := h.head_le
    simp only [SendBuf.write]
    split <;> simp <;> omega
  una_eq := by rw [write_una, h.una_eq]
  nxt_eq := by rw [write_nxt, h.nxt_eq]
  una_le := h.una_le
  nxt_le := by have := h.nxt_le; simp; omega
  flight := h.flight
  data_eq := by
    rw [data_write b p h.head_le, h.data_eq, List.drop_append_of_le_length]
    exact h.una_le.trans h.nxt_le

/-- The next new segment is the stream's own next bytes. -/
theorem peekUnsent_frag (h : Holds iss w una nxt b) (n : ℕ) : Frag w nxt (b.peekUnsent n) := by
  have hd : b.data.drop b.unacked = w.drop nxt := by
    rw [h.unacked_eq, h.data_eq, List.drop_drop, Nat.add_sub_cancel' h.una_le]
  rw [SendBuf.peekUnsent, hd]
  exact frag_take_drop w nxt n

theorem advanceSent (h : Holds iss w una nxt b) {n : ℕ} (hn : nxt + n ≤ w.length)
    (hf : nxt + n - una ≤ 2 ^ 30) : Holds iss w una (nxt + n) (b.advanceSent n) where
  head_le := h.head_le
  una_eq := h.una_eq
  nxt_eq := by simp only [SendBuf.advanceSent, h.nxt_eq, pos_add]
  una_le := by have := h.una_le; omega
  nxt_le := hn
  flight := hf
  data_eq := h.data_eq

/-- A retransmission from `una + k` carries the stream's own bytes there. -/
theorem dataAt_frag (h : Holds iss w una nxt b) {k : ℕ} (hk : una + k ≤ nxt) (n : ℕ) :
    Frag w (una + k) (b.dataAt (pos iss (una + k)) n) := by
  have hoff : (pos iss (una + k) - b.una).toNat = k := by
    rw [h.una_eq, toNat_pos_sub iss (by omega) (by have := h.flight; omega)]
    omega
  have hlen : k ≤ b.data.length := by
    have := h.nxt_le
    simp only [h.data_eq, List.length_drop]
    omega
  rw [SendBuf.dataAt, hoff, Nat.min_eq_left hlen, List.drop_take, h.data_eq, List.drop_drop]
  exact frag_take_drop w (una + k) _

/-- An ACK between SND.UNA and SND.NXT moves SND.UNA there and frees what it covers. -/
theorem acknowledge (h : Holds iss w una nxt b) {k : ℕ} (hk : una + k ≤ nxt) :
    Holds iss w (una + k) nxt (b.acknowledge (pos iss (una + k))).1 := by
  have hf := h.flight
  have hn := h.nxt_le
  have hafter : seqAfter (pos iss (una + k)) b.una = decide (0 < k) := by
    rw [h.una_eq, seqAfter_pos iss ⟨by omega, by omega⟩, decide_eq_decide]
    omega
  have hnot : seqAfter (pos iss (una + k)) b.nxt = false := by
    rw [h.nxt_eq, seqAfter_pos iss ⟨by omega, by omega⟩, decide_eq_false_iff_not]
    omega
  have hsub : (pos iss (una + k) - b.una).toNat = k := by
    rw [h.una_eq, toNat_pos_sub iss (by omega) (by omega)]
    omega
  have hlen : k ≤ b.data.length := by
    rw [h.data_eq, List.length_drop]
    omega
  by_cases hk0 : k = 0
  · have hnone : b.acknowledge (pos iss (una + k)) = (b, 0) := by
      rw [SendBuf.acknowledge, hafter, hk0]
      rfl
    rw [hnone, hk0]
    exact h
  · -- SND.UNA moves to the ACK and exactly `k` bytes leave the front
    have heq : (b.acknowledge (pos iss (una + k))).1 =
        { ({ b with head := b.head + k }).compact with una := pos iss (una + k) } := by
      have hk' : 0 < k := Nat.pos_of_ne_zero hk0
      simp only [SendBuf.acknowledge, hafter, hk', hnot, decide_true, Bool.not_true,
        Bool.false_eq_true, if_false]
      rw [hsub, Nat.min_eq_left hlen]
    have hhead : b.head + k ≤ b.buf.length := by
      have := h.head_le
      simp only [data, List.length_drop] at hlen
      omega
    rw [heq]
    refine ⟨compact_head_le _ hhead, rfl, ?_, hk, hn, by omega, ?_⟩
    · exact (compact_nxt _).trans h.nxt_eq
    · refine (data_compact { b with head := b.head + k }).trans ?_
      rw [← List.drop_drop, ← h.data_eq, data, data, List.drop_drop]

end Holds

end SendBuf

end PktKit.Vtcp
