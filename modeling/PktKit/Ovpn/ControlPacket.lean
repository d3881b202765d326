import PktKit.Packet

/-! # Control packets

The packets of the reliable layer and their bytes: the session they come from, the packets they
acknowledge and the session those were from, their own id, and a piece of the TLS stream.
-/

namespace PktKit.Ovpn
open Foundations

def CONTROL_SEND_ACK_MAX : ℕ := 4
def TLS_RELIABLE_N_SEND_BUFFERS : ℕ := 6
def TLS_RELIABLE_N_REC_BUFFERS : ℕ := 12
def TLS_MTU : ℕ := 1250
def DATAGRAM_OVERHEAD : ℕ := 40 + 8
def MAX_CONTROL_HEADER_SIZE : ℕ := 1 + 8 + 1 + 4 * CONTROL_SEND_ACK_MAX + 8 + 4
def CONTROL_CHANNEL_MTU : ℕ := TLS_MTU - DATAGRAM_OVERHEAD - MAX_CONTROL_HEADER_SIZE
def MAX_CONTROL_PAYLOAD : ℕ := 1500 + 100

/-! ## Opcodes -/

/-- The upper five bits of the first byte. -/
structure Opcode where
  val : ℕ
deriving DecidableEq

namespace Opcode

def CONTROL_SOFT_RESET_V1 : Opcode := ⟨3⟩
def CONTROL_V1 : Opcode := ⟨4⟩
def ACK_V1 : Opcode := ⟨5⟩
def CONTROL_HARD_RESET_CLIENT_V2 : Opcode := ⟨7⟩
def CONTROL_HARD_RESET_SERVER_V2 : Opcode := ⟨8⟩

def toByte (op : Opcode) (keyId : ℕ) : UInt8 := UInt8.ofNat (op.val * 8 + keyId % 8)

def fromByte (b : UInt8) : Opcode × ℕ := (⟨b.toNat / 8⟩, b.toNat % 8)

theorem fromByte_toByte {op : Opcode} (h : op.val < 32) (keyId : ℕ) :
    fromByte (toByte op keyId) = (op, keyId % 8) := by
  have hdiv : (op.val * 8 + keyId % 8) % 256 / 8 = op.val := by omega
  have hmod : (op.val * 8 + keyId % 8) % 256 % 8 = keyId % 8 := by omega
  simp only [fromByte, toByte, UInt8.toNat_ofNat', Nat.reducePow, hdiv, hmod]

end Opcode

/-! ## Packets -/

abbrev SessionId := { l : List UInt8 // l.length = 8 }

def SessionId.zero : SessionId := ⟨List.replicate 8 0, by simp⟩

structure ControlPacket where
  opcode : Opcode
  keyId : ℕ
  pid : Option ℕ := none
  sessionId : SessionId
  remoteId : SessionId
  payload : List UInt8 := []
  /-- what the peer acknowledges, in a packet that was parsed -/
  ackedPids : List ℕ := []

def ControlPacket.toBytes (p : ControlPacket) (ack : List ℕ) : List UInt8 :=
  p.opcode.toByte p.keyId :: (p.sessionId.val ++ (UInt8.ofNat ack.length ::
    ((if ack.isEmpty then [] else ack.flatMap be32Bytes ++ p.remoteId.val) ++
      (p.pid.elim [] be32Bytes ++ p.payload))))

/-! ## Parsing -/

inductive Refusal
  | empty
  | truncated
  | otherSession
  | missingId
  | resetId
  | window
  | tooBig
deriving DecidableEq

def takeU8 : List UInt8 → Except Refusal (UInt8 × List UInt8)
  | [] => .error .truncated
  | b :: r => .ok (b, r)

def takeU32 (r : List UInt8) : Except Refusal (ℕ × List UInt8) :=
  if r.length < 4 then .error .truncated else .ok (Packet.be32 r 0, r.drop 4)

def take8 (r : List UInt8) : Except Refusal (SessionId × List UInt8) :=
  if h : r.length < 8 then .error .truncated
  else .ok (⟨r.take 8, by rw [List.length_take]; omega⟩, r.drop 8)

def takeAcks : ℕ → List UInt8 → Except Refusal (List ℕ × List UInt8)
  | 0, r => .ok ([], r)
  | n + 1, r => do
    let (pid, r) ← takeU32 r
    let (pids, r) ← takeAcks n r
    return (pid :: pids, r)

def takeAcked (n : ℕ) (r : List UInt8) : Except Refusal (List ℕ × SessionId × List UInt8) :=
  if n > 0 then do
    let (acked, r) ← takeAcks n r
    let (remoteId, r) ← take8 r
    return (acked, remoteId, r)
  else .ok ([], .zero, r)

def takePid (opcode : Opcode) (r : List UInt8) : Except Refusal (Option ℕ × List UInt8) :=
  if opcode ≠ .ACK_V1 then do
    let (pid, r) ← takeU32 r
    return (some pid, r)
  else .ok (none, r)

def ControlPacket.parse : List UInt8 → Except Refusal ControlPacket
  | [] => .error .empty
  | head :: r => do
    let (opcode, keyId) := Opcode.fromByte head
    let (sessionId, r) ← take8 r
    let (ackCount, r) ← takeU8 r
    let (acked, remoteId, r) ← takeAcked ackCount.toNat r
    let (pid, r) ← takePid opcode r
    return { opcode, keyId, pid, sessionId, remoteId, payload := r, ackedPids := acked }

def ControlPacket.received (p : ControlPacket) (ack : List ℕ) : ControlPacket :=
  { p with keyId := p.keyId % 8, remoteId := if ack.isEmpty then .zero else p.remoteId, ackedPids := ack }

section RoundTrip

variable {p : ControlPacket} {ack : List ℕ} {r : List UInt8}

theorem takeU32_be32Bytes {v : ℕ} (hv : v < 2 ^ 32) : takeU32 (be32Bytes v ++ r) = .ok (v, r) := by
  have hbe : Packet.be32 (be32Bytes v ++ r) 0 = v := by
    simp [Packet.be32, Packet.be16, Packet.byte, be32Bytes, be16Bytes]
    omega
  have hlen : ¬ (be32Bytes v ++ r).length < 4 := by simp [be32Bytes, be16Bytes]
  rw [takeU32, if_neg hlen, hbe]
  rfl

theorem take8_append (id : SessionId) : take8 (id.val ++ r) = .ok (id, r) := by
  have hlen : ¬ (id.val ++ r).length < 8 := by
    rw [List.length_append, id.property]
    omega
  rw [take8, dif_neg hlen]
  simp [List.take_left' id.property, List.drop_left' id.property]

theorem takeAcks_append (h : ∀ a ∈ ack, a < 2 ^ 32) : takeAcks ack.length (ack.flatMap be32Bytes ++ r) =
    .ok (ack, r) := by
  induction ack with
  | nil => rfl
  | cons a ack ih =>
    obtain ⟨ha, hack⟩ := List.forall_mem_cons.mp h
    rw [List.length_cons, takeAcks, List.flatMap_cons, List.append_assoc, takeU32_be32Bytes ha]
    change (do
      let (pids, r) ← takeAcks ack.length (ack.flatMap be32Bytes ++ r)
      return (a :: pids, r)) = _
    rw [ih hack]
    rfl

theorem takeAcked_append (h : ∀ a ∈ ack, a < 2 ^ 32) :
    takeAcked ack.length ((if ack.isEmpty then [] else ack.flatMap be32Bytes ++ p.remoteId.val) ++ r) =
      .ok (ack, if ack.isEmpty then .zero else p.remoteId, r) := by
  cases ack with
  | nil => rfl
  | cons a ack =>
    rw [takeAcked, if_pos (show (a :: ack).length > 0 from Nat.succ_pos _)]
    simp only [List.isEmpty_cons, Bool.false_eq_true, if_false, List.append_assoc, takeAcks_append h,
      bind, Except.bind,
      take8_append]
    rfl

theorem takePid_append (hpid : p.pid = none ↔ p.opcode = .ACK_V1) (hlt : ∀ i ∈ p.pid, i < 2 ^ 32) :
    takePid p.opcode (p.pid.elim [] be32Bytes ++ r) = .ok (p.pid, r) := by
  unfold takePid
  cases hp : p.pid with
  | none =>
    rw [if_neg (not_not.mpr (hpid.mp hp))]
    rfl
  | some i =>
    rw [if_pos fun hop => by simp [hpid.mpr hop] at hp, Option.elim_some, takeU32_be32Bytes (hlt i hp)]
    rfl

/-- What was written is read back. -/
theorem parse_toBytes (hop : p.opcode.val < 32) (hpid : p.pid = none ↔ p.opcode = .ACK_V1)
    (hlt : ∀ i ∈ p.pid, i < 2 ^ 32)
    (hlen : ack.length < 256) (hack : ∀ a ∈ ack, a < 2 ^ 32) :
    ControlPacket.parse (p.toBytes ack) = .ok (p.received ack) := by
  have hcount : (UInt8.ofNat ack.length).toNat = ack.length := by
    rw [UInt8.toNat_ofNat']
    exact Nat.mod_eq_of_lt hlen
  rw [ControlPacket.toBytes, ControlPacket.parse, Opcode.fromByte_toByte hop]
  simp only [take8_append, takeU8, bind, Except.bind, hcount, takeAcked_append hack, takePid_append hpid hlt]
  rfl

end RoundTrip

end PktKit.Ovpn
