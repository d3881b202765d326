import PktKit.Vtcp.SeqSpace

/-! # Segments and their options

A segment as the engine sees it, parsed. The flag bits of the header are a record of
booleans; the checksum and the urgent pointer, which the engine never looks at, are left
out.
-/

namespace PktKit.Vtcp

def kindSack : UInt8 := 5

/-- A TCP option: its kind and its payload, without the kind and length bytes. -/
structure TcpOption where
  kind : UInt8
  data : List UInt8
deriving DecidableEq, Repr

/-- A SACK block: `[left, right)` in sequence space. -/
structure SackBlock where
  left : Seq
  right : Seq
deriving DecidableEq, Repr

/-- The smallest MSS sent with, whatever the peer advertises. -/
def MIN_MSS : ℕ := 88

/-- The number bytes stand for, the most significant first. -/
def ofBeBytes (bytes : List UInt8) : ℕ := bytes.foldl (fun n b => n * 256 + b.toNat) 0

def sackBlocksOf : List UInt8 → List SackBlock
  | a :: b :: c :: d :: e :: f :: g :: h :: rest =>
    ⟨BitVec.ofNat 32 (ofBeBytes [a, b, c, d]), BitVec.ofNat 32 (ofBeBytes [e, f, g, h])⟩ ::
      sackBlocksOf rest
  | _ => []

def getSackBlocks (opts : List TcpOption) : List SackBlock :=
  match opts.find? fun o => o.kind == kindSack && 8 ≤ o.data.length && o.data.length % 8 == 0 with
  | some o => sackBlocksOf o.data
  | none => []

structure Flags where
  fin : Bool := false
  syn : Bool := false
  rst : Bool := false
  psh : Bool := false
  ack : Bool := false
  urg : Bool := false
  ece : Bool := false
  cwr : Bool := false
deriving DecidableEq, Repr

structure Segment where
  srcPort : BitVec 16 := 0
  dstPort : BitVec 16 := 0
  seq : Seq := 0
  ack : Seq := 0
  flags : Flags := {}
  /-- the top bit of AccECN's ACE counter -/
  ae : Bool := false
  /-- the advertised window, unscaled as on the wire -/
  window : BitVec 16 := 0
  options : List TcpOption := []
  payload : List UInt8 := []
deriving DecidableEq, Repr

namespace Segment

end Segment

end PktKit.Vtcp
