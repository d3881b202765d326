import PktKit.Vtcp.Segment

/-! # Explicit congestion notification

The feedback both ends settle on in the handshake, classic or accurate, and what each then
counts of the marks it receives and hears of.
-/

namespace PktKit.Vtcp

/-- Whether a connection uses ECN, and asks for it. -/
inductive EcnMode where
  | off
  | passive
  | classic
  | accurate
deriving DecidableEq, Repr

inductive IpEcn where
  | notEct
  | ect1
  | ect0
  | ce
deriving DecidableEq, Repr

inductive Feedback where
  | off
  | classic
  | accurate
deriving DecidableEq, Repr

/-- The ACE field: AE, CWR and ECE as a number of three bits. -/
def ace (seg : Segment) : ℕ := seg.ae.toNat * 4 + seg.flags.cwr.toNat * 2 + seg.flags.ece.toNat

def setAce (seg : Segment) (ace : ℕ) : Segment :=
  { seg with
    ae := ace / 4 % 2 == 1
    flags := { seg.flags with cwr := ace / 2 % 2 == 1, ece := ace % 2 == 1 } }

def handshakeCode : IpEcn → ℕ
  | .notEct => 0b010
  | .ect1 => 0b011
  | .ect0 => 0b100
  | .ce => 0b110

def FRAC_ONE : ℕ := 1024

/-- A connection's ECN state; the counters `rCep` and `sCep` wrap. -/
structure Ecn where
  fb : Feedback := .off
  /-- our segments may be sent ECN-capable -/
  ect : Bool := false
  /-- the peer's feedback is acted on -/
  respond : Bool := false
  demandCwr : Bool := false
  sendCwr : Bool := false
  rCep : BitVec 32 := 0
  sCep : BitVec 32 := 0
  ceUnacked : ℕ := 0
  lastCe : Bool := false
  /-- client: what the SYN-ACK came with, and the ACK number that acknowledges it alone -/
  synack : Option (IpEcn × Seq) := none
  synIp : IpEcn := .notEct
  syns : ℕ := 0
  ackNow : Bool := false
  ceFrac : ℕ := 0
deriving DecidableEq, Repr

namespace Ecn

/-- `seg`, which arrived with `ip`, passed the sequence, PAWS and ACK checks. -/
def onReceive (e : Ecn) (seg : Segment) (ip : IpEcn) : Ecn :=
  let data := !seg.payload.isEmpty
  let ce := ip == .ce
  let e := { e with ackNow := false }
  match e.fb with
  | .off => e
  | .classic =>
    if !data then e
    else
      let e := if seg.flags.cwr then { e with demandCwr := false, ackNow := true } else e
      if ce then { e with ackNow := e.ackNow || !e.demandCwr, demandCwr := true } else e
  | .accurate =>
    let e := if ce then { e with rCep := e.rCep + 1, ceUnacked := e.ceUnacked + 1 } else e
    let n := if data then 2 else 3
    { e with ackNow := e.ackNow || (ce && data && !e.lastCe) || n ≤ e.ceUnacked, lastCe := ce }

/-- Whether `seg` acknowledges the SYN-ACK alone. -/
def acksSynack (seg : Segment) (irs1 : Seq) : Bool :=
  seg.ack == irs1 && seg.payload.isEmpty && !seg.flags.fin && (getSackBlocks seg.options).isEmpty

/-- Put the ECN flags on `seg`, about to go out; also the codepoint it goes with. -/
def mark (e : Ecn) (seg : Segment) (newData : Bool) : Ecn × Segment × IpEcn :=
  if seg.flags.syn || seg.flags.rst || !seg.flags.ack then (e, seg, .notEct)
  else
    let ect := if e.ect then IpEcn.ect0 else .notEct
    match e.fb with
    | .off => (e, seg, .notEct)
    | .classic =>
      let cwr := newData && e.sendCwr
      ({ e with sendCwr := if cwr then false else e.sendCwr },
        { seg with flags := { seg.flags with
            ece := seg.flags.ece || e.demandCwr
            cwr := seg.flags.cwr || cwr } },
        if newData then ect else .notEct)
    | .accurate =>
      let code :=
        match e.synack with
        | some (ip, irs1) => if acksSynack seg irs1 then handshakeCode ip else e.rCep.toNat % 8
        | none => e.rCep.toNat % 8
      ({ e with ceUnacked := 0 }, setAce seg code, ect)

/-- The peer's feedback on an ACK delivering `delivered` bytes in segments of `mss`: the bytes to
count as marked, if it signals congestion. -/
def onAck (e : Ecn) (seg : Segment) (progress : Bool) (delivered mss : ℕ) : Ecn × Option ℕ :=
  match e.fb with
  | .off => (e, none)
  | .classic => (e, if e.respond && seg.flags.ece then some (max delivered 1) else none)
  | .accurate =>
    if !progress then (e, none)
    else
      let delta := (BitVec.ofNat 32 (ace seg) - e.sCep).toNat % 8
      let pkts := min ((delivered + max mss 1 - 1) / max mss 1) (2 ^ 20)
      let expected := (pkts * e.ceFrac + FRAC_ONE - 1) / FRAC_ONE
      -- a wrap of the counter is presumed where eight marks or more were likely
      let delta := if 7 < expected ∧ delta ≤ expected then expected - (expected - delta) % 8 else delta
      let sample := min delta pkts * FRAC_ONE / max pkts 1
      ({ e with
          ceFrac := e.ceFrac - e.ceFrac / 8 + sample / 8
          sCep := e.sCep + BitVec.ofNat 32 delta },
        if e.respond && 0 < delta then some (max (min (min (delta * mss) (2 ^ 32 - 1)) delivered) 1)
        else none)

end Ecn

end PktKit.Vtcp
