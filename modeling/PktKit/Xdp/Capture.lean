import PktKit.Xdp.Rules

/-! # The capture set

The prefixes a capture holds with their rules, and the two tries the program reads. A trie answers with
its longest match only, so each entry is written with the rules it inherits from the prefixes around
it. Every write to a trie may fail.
-/

namespace PktKit.Xdp
open Foundations

inductive MatchField
  | dst
  | src
  | either
deriving DecidableEq

namespace MatchField

end MatchField

structure Action where
  code : UInt32
deriving DecidableEq

namespace Action

def PASS : Action := ⟨2⟩

end Action

structure CaptureConfig where
  matchField : MatchField := .dst
  arp : Bool := true
  neighborDiscovery : Bool := true
  defaultAction : Action := .PASS
  minPrefixV4 : ℕ := 1
  minPrefixV6 : ℕ := 1
  maxPrefixes : ℕ := 1024
  maxRulesPerPrefix : ℕ := 8
  maxQueues : ℕ := 64

/-- Why a call is refused. -/
inductive CaptureError
  | minPrefixZero
  | minPrefixV4 (min : ℕ)
  | minPrefixV6 (min : ℕ)
  | defaultAction (a : Action)
  | zeroCapacity
  | maxRules (n : ℕ)
  | tooBroad (p : IpPrefix) (min : ℕ)
  | portRule (p : Protocol)
  | rulesFull (p : IpPrefix) (held : ℕ)
  | coversFamily (p : IpPrefix)
  | inheritedRules (p : IpPrefix) (rules max : ℕ)
  /-- a trie did not take a write -/
  | write
deriving DecidableEq

namespace CaptureConfig

/-- A prefix is no broader than the configuration allows, and never a `/0`. -/
def checkPrefix (cfg : CaptureConfig) (p : IpPrefix) : Except CaptureError Unit :=
  let min := if p.isV4 then max cfg.minPrefixV4 1 else max cfg.minPrefixV6 1
  if min ≤ p.bits then .ok () else .error (.tooBroad p min)

end CaptureConfig

def Rule.validate : Rule → Except CaptureError Unit
  | .port p n => if (Rule.port p n).valid then .ok () else .error (.portRule p)
  | _ => .ok ()

def U128_MAX : ℕ := 2 ^ 128 - 1

/-- The addresses covered in a family, saturating; overlapping prefixes count twice. -/
def coverage (prefixes : List IpPrefix) (v4 : Bool) : ℕ :=
  let width := if v4 then 32 else 128
  (prefixes.filter (·.isV4 = v4)).foldl
    (fun acc p =>
      let hostBits := width - min p.bits width
      let n := if hostBits < 128 then 2 ^ hostBits else U128_MAX
      min (acc + n) U128_MAX) 0

def familyTotal (v4 : Bool) : ℕ := if v4 then 2 ^ 32 else U128_MAX

def checkCoverage (held : List IpPrefix) (new : IpPrefix) : Except CaptureError Unit :=
  if familyTotal new.isV4 ≤ coverage (held ++ [new]) new.isV4 then .error (.coversFamily new) else .ok ()

/-- One prefix of the set and the rules it was given. -/
structure Entry where
  pfx : IpPrefix
  rules : List Rule
deriving DecidableEq

def withRules (es : List Entry) (p : IpPrefix) (rules : Entry → List Rule) : List Entry :=
  es.replaceF fun e => if e.pfx = p then some ⟨p, rules e⟩ else none

def encloses (outer inner : IpPrefix) : Bool :=
  outer.isV4 == inner.isV4 && decide (outer.bits ≤ inner.bits) && outer.contains inner.addr

def addRules (rules new : List Rule) : List Rule :=
  new.foldl (fun rules r => if rules.contains r then rules else rules ++ [r]) rules

/-- What the trie entry of a prefix has to hold: its own rules and those of every prefix around it, the
narrower first; `any` stands for all of them. -/
def effectiveRules (entries : List Entry) (p : IpPrefix) : Option (List Rule) :=
  match entries.find? (·.pfx = p) with
  | none => none
  | some own =>
    let outer := (entries.filter fun e => e.pfx ≠ p && encloses e.pfx p).mergeSort fun e f =>
      f.pfx.bits ≤ e.pfx.bits
    let rules := addRules own.rules (outer.flatMap (·.rules))
    some (if rules.contains .any then [.any] else rules)

/-- The two tries, told apart by the family of the address in the key. -/
abbrev Tries := ℕ × IpAddr → Option (List UInt8)

def lpmKey (p : IpPrefix) : ℕ × IpAddr := (p.masked.bits, p.masked.addr)

/-- The value of the longest prefix of an address. -/
def Tries.lookup (t : Tries) : IpAddr → Option (List UInt8)
  | .v4 a => longest (fun k => t (k.1, .v4 k.2)) a
  | .v6 a => longest (fun k => t (k.1, .v6 k.2)) a

def Tries.apply (t : Tries) (maxRules : ℕ) (p : IpPrefix) (rules : Option (List Rule)) : Tries :=
  Function.update t (lpmKey p) (rules.map (encodeRules · maxRules))

structure Capture where
  entries : List Entry := []
  tries : Tries := fun _ => none

/-- Without what equals the element before it. -/
def dedup {α : Type*} [DecidableEq α] : List α → List α
  | a :: b :: l => if a = b then dedup (b :: l) else a :: dedup (b :: l)
  | l => l

/-- The prefixes whose entries follow a change of `changed`: those nested in it, the longest first,
and then itself. -/
def affected (held new : List Entry) (changed : IpPrefix) : List IpPrefix :=
  dedup ((((held ++ new).map (·.pfx)).filter fun p => p ≠ changed && encloses changed p).mergeSort fun p q =>
    q.bits < p.bits ∨ (p.bits = q.bits ∧ p.addr.toNat ≤ q.addr.toNat)) ++ [changed]

/-- A trie entry to change: what it holds and what it has to hold. -/
structure Change where
  pfx : IpPrefix
  before : Option (List Rule)
  after : Option (List Rule)

/-- The changes to make, if every entry keeps to the limit. -/
def plan (maxRules : ℕ) (held new : List Entry) : List IpPrefix → Except CaptureError (List Change)
  | [] => .ok []
  | p :: ps =>
    let before := effectiveRules held p
    let after := effectiveRules new p
    if after.any (maxRules < ·.length) then .error (.inheritedRules p (after.getD []).length maxRules)
    else (plan maxRules held new ps).map fun rest => if before ≠ after then ⟨p, before, after⟩ :: rest else rest

/-- Put back what entries held, whatever comes of it; write `i` is taken if `ok i`. -/
def rollback (maxRules : ℕ) (ok : ℕ → Bool) : ℕ → List Change → Tries → Tries
  | _, [], t => t
  | i, c :: cs, t => rollback maxRules ok (i + 1) cs (if ok i then t.apply maxRules c.pfx c.before else t)

/-- Make the changes; if a write fails, put back those made. -/
def applyAll (maxRules : ℕ) (ok : ℕ → Bool) : ℕ → List Change → List Change → Tries → Bool × Tries
  | _, _, [], t => (true, t)
  | i, made, c :: cs, t =>
    if ok i then applyAll maxRules ok (i + 1) (made ++ [c]) cs (t.apply maxRules c.pfx c.after)
    else (false, rollback maxRules ok (i + 1) made t)

namespace Capture

variable (cfg : CaptureConfig) (ok : ℕ → Bool)

/-- Bring the tries to `new`, which differs from the record only in `changed`. -/
def commit (c : Capture) (new : List Entry) (changed : IpPrefix) : Except CaptureError Unit × Capture :=
  match plan cfg.maxRulesPerPrefix c.entries new (affected c.entries new changed) with
  | .error e => (.error e, c)
  | .ok changes =>
    match applyAll cfg.maxRulesPerPrefix ok 0 [] changes c.tries with
    | (true, t) => (.ok (), ⟨new, t⟩)
    | (false, t) => (.error .write, { c with tries := t })

def addRule (c : Capture) (p : IpPrefix) (rule : Rule) : Except CaptureError Unit × Capture :=
  let p := p.masked
  match cfg.checkPrefix p, rule.validate with
  | .error e, _ => (.error e, c)
  | .ok _, .error e => (.error e, c)
  | .ok _, .ok _ =>
    match c.entries.find? (·.pfx = p) with
    | some e =>
      if e.rules.contains rule then (.ok (), c)
      else if cfg.maxRulesPerPrefix ≤ e.rules.length then (.error (.rulesFull p e.rules.length), c)
      else c.commit cfg ok (withRules c.entries p fun e => e.rules ++ [rule]) p
    | none =>
      match checkCoverage (c.entries.map (·.pfx)) p with
      | .error e => (.error e, c)
      | .ok _ => c.commit cfg ok (c.entries ++ [⟨p, [rule]⟩]) p

def add (c : Capture) (p : IpPrefix) : Except CaptureError Unit × Capture := c.addRule cfg ok p .any

def remove (c : Capture) (p : IpPrefix) : Except CaptureError Bool × Capture :=
  let p := p.masked
  match c.entries.find? (·.pfx = p) with
  | none =>
    if ok 0 then (.ok (c.tries (lpmKey p)).isSome, { c with tries := Function.update c.tries (lpmKey p) none })
    else (.error .write, c)
  | some _ =>
    let (r, c) := c.commit cfg ok (c.entries.eraseP (·.pfx = p)) p
    (r.map fun _ => true, c)

def removeRule (c : Capture) (p : IpPrefix) (rule : Rule) : Except CaptureError Bool × Capture :=
  let p := p.masked
  match c.entries.find? (·.pfx = p) with
  | none => (.ok false, c)
  | some e =>
    if !e.rules.contains rule then (.ok false, c)
    else
      let rules := e.rules.erase rule
      let new := if rules.isEmpty then c.entries.eraseP (·.pfx = p)
        else withRules c.entries p fun _ => rules
      let (r, c) := c.commit cfg ok new p
      (r.map fun _ => true, c)

end Capture

/-! ## Runs -/

inductive Op
  | add (p : IpPrefix)
  | addRule (p : IpPrefix) (rule : Rule)
  | remove (p : IpPrefix)
  | removeRule (p : IpPrefix) (rule : Rule)

structure Call where
  op : Op
  ok : ℕ → Bool

def Capture.call (cfg : CaptureConfig) (c : Capture) (call : Call) : Option CaptureError × Capture :=
  match call.op with
  | .add p => errorOf (c.add cfg call.ok p)
  | .addRule p rule => errorOf (c.addRule cfg call.ok p rule)
  | .remove p => errorOf (c.remove cfg call.ok p)
  | .removeRule p rule => errorOf (c.removeRule cfg call.ok p rule)
where
  errorOf {α : Type} : Except CaptureError α × Capture → Option CaptureError × Capture
    | (.ok _, c) => (none, c)
    | (.error e, c) => (some e, c)

/-- The writes of a rollback succeed: those after the first that fails. -/
def Call.RollsBack (call : Call) : Prop := ∀ i j, call.ok i = false → i < j → call.ok j = true

def Capture.run (cfg : CaptureConfig) (calls : List Call) : Capture :=
  calls.foldl (fun c call => (c.call cfg call).2) {}

end PktKit.Xdp
