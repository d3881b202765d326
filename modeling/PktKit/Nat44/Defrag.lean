import PktKit.Fragment
import PktKit.Time
import PktKit.Foundations.Tables

/-! # Reassembly

Fragments are kept by datagram until it is whole. Overlaps, data past the end and too many fragments
make a datagram be given up; so does its age, or a want of room.
-/

namespace PktKit.Nat44
open Foundations

def DEFRAG_TIMEOUT : Duration := .fromSecs 30
def DEFRAG_MAX_ENTRIES : ℕ := 256
def DEFRAG_MAX_FRAGS : ℕ := 256
def DEFRAG_MAX_BYTES : ℕ := 4 * 2 ^ 20

structure FragKey where
  zone : ℕ
  srcIp : List UInt8
  dstIp : List UInt8
  id : ℕ
  proto : UInt8
deriving DecidableEq

structure FragData where
  offset : ℕ
  data : List UInt8
  /-- the header, of the first fragment -/
  hdr : Option (List UInt8)

namespace FragData

/-- The size of the record itself: a word and two vectors of three words. -/
def SIZE : ℕ := 56

def charge (f : FragData) : ℕ := SIZE + f.data.length + f.hdr.elim 0 List.length

def stop (f : FragData) : ℕ := f.offset + f.data.length

end FragData

structure FragEntry where
  frags : List FragData := []
  created : Instant
  total : Option ℕ := none
  covered : ℕ := 0
  ecn : UInt8 := 0
  charge : ℕ := 0
  maxSize : ℕ := 0
  maxDfSize : ℕ := 0

/-- How large the fragments of a datagram were, and whether the largest was not to be fragmented. -/
structure FragMax where
  size : ℕ
  df : Bool
deriving DecidableEq

/-- Set or clear Don't Fragment, keeping the header checksum. -/
def setDf (p : Packet) (on : Bool) : Packet :=
  let old := [p.byte 6, p.byte 7]
  let p := p.setIpv4DontFragment on
  p.setBe16 10 (incrementalUpdate (p.be16 10) old [p.byte 6, p.byte 7])

/-- Cut a datagram into fragments no larger than those it came in; `none` if it goes as it is. -/
def FragMax.refragment (m : FragMax) (p : Packet) : Option (List Packet) :=
  if p.length ≤ m.size ∨ p.length < 20 then none
  else
    match fragmentIpv4 (setDf p false) (max m.size MIN_IPV4_MTU) with
    | .fragments parts => some (if m.df then parts.map (setDf · true) else parts)
    | _ => none

/-- The ECN field of a datagram whose fragments came with the codepoints `seen`. -/
def reassembledEcn (seen : UInt8) : Option (Option UInt8) :=
  if seen &&& 1 ≠ 0 ∧ seen ≠ 1 then none else some (if seen &&& 8 ≠ 0 then some 3 else none)

structure Defragger where
  entries : Table FragKey FragEntry := ∅
  charge : ℕ := 0

namespace FragEntry

/-- Note where the datagram ends; `none` if that was somewhere else before. -/
def noteEnd (e : FragEntry) (mf : Bool) (stop : ℕ) : Option FragEntry :=
  if mf then some e
  else if e.total.any (· ≠ stop) then none
  else some { e with total := some stop }

def pastEnd (e : FragEntry) (stop : ℕ) : Bool :=
  e.total.any fun total => total < stop || e.frags.getLast?.any (total < ·.stop)

/-- The fragments that start before `offset`, and the others. -/
def split (e : FragEntry) (offset : ℕ) : List FragData × List FragData := e.frags.span (·.offset < offset)

def overlaps (e : FragEntry) (f : FragData) : Bool :=
  let (before, after) := e.split f.offset
  before.getLast?.any (f.offset < ·.stop) || after.head?.any (·.offset < f.stop)

def insert (e : FragEntry) (f : FragData) (totalLen : ℕ) (df : Bool) (tos : UInt8) : FragEntry :=
  let (before, after) := e.split f.offset
  { e with
    maxSize := max e.maxSize totalLen
    maxDfSize := if df then max e.maxDfSize totalLen else e.maxDfSize
    covered := e.covered + f.data.length
    ecn := e.ecn ||| (1 <<< (tos &&& 3))
    charge := e.charge + f.charge
    frags := before ++ f :: after }

def join (e : FragEntry) (total : ℕ) : List UInt8 :=
  e.frags.foldl (fun out f => overwrite out f.offset (f.data.take (min f.stop total - f.offset)))
    (List.replicate total 0)

end FragEntry

namespace Defragger

def dropEntry (d : Defragger) (k : FragKey) : Defragger :=
  match d.entries.lookup k with
  | some e => { entries := d.entries.erase k, charge := d.charge - e.charge }
  | none => d

def expire (d : Defragger) (now : Instant) : Defragger :=
  let live (_ : FragKey) (e : FragEntry) : Bool := now - e.created < DEFRAG_TIMEOUT
  { entries := d.entries.retain live
    charge := d.charge - ((d.entries.retain fun k e => !live k e).values.map (·.charge)).sum }

/-- Drop the oldest datagram but `keep`; `none` if there is no other. -/
def evictOldest (d : Defragger) (keep : FragKey) : Option Defragger :=
  ((d.entries.entries.filter (·.1 ≠ keep)).argmin fun e => e.2.created).map fun e => d.dropEntry e.1

/-- Make room in the table for a datagram that is new. -/
def admitEntry (d : Defragger) (k : FragKey) (now : Instant) : Defragger :=
  if (d.entries.lookup k).isSome then d
  else
    let d := d.expire now
    if DEFRAG_MAX_ENTRIES ≤ d.entries.entries.length then (d.evictOldest k).getD d else d

/-- Drop older datagrams while there is too much, and last `k` itself; says whether `k` stayed. The
number of datagrams bounds the rounds. -/
def makeRoom (d : Defragger) (k : FragKey) : ℕ → Bool × Defragger
  | 0 => (false, d.dropEntry k)
  | n + 1 =>
    if d.charge ≤ DEFRAG_MAX_BYTES then (true, d)
    else
      match d.evictOldest k with
      | some d => makeRoom d k n
      | none => (false, d.dropEntry k)

def rebuild (hdr data : List UInt8) (df : Bool) (ecn : Option UInt8) : Packet :=
  let result : Packet := hdr ++ data
  let result := result.setBe16 2 result.length
  let result : Packet := overwrite result 6 [if df then 0x40 else 0, 0]
  let result : Packet := match ecn with
    | some e => result.setByte 1 ((result.byte 1 &&& 0xFC) ||| e)
    | none => result
  let result := result.setBe16 10 0
  result.setBe16 10 (checksum (result.take hdr.length))

/-- Put a datagram together if it is whole. -/
def complete (d : Defragger) (k : FragKey) : Option (Packet × Option FragMax) × Defragger :=
  match d.entries.lookup k with
  | none => (none, d)
  | some e =>
    match e.total with
    | none => (none, d)
    | some total =>
      if e.covered < total then (none, d)
      else
        match e.frags.findSome? (·.hdr) with
        | none => (none, d.dropEntry k)
        | some hdr =>
          let data := e.join total
          let max : FragMax := ⟨e.maxSize, e.maxDfSize = e.maxSize⟩
          let d := d.dropEntry k
          match reassembledEcn e.ecn with
          | none => (none, d)
          | some ecn =>
            if 65535 < hdr.length + data.length then (none, d)
            else (some (rebuild hdr data max.df ecn, some max), d)

def accept (d : Defragger) (k : FragKey) (f : FragData) (mf df : Bool) (totalLen : ℕ) (tos : UInt8)
    (now : Instant) :
    Option (Packet × Option FragMax) × Defragger :=
  let d := d.admitEntry k now
  match ((d.entries.lookup k).getD { created := now }).noteEnd mf f.stop with
  | none => (none, d.dropEntry k)
  | some e =>
    if e.pastEnd f.stop then (none, d.dropEntry k)
    else if e.overlaps f ∨ DEFRAG_MAX_FRAGS ≤ e.frags.length then (none, d.dropEntry k)
    else
      let d : Defragger :=
        { entries := d.entries.insert k (e.insert f totalLen df tos), charge := d.charge + f.charge }
      match d.makeRoom k (d.entries.entries.length + 1) with
      | (false, d) => (none, d)
      | (true, d) => d.complete k

def reassembleAt (d : Defragger) (zone : ℕ) (p : Packet) (now : Instant) :
    Option (Packet × Option FragMax) × Defragger :=
  if p.length < 20 then (some (p, none), d)
  else
    let mf := p.ipv4MoreFragments
    let fragOffset := p.ipv4FragmentOffset
    if !mf ∧ fragOffset = 0 then (some (p, none), d)
    else
      let ihl := p.ipv4HeaderLen
      let totalLen := p.ipv4TotalLen
      if ihl < 20 ∨ totalLen < ihl ∨ p.length < totalLen then (none, d)
      else
        let payload := slice p ihl totalLen
        let stop := fragOffset + payload.length
        if (mf ∧ payload.length % 8 ≠ 0) ∨ payload = [] ∨ 65535 < ihl + stop then (none, d)
        else
          let f : FragData := ⟨fragOffset, payload, if fragOffset = 0 then some (p.take ihl) else none⟩
          d.accept ⟨zone, p.src, p.dst, p.be16 4, p.byte 9⟩ f mf p.ipv4DontFragment totalLen (p.byte 1) now

/-- What comes of some packets, one after the other. -/
def feed (zone : ℕ) : Defragger → List (Packet × Instant) → List (Option (Packet × Option FragMax)) × Defragger
  | d, [] => ([], d)
  | d, (p, now) :: rest =>
    let (r, d) := d.reassembleAt zone p now
    let (rs, d) := feed zone d rest
    (r :: rs, d)

end Defragger

/-! ## The sorted fragments of an entry -/

section Sorted

variable {fs : List FragData} {f : FragData} {o : ℕ}

/-- Fragments in order, none of them empty. -/
def Sorted (fs : List FragData) : Prop := fs.Pairwise fun f g => f.stop ≤ g.offset

theorem offset_of_mem_dropWhile (hs : Sorted fs) (hpos : ∀ g ∈ fs, g.offset < g.stop) :
    ∀ g ∈ fs.dropWhile (·.offset < o), o ≤ g.offset := by
  induction fs with
  | nil => simp
  | cons a fs ih =>
    obtain ⟨ha, hs⟩ := List.pairwise_cons.mp hs
    rw [List.dropWhile_cons]
    split
    · exact ih hs fun g hg => hpos g (List.mem_cons_of_mem a hg)
    · next h =>
      have hle : o ≤ a.offset := by simpa using h
      rintro g hg
      rcases List.mem_cons.mp hg with rfl | hg
      · exact hle
      · have := ha g hg
        have := hpos a List.mem_cons_self
        omega

theorem offset_of_mem_takeWhile : ∀ g ∈ fs.takeWhile (·.offset < o), g.offset < o := fun g hg => by
  simpa using List.mem_takeWhile_imp hg

/-- Put a fragment in its place among others it does not overlap. -/
theorem Sorted.insert (hs : Sorted fs) (hpos : ∀ g ∈ fs, g.offset < g.stop)
    (hdisj : ∀ g ∈ fs, g.stop ≤ f.offset ∨ f.stop ≤ g.offset) (hf : f.offset < f.stop) :
    Sorted (fs.takeWhile (·.offset < f.offset) ++ f :: fs.dropWhile (·.offset < f.offset)) := by
  have hsplit : Sorted (fs.takeWhile (·.offset < f.offset) ++ fs.dropWhile (·.offset < f.offset)) := by
    rwa [List.takeWhile_append_dropWhile]
  obtain ⟨hbefore, hafter, hcross⟩ := List.pairwise_append.mp hsplit
  have hlt : ∀ g ∈ fs.takeWhile (·.offset < f.offset), g.stop ≤ f.offset := fun g hg => by
    have := offset_of_mem_takeWhile g hg
    have := hdisj g ((List.takeWhile_sublist _).subset hg)
    omega
  have hge : ∀ g ∈ fs.dropWhile (·.offset < f.offset), f.stop ≤ g.offset := fun g hg => by
    have hmem := (List.dropWhile_sublist _).subset hg
    have := offset_of_mem_dropWhile hs hpos g hg
    have := hdisj g hmem
    have := hpos g hmem
    omega
  refine List.pairwise_append.mpr ⟨hbefore, List.pairwise_cons.mpr ⟨hge, hafter⟩, fun g hg g' hg' => ?_⟩
  rcases List.mem_cons.mp hg' with rfl | hg'
  · exact hlt g hg
  · exact hcross g hg g' hg'

theorem Sorted.stop_le_getLast (hs : Sorted fs) (hpos : ∀ g ∈ fs, g.offset < g.stop) {last g : FragData}
    (hlast : fs.getLast? = some last) (hg : g ∈ fs) : g.stop ≤ last.stop := by
  obtain ⟨init, rfl⟩ := List.getLast?_eq_some_iff.mp hlast
  rcases List.mem_append.mp hg with hinit | hone
  · have hle := (List.pairwise_append.mp hs).2.2 g hinit last (List.mem_singleton_self last)
    exact hle.trans (hpos last (by simp)).le
  · rw [List.mem_singleton.mp hone]

theorem Sorted.head_le (hs : Sorted fs) (hpos : ∀ g ∈ fs, g.offset < g.stop) {first g : FragData}
    (hfirst : fs.head? = some first) (hg : g ∈ fs) : first.offset ≤ g.offset := by
  obtain ⟨rest, rfl⟩ := List.head?_eq_some_iff.mp hfirst
  rcases List.mem_cons.mp hg with rfl | hrest
  · exact le_rfl
  · exact (hpos first List.mem_cons_self).le.trans ((List.pairwise_cons.mp hs).1 g hrest)

/-- It is enough to look at the two neighbours. -/
theorem FragEntry.overlaps_eq_false {e : FragEntry} (hs : Sorted e.frags) (hpos : ∀ g ∈ e.frags, g.offset < g.stop)
    (hf : f.offset < f.stop) :
    e.overlaps f = false ↔ ∀ g ∈ e.frags, g.stop ≤ f.offset ∨ f.stop ≤ g.offset := by
  have hsplit : Sorted (e.frags.takeWhile (·.offset < f.offset) ++ e.frags.dropWhile (·.offset < f.offset)) := by
    rwa [List.takeWhile_append_dropWhile]
  obtain ⟨hbefore, hafter, -⟩ := List.pairwise_append.mp hsplit
  have hposBefore : ∀ g ∈ e.frags.takeWhile (·.offset < f.offset), g.offset < g.stop :=
    fun g hg => hpos g ((List.takeWhile_sublist _).subset hg)
  have hposAfter : ∀ g ∈ e.frags.dropWhile (·.offset < f.offset), g.offset < g.stop :=
    fun g hg => hpos g ((List.dropWhile_sublist _).subset hg)
  simp only [FragEntry.overlaps, FragEntry.split, List.span_eq_takeWhile_dropWhile, Bool.or_eq_false_iff,
    Option.any_eq_false, decide_eq_false_iff_not, not_lt]
  constructor
  · rintro ⟨hlast, hfirst⟩ g hg
    rw [← List.takeWhile_append_dropWhile (p := (·.offset < f.offset)) (l := e.frags), List.mem_append] at hg
    rcases hg with hg | hg
    · obtain ⟨last, hl⟩ := Option.isSome_iff_exists.mp (List.getLast?_isSome.mpr (List.ne_nil_of_mem hg))
      exact .inl ((Sorted.stop_le_getLast hbefore hposBefore hl hg).trans (hlast last hl))
    · obtain ⟨first, hl⟩ := Option.isSome_iff_exists.mp (List.isSome_head?.mpr (List.ne_nil_of_mem hg))
      exact .inr ((hfirst first hl).trans (Sorted.head_le hafter hposAfter hl hg))
  · intro hdisj
    constructor
    · intro g hg
      have hmem := List.mem_of_getLast? hg
      have hlt := offset_of_mem_takeWhile g hmem
      have := hdisj g ((List.takeWhile_sublist _).subset hmem)
      omega
    · intro g hg
      have hmem := List.mem_of_mem_head? hg
      have hle := offset_of_mem_dropWhile hs hpos g hmem
      have := hdisj g ((List.dropWhile_sublist _).subset hmem)
      have := hposAfter g hmem
      omega

end Sorted

end PktKit.Nat44
