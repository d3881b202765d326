import PktKit.Foundations.Maxima
import PktKit.Ip

/-! # The routing hub

A unicast packet goes to the device that has its destination as its own address, else to the one with the longest
prefix around it, else to the default route; never back to where it came from. The check of a packet's source
against the port it came in by follows the same rules in a loop of its own.
-/

namespace PktKit

def IpPrefix.isValid (p : IpPrefix) : Bool := p.addr.toNat != 0 || p.bits != 0

namespace L3
open Foundations

abbrev PortId := ℕ

/-- A connected device: its own address with the network it is on, and whether the sources it uses are checked. -/
structure Port where
  id : PortId
  addr : IpPrefix
  strictRpf : Bool := false
deriving DecidableEq

inductive Route
  | port (p : Port)
  | default
deriving DecidableEq

/-- The best so far with its prefix length, and whether the sender is one of the best, after one more device. The
first attached wins a tie. -/
def weigh (source : PortId) (p : Port) : Option (ℕ × Port) → Bool → Option (ℕ × Port) × Bool
  | some (b, q), senderSide =>
    if p.addr.bits < b then (some (b, q), senderSide)
    else if b = p.addr.bits then (some (b, q), senderSide || p.id == source)
    else (some (p.addr.bits, p), p.id == source)
  | none, _ => (some (p.addr.bits, p), p.id == source)

def selectFrom (source : PortId) (dst : IpAddr) : Option (ℕ × Port) → Bool → List Port → Route
  | best, senderSide, [] =>
    match best with
    | some (_, p) => if senderSide then .default else .port p
    | none => .default
  | best, senderSide, p :: ports =>
    if !p.addr.isValid || !p.addr.contains dst then selectFrom source dst best senderSide ports
    else if p.addr.addr = dst then .port p
    else
      let r := weigh source p best senderSide
      selectFrom source dst r.1 r.2 ports

def select (ports : List Port) (source : PortId) (dst : IpAddr) : Route := selectFrom source dst none false ports

/-- Sources that belong to a link and are not routed: unspecified and link-local ones. -/
def linkScoped : IpAddr → Bool
  | .v4 a => a == 0 || a >>> 16 == 0xA9FE
  | .v6 a => a == 0 || a >>> 118 == 0x3FA

/-- The longest prefix so far, and whether the port's is that long, after one more device. -/
def weighBits (source : PortId) (p : Port) : Option ℕ → Bool → Option ℕ × Bool
  | some b, fromBest =>
    if p.addr.bits < b then (some b, fromBest)
    else if b = p.addr.bits then (some b, fromBest || p.id == source)
    else (some p.addr.bits, p.id == source)
  | none, _ => (some p.addr.bits, p.id == source)

def reversePathFrom (defaultRoute : Option PortId) (source : PortId) (src : IpAddr) :
    Option ℕ → Bool → List Port → Bool
  | best, fromBest, [] =>
    match best with
    | some _ => fromBest
    | none => defaultRoute == some source
  | best, fromBest, p :: ports =>
    if !p.addr.isValid || !p.addr.contains src then reversePathFrom defaultRoute source src best fromBest ports
    else if p.addr.addr = src then p.id == source
    else
      let r := weighBits source p best fromBest
      reversePathFrom defaultRoute source src r.1 r.2 ports

/-- The attached devices in the order they were attached, each with an id of its own, and the default route. -/
structure L3Hub where
  ports : List Port := []
  defaultRoute : Option PortId := none
  nodup : (ports.map Port.id).Nodup := by decide

/-- What `route` reads of a packet. -/
structure Pkt where
  src : IpAddr
  dst : IpAddr
  hopLimit : ℕ

def isGroup : IpAddr → Bool
  | .v4 a => a == 0xFFFFFFFF || a >>> 28 == 0xE
  | .v6 a => a >>> 120 == 0xFF

/-- What becomes of a packet: sent to one port, to all but the sender's, run out of hops, or dropped. -/
inductive Outcome
  | send (p : Port)
  | flood (ports : List Port)
  | expire
  | drop

namespace L3Hub

def reversePathOk (h : L3Hub) (source : PortId) (src : IpAddr) : Bool :=
  linkScoped src || reversePathFrom h.defaultRoute source src none false h.ports

def gateway (h : L3Hub) : Option Port := h.defaultRoute.bind fun d => h.ports.find? (·.id == d)

/-- The port a unicast packet is handed to: never the one it came from. -/
def nextHop (h : L3Hub) (source : PortId) (dst : IpAddr) : Option Port :=
  let out := match select h.ports source dst with
    | .port p => some p
    | .default => h.gateway
  out.filter (·.id != source)

def route (h : L3Hub) (pkt : Pkt) (source : PortId) : Outcome :=
  match h.ports.find? (·.id == source) with
  | none => .drop
  | some s =>
    if s.strictRpf && !h.reversePathOk source pkt.src then .drop
    else if isGroup pkt.dst then
      match h.ports.filter (·.id != source) with
      | [] => .drop
      | ports => .flood ports
    else
      match h.nextHop source pkt.dst with
      | none => .drop
      | some p => if pkt.hopLimit ≤ 1 then .expire else .send p

end L3Hub

/-! ## The documented rules -/

/-- The device has the address as its own. One with no address owns nothing. -/
def owns (a : IpAddr) (p : Port) : Bool := p.addr.isValid && p.addr.addr == a

def onNetwork (a : IpAddr) (p : Port) : Bool := p.addr.isValid && p.addr.contains a

/-- The devices with the longest prefix that contains the address. -/
def longest (a : IpAddr) (ports : List Port) : List Port := maxima (·.addr.bits) (ports.filter (onNetwork a))

/-- The first owner; the default route for the sender's own side and for what no prefix contains; the first of those
with the longest prefix. -/
def documented (ports : List Port) (source : PortId) (dst : IpAddr) : Route :=
  match ports.find? (owns dst) with
  | some p => .port p
  | none =>
    match longest dst ports with
    | [] => .default
    | p :: ps => if (p :: ps).any (·.id == source) then .default else .port p

section

variable {a : IpAddr} {p : Port} {ports : List Port} {source : PortId}

theorem onNetwork_of_owns (h : owns a p) : onNetwork a p := by
  simp only [owns, onNetwork, Bool.and_eq_true, beq_iff_eq] at h ⊢
  refine ⟨h.1, ?_⟩
  rw [IpPrefix.contains_iff, h.2]

theorem longest_concat_other (hp : ¬onNetwork a p) : longest a (ports ++ [p]) = longest a ports := by
  simp [longest, List.filter_append, hp]

theorem longest_concat (hp : onNetwork a p) : longest a (ports ++ [p]) =
    match longest a ports with
    | [] => [p]
    | q :: qs =>
      if p.addr.bits < q.addr.bits then q :: qs
      else if q.addr.bits = p.addr.bits then q :: qs ++ [p]
      else [p] := by
  have hfilter : (ports ++ [p]).filter (onNetwork a) = ports.filter (onNetwork a) ++ [p] := by
    simp [List.filter_append, hp]
  cases hl : longest a ports with
  | nil =>
    rw [longest, maxima_eq_nil] at hl
    rw [longest, hfilter, hl]
    exact maxima_concat_gt (by simp)
  | cons q qs =>
    have hq : q ∈ maxima (·.addr.bits) (ports.filter (onNetwork a)) := by
      rw [← longest, hl]
      exact List.mem_cons_self
    rw [longest, hfilter]
    dsimp only
    split
    · next hlt => rw [maxima_concat_lt hq hlt, ← longest, hl]
    split
    · next heq => rw [maxima_concat_eq hq heq.symm, ← longest, hl]
    · next hlt hne =>
      refine maxima_concat_gt fun c hc => ?_
      have hle := (mem_maxima.mp hq).2 c hc
      omega

/-- What the loops keep of the devices they have passed. -/
structure Passed (source : PortId) (a : IpAddr) (passed : List Port) (best : Option (ℕ × Port)) (side : Bool) :
    Prop where
  none_owns : ∀ p ∈ passed, ¬owns a p
  best : best = (longest a passed).head?.map fun p => (p.addr.bits, p)
  side : side = (longest a passed).any (·.id == source)

variable {passed : List Port} {best : Option (ℕ × Port)} {side : Bool}

theorem Passed.nil : Passed source a [] none false := ⟨by simp, rfl, rfl⟩

theorem Passed.none_owns_concat (h : Passed source a passed best side) (hp : ¬owns a p) :
    ∀ q ∈ passed ++ [p], ¬owns a q := by
  intro q hq
  rcases List.mem_append.mp hq with hq | hq
  · exact h.none_owns q hq
  · rwa [List.mem_singleton.mp hq]

theorem Passed.skip (h : Passed source a passed best side) (hp : ¬onNetwork a p) :
    Passed source a (passed ++ [p]) best side := by
  refine ⟨h.none_owns_concat fun ho => hp (onNetwork_of_owns ho), ?_, ?_⟩
  · rw [longest_concat_other hp, h.best]
  · rw [longest_concat_other hp, h.side]

theorem Passed.cons {b : ℕ} {q : Port} (h : Passed source a passed (some (b, q)) side) :
    q.addr.bits = b ∧ ∃ qs, longest a passed = q :: qs := by
  have hb := h.best
  cases hl : longest a passed with
  | nil => simp [hl] at hb
  | cons q' qs =>
    simp only [hl, List.head?_cons, Option.map_some, Option.some.injEq, Prod.mk.injEq] at hb
    obtain ⟨rfl, rfl⟩ := hb
    exact ⟨rfl, qs, rfl⟩

theorem Passed.eq_nil (h : Passed source a passed none side) : longest a passed = [] := by
  have hb := h.best
  cases hl : longest a passed with
  | nil => rfl
  | cons q qs => simp [hl] at hb

theorem Passed.weigh (h : Passed source a passed best side) (hp : onNetwork a p) (ho : ¬owns a p) :
    Passed source a (passed ++ [p]) (weigh source p best side).1 (weigh source p best side).2 := by
  have halone (hl : longest a (passed ++ [p]) = [p]) :
      Passed source a (passed ++ [p]) (some (p.addr.bits, p)) (p.id == source) :=
    ⟨h.none_owns_concat ho, by rw [hl]; rfl, by rw [hl]; simp⟩
  have hconcat : longest a (passed ++ [p]) = _ := longest_concat hp
  cases best with
  | none =>
    rw [h.eq_nil] at hconcat
    exact halone hconcat
  | some r =>
    obtain ⟨b, q⟩ := r
    obtain ⟨rfl, qs, hl⟩ := h.cons
    rw [hl] at hconcat
    dsimp only at hconcat
    rw [L3.weigh]
    split
    · next hlt =>
      rw [if_pos hlt, ← hl] at hconcat
      exact ⟨h.none_owns_concat ho, by rw [hconcat, h.best], by rw [hconcat, h.side]⟩
    · next hlt =>
      rw [if_neg hlt] at hconcat
      split
      · next heq =>
        rw [if_pos heq] at hconcat
        refine ⟨h.none_owns_concat ho, by rw [hconcat]; rfl, ?_⟩
        rw [hconcat, List.any_append, h.side, hl]
        simp
      · next hne =>
        rw [if_neg hne] at hconcat
        exact halone hconcat

theorem weighBits_map (source : PortId) (p : Port) (best : Option (ℕ × Port)) (side : Bool) :
    weighBits source p (best.map (·.1)) side = ((weigh source p best side).1.map (·.1), (weigh source p best side).2) := by
  cases best with
  | none => rfl
  | some r =>
    obtain ⟨b, q⟩ := r
    rw [Option.map_some, weighBits, weigh]
    dsimp only
    split
    · rfl
    split <;> rfl

/-- A device is passed over, owns the address, or is compared with the best. -/
theorem onNetwork_cases (p : Port) (a : IpAddr) :
    ((!p.addr.isValid || !p.addr.contains a) = true ∧ ¬onNetwork a p) ∨
      (!p.addr.isValid || !p.addr.contains a) = false ∧ onNetwork a p ∧ (owns a p ↔ p.addr.addr = a) := by
  cases hv : p.addr.isValid <;> cases hc : p.addr.contains a <;> simp [onNetwork, owns, hv, hc]

theorem find?_passed (h : Passed source a passed best side) (rest : List Port) :
    (passed ++ rest).find? (owns a) = rest.find? (owns a) := by
  rw [List.find?_append, List.find?_eq_none.mpr h.none_owns, Option.none_or]

theorem selectFrom_documented (rest : List Port) (h : Passed source a passed best side) :
    selectFrom source a best side rest = documented (passed ++ rest) source a := by
  induction rest generalizing passed best side with
  | nil =>
    rw [documented, find?_passed h, List.append_nil]
    cases best with
    | none =>
      rw [h.eq_nil]
      rfl
    | some r =>
      obtain ⟨-, qs, hl⟩ := Passed.cons (b := r.1) (q := r.2) h
      rw [selectFrom, h.side, hl]
      rfl
  | cons p rest ih =>
    have happend : passed ++ p :: rest = passed ++ [p] ++ rest := by simp
    rcases onNetwork_cases p a with ⟨hskip, hp⟩ | ⟨hskip, hp, ho⟩
    · rw [selectFrom, if_pos hskip, happend]
      exact ih (h.skip hp)
    · by_cases hown : p.addr.addr = a
      · have hf : (p :: rest).find? (owns a) = some p := List.find?_cons_of_pos (ho.mpr hown)
        rw [selectFrom, if_neg (by simp [hskip]), if_pos hown, documented, find?_passed h, hf]
      · have hno : ¬owns a p := fun h => hown (ho.mp h)
        rw [selectFrom, if_neg (by simp [hskip]), if_neg hown, happend]
        exact ih (h.weigh hp hno)

theorem select_documented (ports : List Port) (source : PortId) (dst : IpAddr) :
    select ports source dst = documented ports source dst := selectFrom_documented ports .nil

def reverseDocumented (defaultRoute : Option PortId) (ports : List Port) (source : PortId) (src : IpAddr) : Bool :=
  match ports.find? (owns src) with
  | some p => p.id == source
  | none =>
    match longest src ports with
    | [] => defaultRoute == some source
    | ps => ps.any (·.id == source)

theorem reversePathFrom_documented (dr : Option PortId) (rest : List Port) (h : Passed source a passed best side) :
    reversePathFrom dr source a (best.map (·.1)) side rest = reverseDocumented dr (passed ++ rest) source a := by
  induction rest generalizing passed best side with
  | nil =>
    rw [reverseDocumented, find?_passed h, List.append_nil]
    cases best with
    | none =>
      rw [h.eq_nil]
      rfl
    | some r =>
      obtain ⟨-, qs, hl⟩ := Passed.cons (b := r.1) (q := r.2) h
      rw [Option.map_some, reversePathFrom, h.side, hl]
      rfl
  | cons p rest ih =>
    have happend : passed ++ p :: rest = passed ++ [p] ++ rest := by simp
    rcases onNetwork_cases p a with ⟨hskip, hp⟩ | ⟨hskip, hp, ho⟩
    · rw [reversePathFrom, if_pos hskip, happend]
      exact ih (h.skip hp)
    · by_cases hown : p.addr.addr = a
      · have hf : (p :: rest).find? (owns a) = some p := List.find?_cons_of_pos (ho.mpr hown)
        rw [reversePathFrom, if_neg (by simp [hskip]), if_pos hown, reverseDocumented, find?_passed h, hf]
      · have hno : ¬owns a p := fun h => hown (ho.mp h)
        rw [reversePathFrom, if_neg (by simp [hskip]), if_neg hown, happend, weighBits_map]
        exact ih (h.weigh hp hno)

/-! ## Devices in another order -/

/-- One device at most has the address as its own, and one at most the longest prefix around it. -/
structure Unambiguous (a : IpAddr) (ports : List Port) : Prop where
  owner : ∀ p ∈ ports, ∀ q ∈ ports, owns a p → owns a q → p = q
  longest : ∀ p ∈ longest a ports, ∀ q ∈ longest a ports, p = q

theorem find?_of_perm {P : Port → Bool} {ports' : List Port} (hperm : ports.Perm ports')
    (h : ∀ p ∈ ports, ∀ q ∈ ports, P p → P q → p = q) : ports.find? P = ports'.find? P := by
  cases hf : ports.find? P with
  | none =>
    rw [List.find?_eq_none] at hf
    exact (List.find?_eq_none.mpr fun p hp => hf p (hperm.mem_iff.mpr hp)).symm
  | some p =>
    have hp := List.mem_of_find?_eq_some hf
    have hPp := List.find?_some hf
    cases hf' : ports'.find? P with
    | none => exact absurd hPp (List.find?_eq_none.mp hf' p (hperm.mem_iff.mp hp))
    | some q =>
      have hq := hperm.mem_iff.mpr (List.mem_of_find?_eq_some hf')
      rw [h p hp q hq hPp (List.find?_some hf')]

theorem mem_longest_of_perm {ports' : List Port} (hperm : ports.Perm ports') :
    p ∈ longest a ports ↔ p ∈ longest a ports' := mem_maxima_of_perm (hperm.filter _)

theorem Unambiguous.perm {ports' : List Port} (h : Unambiguous a ports) (hperm : ports.Perm ports') :
    Unambiguous a ports' :=
  ⟨fun p hp q hq => h.owner p (hperm.mem_iff.mpr hp) q (hperm.mem_iff.mpr hq),
    fun p hp q hq => h.longest p ((mem_longest_of_perm hperm).mpr hp) q ((mem_longest_of_perm hperm).mpr hq)⟩

/-- With one device of the longest prefix, the sender's side is that device's. -/
theorem any_longest (h : Unambiguous a ports) {ps : List Port} (hl : longest a ports = p :: ps) (source : PortId) :
    (p :: ps).any (·.id == source) = (p.id == source) := by
  rw [Bool.eq_iff_iff, List.any_eq_true]
  constructor
  · rintro ⟨q, hq, hid⟩
    rwa [h.longest p (by rw [hl]; exact List.mem_cons_self) q (by rw [hl]; exact hq)]
  · intro hid
    exact ⟨p, List.mem_cons_self, hid⟩

theorem documented_of_perm {ports' : List Port} (h : Unambiguous a ports) (hperm : ports.Perm ports')
    (source : PortId) : documented ports source a = documented ports' source a := by
  rw [documented, documented, ← find?_of_perm hperm h.owner]
  cases ports.find? (owns a) with
  | some p => rfl
  | none =>
    dsimp only
    cases hl : longest a ports with
    | nil =>
      have hl' : longest a ports' = [] := by
        rw [List.eq_nil_iff_forall_not_mem]
        intro q hq
        rw [← mem_longest_of_perm hperm, hl] at hq
        exact List.not_mem_nil hq
      rw [hl']
    | cons p ps =>
      have hp : p ∈ longest a ports := by
        rw [hl]
        exact List.mem_cons_self
      cases hl' : longest a ports' with
      | nil =>
        rw [mem_longest_of_perm hperm, hl'] at hp
        exact absurd hp List.not_mem_nil
      | cons q qs =>
        have hq : q ∈ longest a ports' := by
          rw [hl']
          exact List.mem_cons_self
        obtain rfl := h.longest p hp q ((mem_longest_of_perm hperm).mpr hq)
        dsimp only
        rw [any_longest h hl, any_longest (h.perm hperm) hl']

end

namespace L3Hub

variable {h : L3Hub} {a : IpAddr} {f g : Port}

theorem eq_of_id {p q : Port} (hp : p ∈ h.ports) (hq : q ∈ h.ports) (hid : p.id = q.id) : p = q :=
  List.inj_on_of_nodup_map h.nodup hp hq hid

theorem get_id (hf : f ∈ h.ports) : h.ports.find? (·.id == f.id) = some f := by
  cases hq : h.ports.find? (·.id == f.id) with
  | none => exact absurd (beq_self_eq_true f.id) (List.find?_eq_none.mp hq f hf)
  | some q =>
    have hid : q.id = f.id := by simpa using List.find?_some hq
    rw [eq_of_id (List.mem_of_find?_eq_some hq) hf hid]

theorem gateway_eq_some (hf : f ∈ h.ports) : h.gateway = some f ↔ h.defaultRoute = some f.id := by
  rw [gateway]
  constructor
  · intro hg
    obtain ⟨d, hd, hfind⟩ := Option.bind_eq_some_iff.mp hg
    have hid : f.id = d := by simpa using List.find?_some hfind
    rw [hd, hid]
  · intro hd
    rw [hd, Option.bind_some, get_id hf]

def documentedHop (h : L3Hub) (source : PortId) (dst : IpAddr) : Option Port :=
  let out := match documented h.ports source dst with
    | .port p => some p
    | .default => h.gateway
  out.filter (·.id != source)

theorem nextHop_documented (h : L3Hub) (source : PortId) (dst : IpAddr) :
    h.nextHop source dst = h.documentedHop source dst := by
  rw [nextHop, select_documented, documentedHop]

theorem documentedHop_of_perm {h' : L3Hub} (hamb : Unambiguous a h.ports) (hperm : h.ports.Perm h'.ports)
    (hdefault : h'.defaultRoute = h.defaultRoute) (source : PortId) :
    h'.documentedHop source a = h.documentedHop source a := by
  have hgateway : h'.gateway = h.gateway := by
    rw [gateway, gateway, hdefault]
    cases h.defaultRoute with
    | none => rfl
    | some d =>
      refine (find?_of_perm hperm fun p hp q hq hpd hqd => eq_of_id hp hq ?_).symm
      rw [beq_iff_eq.mp hpd, beq_iff_eq.mp hqd]
  rw [documentedHop, documentedHop, ← documented_of_perm hamb hperm, hgateway]

/-- Whether a source is accepted on a port is where packets to it go from elsewhere. -/
theorem reversePathOk_iff (hf : f ∈ h.ports) (hg : g.id ≠ f.id) (hscope : linkScoped a = false)
    (hamb : Unambiguous a h.ports) (hlong : g ∉ longest a h.ports) (hmem : g ∈ h.ports) :
    h.reversePathOk f.id a = true ↔ h.documentedHop g.id a = some f := by
  have hrev : h.reversePathOk f.id a = reverseDocumented h.defaultRoute h.ports f.id a := by
    rw [reversePathOk, hscope, Bool.false_or]
    exact reversePathFrom_documented h.defaultRoute h.ports .nil
  rw [hrev, reverseDocumented, documentedHop, documented]
  have hport {p : Port} (hp : p ∈ h.ports) : (p.id == f.id) = true ↔ (some p).filter (·.id != g.id) = some f := by
    rw [Option.filter_eq_some_iff, beq_iff_eq, Option.some.injEq, bne_iff_ne]
    constructor
    · intro hid
      exact ⟨eq_of_id hp hf hid, hg.symm⟩
    · rintro ⟨rfl, -⟩
      rfl
  cases hown : h.ports.find? (owns a) with
  | some p => exact hport (List.mem_of_find?_eq_some hown)
  | none =>
    dsimp only
    cases hl : longest a h.ports with
    | nil =>
      dsimp only
      rw [beq_iff_eq, ← gateway_eq_some hf, Option.filter_eq_some_iff, bne_iff_ne]
      exact ⟨fun hgate => ⟨hgate, hg.symm⟩, fun hgate => hgate.1⟩
    | cons p ps =>
      have hp : p ∈ longest a h.ports := by
        rw [hl]
        exact List.mem_cons_self
      have hpmem : p ∈ h.ports := List.mem_of_mem_filter (mem_maxima.mp hp).1
      have hside : (p.id == g.id) = false := by
        rw [beq_eq_false_iff_ne]
        intro hid
        exact hlong (eq_of_id hpmem hmem hid ▸ hp)
      dsimp only
      rw [any_longest hamb hl, any_longest hamb hl, hside]
      exact hport hpmem

/-- The hub hands a unicast packet on as documented, in whatever order its devices were attached where the rules
leave no tie, and then accepts a source on a port exactly if it would send packets to that address there. -/
theorem routes_as_documented (h : L3Hub) :
    (∀ (pkt : Pkt) (s : Port), s ∈ h.ports → isGroup pkt.dst = false →
        (s.strictRpf → h.reversePathOk s.id pkt.src) → 1 < pkt.hopLimit →
          h.route pkt s.id = (h.documentedHop s.id pkt.dst).elim .drop .send) ∧
      (∀ (pkt : Pkt) (source : PortId) (p : Port), h.route pkt source = .send p →
        h.documentedHop source pkt.dst = some p) ∧
      ∀ a, Unambiguous a h.ports →
        (∀ (h' : L3Hub) (source : PortId), h.ports.Perm h'.ports → h'.defaultRoute = h.defaultRoute →
          h'.documentedHop source a = h.documentedHop source a) ∧
        ∀ f ∈ h.ports, ∀ g ∈ h.ports, g.id ≠ f.id → g ∉ longest a h.ports → linkScoped a = false →
          (h.reversePathOk f.id a = true ↔ h.documentedHop g.id a = some f) := by
  refine ⟨fun pkt s hs hgroup hrpf hhop => ?_, fun pkt source p hsend => ?_, fun a hamb => ⟨?_, ?_⟩⟩
  · have hpass : (s.strictRpf && !h.reversePathOk s.id pkt.src) = false := by
      cases hst : s.strictRpf with
      | false => rfl
      | true => simp [hrpf hst]
    rw [route, get_id hs]
    simp only [hpass, hgroup, Bool.false_eq_true, if_false, nextHop_documented]
    cases h.documentedHop s.id pkt.dst with
    | none => rfl
    | some p => exact if_neg (by omega)
  · rw [route] at hsend
    split at hsend
    · cases hsend
    split at hsend
    · cases hsend
    split at hsend
    · split at hsend <;> cases hsend
    split at hsend
    · cases hsend
    · next q hq =>
      split at hsend
      · cases hsend
      · cases hsend
        rw [← nextHop_documented, hq]
  · intro h' source hperm hdefault
    exact documentedHop_of_perm hamb hperm hdefault source
  · intro f hf g hg hne hlong hscope
    exact reversePathOk_iff hf hne hscope hamb hlong hg

def nested : L3Hub where
  ports := [⟨1, .new (.v4 0x0a000001) 8, true⟩, ⟨2, .new (.v4 0x0a010001) 16, false⟩]

theorem routes_as_documented_nested : nested.route ⟨.v4 0x0a000001, .v4 0x0a010009, 64⟩ 1 =
    (nested.documentedHop 1 (.v4 0x0a010009)).elim .drop .send ∧
      nested.documentedHop 1 (.v4 0x0a010009) = some ⟨2, .new (.v4 0x0a010001) 16, false⟩ :=
  ⟨(routes_as_documented nested).1 ⟨.v4 0x0a000001, .v4 0x0a010009, 64⟩ ⟨1, .new (.v4 0x0a000001) 8, true⟩
    List.mem_cons_self rfl (by decide) (by decide), by decide⟩

end L3Hub

end L3

end PktKit
