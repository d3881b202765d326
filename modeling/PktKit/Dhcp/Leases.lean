import PktKit.Foundations.Tallies
import PktKit.Time

/-! # The lease table

Leases by client, with counters of how many hold each address and how many each Ethernet source has.
-/

namespace PktKit.Dhcp
open Foundations

abbrev Ipv4Addr := BitVec 32

abbrev MacAddr := { l : List UInt8 // l.length = 6 }

/-- Whom a lease is for: the client identifier, or else the hardware address with its type. -/
inductive ClientKey
  | id (bytes : List UInt8)
  | hw (htype : ℕ) (bytes : List UInt8)
deriving DecidableEq

structure Lease where
  ip : Ipv4Addr
  expiry : Instant
  bound : Bool
  /-- when a lease on the client's word alone was first granted -/
  provisional : Option Instant
  src : Option MacAddr
deriving DecidableEq

structure Leases where
  byKey : Table ClientKey Lease := ∅
  byIp : Table Ipv4Addr ℕ := ∅
  bySrc : Table MacAddr ℕ := ∅

namespace Leases

def unindex (t : Leases) (old : Lease) : Leases :=
  { t with byIp := Counters.drop t.byIp old.ip, bySrc := old.src.elim t.bySrc (Counters.drop t.bySrc) }

def index (t : Leases) (lease : Lease) : Leases :=
  { t with byIp := Counters.bump t.byIp lease.ip, bySrc := lease.src.elim t.bySrc (Counters.bump t.bySrc) }

def insert (t : Leases) (key : ClientKey) (lease : Lease) : Leases :=
  let t' := (t.byKey.lookup key).elim t t.unindex
  index { t' with byKey := t.byKey.insert key lease } lease

def remove (t : Leases) (key : ClientKey) : Leases :=
  match t.byKey.lookup key with
  | none => t
  | some old => unindex { t with byKey := t.byKey.erase key } old

def expire (t : Leases) (now : Instant) : Leases :=
  let dead := (t.byKey.entries.filter fun e => !decide (now < e.2.expiry)).map fun e => e.2
  { dead.foldl unindex t with byKey := t.byKey.retain fun _ l => decide (now < l.expiry) }

/-- How many leases clients sending from a source hold. -/
def heldFrom (t : Leases) (src : MacAddr) : ℕ := (t.bySrc.lookup src).getD 0

/-- A lease other than this client's holds the address. -/
def heldByOther (t : Leases) (ip : Ipv4Addr) (key : ClientKey) : Bool :=
  let own := (t.byKey.lookup key).any fun l => decide (l.ip = ip)
  decide (own.toNat < (t.byIp.lookup ip).getD 0)

/-! ## The counters -/

/-- The counters are what they would be if counted again. -/
structure Counted (t : Leases) : Prop where
  byIp : Counters.Hold t.byIp (t.byKey.tally fun l => some l.ip)
  bySrc : Counters.Hold t.bySrc (t.byKey.tally fun l => l.src)

variable {t : Leases} {key : ClientKey} {lease l : Lease} {now : Instant} {ip : Ipv4Addr}

@[simp] theorem byKey_unindex : (t.unindex l).byKey = t.byKey := rfl

@[simp] theorem byKey_insert : (t.insert key lease).byKey = t.byKey.insert key lease := rfl

theorem byKey_remove : (t.remove key).byKey = t.byKey.erase key := by
  unfold remove
  split
  · next h =>
    apply AList.ext
    exact (List.kerase_of_notMem_keys (AList.lookup_eq_none.mp h)).symm
  · rfl

@[simp] theorem byKey_expire : (t.expire now).byKey = t.byKey.retain fun _ l => decide (now < l.expiry) := rfl

theorem hold_dropSrc {c : Table MacAddr ℕ} {g : MacAddr → ℕ} (h : Counters.Hold c g) (src : Option MacAddr)
    (hpos : ∀ m, src = some m → 0 < g m) (hlt : ∀ m, g m < 2 ^ 32) :
    Counters.Hold (src.elim c (Counters.drop c)) fun m => g m - if src = some m then 1 else 0 := by
  cases src with
  | none => simpa using h
  | some m => simpa using h.drop (hpos m rfl) (hlt m)

theorem hold_bumpSrc {c : Table MacAddr ℕ} {g : MacAddr → ℕ} (h : Counters.Hold c g) (src : Option MacAddr)
    (hlt : ∀ m, g m + 1 < 2 ^ 32) :
    Counters.Hold (src.elim c (Counters.bump c)) fun m => g m + if src = some m then 1 else 0 := by
  cases src with
  | none => simpa using h
  | some m => simpa using h.bump (hlt m)

/-- Counters that hold numbers that include these leases hold the rest once they are taken out. -/
theorem hold_unindex {dead : List Lease} {f : Ipv4Addr → ℕ} {g : MacAddr → ℕ}
    (hip : Counters.Hold t.byIp fun a => f a + dead.countP fun l => some l.ip = some a)
    (hsrc : Counters.Hold t.bySrc fun a => g a + dead.countP fun l => l.src = some a)
    (hf : ∀ a, f a + dead.length < 2 ^ 32) (hg : ∀ a, g a + dead.length < 2 ^ 32) :
    Counters.Hold (dead.foldl unindex t).byIp f ∧ Counters.Hold (dead.foldl unindex t).bySrc g := by
  induction dead generalizing t with
  | nil => exact ⟨by simpa using hip, by simpa using hsrc⟩
  | cons l dead ih =>
    simp only [List.length_cons, List.countP_cons, decide_eq_true_eq] at hf hg hip hsrc
    refine ih ?_ ?_ (fun a => by have := hf a; omega) fun a => by have := hg a; omega
    · have hle : ∀ a, dead.countP (fun l => some l.ip = some a) ≤ dead.length := fun a => List.countP_le_length
      have hdrop := hip.drop (a := l.ip) (by rw [if_pos rfl]; omega)
        (by have := hf l.ip; have := hle l.ip; rw [if_pos rfl]; omega)
      refine hdrop.congr fun a => ?_
      simp only [Option.some.injEq]
      omega
    · have hle : ∀ a, dead.countP (fun l => l.src = some a) ≤ dead.length := fun a => List.countP_le_length
      have hdrop := hold_dropSrc hsrc l.src (fun m hm => by rw [if_pos hm]; omega)
        (fun m => by have := hg m; have := hle m; split <;> omega)
      refine hdrop.congr fun a => ?_
      omega

theorem Counted.expire (h : t.Counted) (hsize : t.byKey.entries.length < 2 ^ 32) : (t.expire now).Counted := by
  have hretain := fun (f : Lease → Option Ipv4Addr) a =>
    @Table.tally_retain _ _ _ _ t.byKey f a fun _ l => decide (now < l.expiry)
  have hretain' := fun (f : Lease → Option MacAddr) a =>
    @Table.tally_retain _ _ _ _ t.byKey f a fun _ l => decide (now < l.expiry)
  have hlen : (t.byKey.retain fun _ l => decide (now < l.expiry)).entries.length +
      (t.byKey.entries.filter fun e => !decide (now < e.2.expiry)).length = t.byKey.entries.length :=
    (List.length_eq_length_filter_add _).symm
  obtain ⟨hip, hsrc⟩ := @hold_unindex t ((t.byKey.entries.filter fun e =>
    !decide (now < e.2.expiry)).map fun e => e.2)
    ((t.byKey.retain fun _ l => decide (now < l.expiry)).tally fun l => some l.ip)
    ((t.byKey.retain fun _ l => decide (now < l.expiry)).tally fun l => l.src)
    (by simpa only [List.countP_map, Function.comp_def, ← hretain] using h.byIp)
    (by simpa only [List.countP_map, Function.comp_def, ← hretain'] using h.bySrc)
    (fun a => by
      have hle := @Table.tally_le _ _ _ _ (t.byKey.retain fun _ l => decide (now < l.expiry))
        (fun l => some l.ip) a
      rw [List.length_map]
      omega)
    (fun a => by
      have hle := @Table.tally_le _ _ _ _ (t.byKey.retain fun _ l => decide (now < l.expiry)) (fun l => l.src) a
      rw [List.length_map]
      omega)
  exact ⟨hip, hsrc⟩

theorem Counted.remove (h : t.Counted) (hsize : t.byKey.entries.length < 2 ^ 32) : (t.remove key).Counted := by
  unfold Leases.remove
  split
  · exact h
  · next old hold =>
    have hip := fun a => Table.tally_erase (f := fun l => some l.ip) (a := a) hold
    have hsrc := fun a => Table.tally_erase (f := fun l => l.src) (a := a) hold
    have hlen : (t.byKey.erase key).entries.length + 1 = t.byKey.entries.length :=
      Table.length_erase (by rw [hold]; rfl)
    have hle := fun a => @Table.tally_le _ _ _ _ (t.byKey.erase key) (fun l => some l.ip) a
    have hle' := fun a => @Table.tally_le _ _ _ _ (t.byKey.erase key) (fun l => l.src) a
    obtain ⟨hip', hsrc'⟩ := @hold_unindex t [old] (Table.tally (t.byKey.erase key) fun l => some l.ip)
      (Table.tally (t.byKey.erase key) fun l => l.src) (h.byIp.congr fun a => by rw [hip a]; simp)
      (h.bySrc.congr fun a => by rw [hsrc a]; simp) (fun a => by have := hle a; simp; omega)
      (fun a => by have := hle' a; simp; omega)
    exact ⟨hip', hsrc'⟩

theorem insert_eq : t.insert key lease = index { t.remove key with byKey := t.byKey.insert key lease } lease := by
  unfold Leases.insert Leases.remove
  cases t.byKey.lookup key <;> rfl

theorem Counted.insert (h : t.Counted) (hsize : t.byKey.entries.length + 1 < 2 ^ 32) :
    (t.insert key lease).Counted := by
  have hremove : (t.remove key).Counted := h.remove (by omega)
  have hlen : (t.byKey.erase key).entries.length ≤ t.byKey.entries.length := (List.kerase_sublist _ _).length_le
  rw [insert_eq]
  refine ⟨?_, ?_⟩
  · have hip := hremove.byIp
    rw [byKey_remove] at hip
    have hle := @Table.tally_le _ _ _ _ (t.byKey.erase key) (fun l => some l.ip) lease.ip
    refine (hip.bump (a := lease.ip) (by omega)).congr fun a => ?_
    change _ = Table.tally (t.byKey.insert key lease) _ a
    rw [Table.tally_insert]
    simp
  · have hsrc := hremove.bySrc
    rw [byKey_remove] at hsrc
    have hle := fun m => @Table.tally_le _ _ _ _ (t.byKey.erase key) (fun l => l.src) m
    exact (hold_bumpSrc hsrc lease.src fun m => by have := hle m; omega).congr fun a => Table.tally_insert.symm

end Leases

end PktKit.Dhcp
