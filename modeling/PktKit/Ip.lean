import PktKit.Foundations.Prefixes

/-! # Addresses and prefixes -/

namespace PktKit
open Foundations

inductive IpAddr
  | v4 (a : BitVec 32)
  | v6 (a : BitVec 128)
deriving DecidableEq

namespace IpAddr

def isV4 : IpAddr → Bool
  | v4 _ => true
  | v6 _ => false

/-- How many bits the address has. -/
def width : IpAddr → ℕ
  | v4 _ => 32
  | v6 _ => 128

def high (n : ℕ) : IpAddr → IpAddr
  | v4 a => v4 (Foundations.high n a)
  | v6 a => v6 (Foundations.high n a)

/-- The number an address stands for; addresses of one family are ordered by it. -/
def toNat : IpAddr → ℕ
  | v4 a => a.toNat
  | v6 a => a.toNat

variable {a b : IpAddr} {m n : ℕ}

@[simp] theorem width_high : (a.high n).width = a.width := by cases a <;> rfl

@[simp] theorem isV4_high : (a.high n).isV4 = a.isV4 := by cases a <;> rfl

theorem high_high (hmn : m ≤ n) (hn : n ≤ a.width) : (a.high n).high m = a.high m := by
  cases a with
  | v4 a => exact congrArg v4 (Foundations.high_high hmn hn)
  | v6 a => exact congrArg v6 (Foundations.high_high hmn hn)

theorem width_eq_of_high (h : a.high n = b.high n) : a.width = b.width := by
  rw [← width_high (n := n), h, width_high]

theorem high_mono (hmn : m ≤ n) (hn : n ≤ a.width) (h : a.high n = b.high n) : a.high m = b.high m := by
  rw [← high_high hmn hn, h, high_high hmn (width_eq_of_high h ▸ hn)]

end IpAddr

/-- An address with a prefix length, which is at most its width. -/
structure IpPrefix where
  addr : IpAddr
  bits : ℕ
  le : bits ≤ addr.width
deriving DecidableEq

namespace IpPrefix

def new (addr : IpAddr) (bits : ℕ) : IpPrefix := ⟨addr, min bits addr.width, min_le_right _ _⟩

/-- Whether an address falls within the prefix. -/
def contains (p : IpPrefix) (other : IpAddr) : Bool :=
  match p.addr, other with
  | .v4 net, .v4 ip => Foundations.high p.bits net == Foundations.high p.bits ip
  | .v6 net, .v6 ip => Foundations.high p.bits net == Foundations.high p.bits ip
  | _, _ => false

def masked (p : IpPrefix) : IpPrefix := ⟨p.addr.high p.bits, p.bits, by simpa using p.le⟩

def isV4 (p : IpPrefix) : Bool := p.addr.isV4

def Masked (p : IpPrefix) : Prop := p.addr.high p.bits = p.addr

instance (p : IpPrefix) : Decidable p.Masked := inferInstanceAs (Decidable (_ = _))

variable {p q : IpPrefix} {a : IpAddr}

theorem contains_iff : p.contains a = true ↔ p.addr.high p.bits = a.high p.bits := by
  obtain ⟨addr, bits, le⟩ := p
  cases addr <;> cases a <;> simp [contains, IpAddr.high]

theorem masked_masked : p.masked.Masked := IpAddr.high_high le_rfl p.le

theorem Masked.contains_iff (hp : p.Masked) : p.contains a = true ↔ p.addr = a.high p.bits := by
  rw [IpPrefix.contains_iff, hp]

def of (a : IpAddr) (n : ℕ) (hn : n ≤ a.width) : IpPrefix := ⟨a.high n, n, by simpa using hn⟩

theorem masked_of {n : ℕ} (hn : n ≤ a.width) : (of a n hn).Masked := IpAddr.high_high le_rfl hn

/-- A masked prefix that holds an address is that address's own of its length. -/
theorem Masked.eq_of (hp : p.Masked) (hc : p.contains a = true) : ∃ hn, p = of a p.bits hn := by
  have he := hp.contains_iff.mp hc
  have hn : p.bits ≤ a.width := by
    rw [← IpAddr.width_high (n := p.bits), ← he]
    exact p.le
  refine ⟨hn, ?_⟩
  obtain ⟨addr, bits, le⟩ := p
  simp only [of, mk.injEq, and_true]
  exact he

end IpPrefix

end PktKit
