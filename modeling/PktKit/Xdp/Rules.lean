import PktKit.Ip

/-! # Capture rules

What, beyond its address, a packet must carry to be captured, and how the rules of a prefix are packed
into the value of its trie entry.
-/

namespace PktKit.Xdp

structure Protocol where
  number : UInt8
deriving DecidableEq, Repr

namespace Protocol

def TCP : Protocol := ⟨6⟩
def UDP : Protocol := ⟨17⟩

end Protocol

inductive Rule
  | any
  | proto (p : Protocol)
  | port (p : Protocol) (port : UInt16)
deriving DecidableEq, Repr

def KIND_END : UInt8 := 0
def KIND_ANY : UInt8 := 1
def KIND_PROTO : UInt8 := 2
def KIND_PORT : UInt8 := 3

def RULE_SIZE : ℕ := 4

namespace Rule

/-- The program reads ports where TCP and UDP have them. -/
def valid : Rule → Bool
  | port p _ => p = .TCP || p = .UDP
  | _ => true

def encode : Rule → List UInt8
  | any => [KIND_ANY, 0, 0, 0]
  | proto p => [KIND_PROTO, p.number, 0, 0]
  | port p n => [KIND_PORT, p.number, UInt8.ofNat (n.toNat / 256), UInt8.ofNat n.toNat]

def decode : List UInt8 → Option Rule
  | [kind, number, hi, lo] =>
    if kind = KIND_ANY then some any
    else if kind = KIND_PROTO then some (proto ⟨number⟩)
    else if kind = KIND_PORT then some (port ⟨number⟩ (UInt16.ofNat (hi.toNat * 256 + lo.toNat)))
    else none
  | _ => none

theorem decode_encode (r : Rule) : decode r.encode = some r := by
  cases r with
  | any => rfl
  | proto p => rfl
  | port p n =>
    have hn : UInt16.ofNat ((UInt8.ofNat (n.toNat / 256)).toNat * 256 + (UInt8.ofNat n.toNat).toNat) = n := by
      have hlt := n.toNat_lt
      simp only [UInt8.toNat_ofNat', Nat.reducePow] at hlt ⊢
      have hsum : n.toNat / 256 % 256 * 256 + n.toNat % 256 = n.toNat := by omega
      rw [hsum, UInt16.ofNat_toNat]
    simp only [encode, decode, hn]
    rfl

end Rule

def valueSize (maxRules : ℕ) : ℕ := maxRules * RULE_SIZE

/-- The rules, `any` before the others, packed and padded with `KIND_END`. -/
def encodeRules (rules : List Rule) (maxRules : ℕ) : List UInt8 :=
  let packed := ((rules.filter (· = .any) ++ rules.filter (· ≠ .any)).take maxRules).flatMap Rule.encode
  packed ++ List.replicate (valueSize maxRules - packed.length) KIND_END

/-- The rules of a value, a chunk of `RULE_SIZE` each, up to the first that is none. -/
def decodeRules : List UInt8 → List Rule
  | kind :: number :: hi :: lo :: rest =>
    match Rule.decode [kind, number, hi, lo] with
    | some r => r :: decodeRules rest
    | none => []
  | _ => []

theorem decodeRules_encode_append (r : Rule) (rest : List UInt8) :
    decodeRules (r.encode ++ rest) = r :: decodeRules rest := by
  have h := r.decode_encode
  cases r <;> simp only [Rule.encode, List.cons_append, List.nil_append, decodeRules] at h ⊢ <;> rw [h]

theorem decodeRules_flatMap_append (rules : List Rule) (rest : List UInt8) :
    decodeRules (rules.flatMap Rule.encode ++ rest) = rules ++ decodeRules rest := by
  induction rules with
  | nil => rfl
  | cons r rules ih => rw [List.flatMap_cons, List.append_assoc, decodeRules_encode_append, ih, List.cons_append]

theorem decodeRules_padding (n : ℕ) : decodeRules (List.replicate n KIND_END) = [] := by
  match n with
  | 0 | 1 | 2 | 3 => rfl
  | n + 4 => rfl

/-- Rules that fit, and do not mix `any` with others, are read back as they were. -/
theorem decodeRules_encodeRules {rules : List Rule} {maxRules : ℕ} (hlen : rules.length ≤ maxRules)
    (hany : .any ∈ rules → rules = [.any]) : decodeRules (encodeRules rules maxRules) = rules := by
  have horder : rules.filter (· = .any) ++ rules.filter (· ≠ .any) = rules := by
    by_cases h : Rule.any ∈ rules
    · rw [hany h]
      rfl
    · have hnone : rules.filter (· = Rule.any) = [] := by
        simpa [List.filter_eq_nil_iff] using fun r hr => ne_of_mem_of_not_mem hr h
      have hall : rules.filter (· ≠ Rule.any) = rules := by
        simpa [List.filter_eq_self] using fun r hr => ne_of_mem_of_not_mem hr h
      rw [hnone, hall, List.nil_append]
  rw [encodeRules, horder, List.take_of_length_le hlen, decodeRules_flatMap_append, decodeRules_padding,
    List.append_nil]

end PktKit.Xdp
