import PktKit.Dns.Wire

/-! # Names in DNS messages

What it is for a name to stand at an offset of a message, through its compression pointers, and that the parser reads
exactly the names within its limits.
-/

namespace PktKit.Dns
open Foundations

/-- A name: its labels, outermost last. -/
abbrev Name := List Bytes

namespace Name

def wire (n : Name) : Bytes := (n.flatMap fun l => UInt8.ofNat l.length :: l) ++ [0]

/-- The name in lower case. Names are the same if these are. -/
def fold (n : Name) : Name := n.map (List.map toAsciiLowercase)

/-- Labels of lengths a length octet can say. -/
def Legal (n : Name) : Prop := ∀ l ∈ n, 1 ≤ l.length ∧ l.length ≤ 63

@[simp] theorem wire_nil : wire [] = [0] := rfl

theorem wire_cons (l : Bytes) (n : Name) : wire (l :: n) = UInt8.ofNat l.length :: l ++ wire n := by
  simp [wire]

theorem length_wire_cons (l : Bytes) (n : Name) : (wire (l :: n)).length = 1 + l.length + (wire n).length := by
  rw [wire_cons]
  simp
  omega

theorem length_wire_pos (n : Name) : 1 ≤ (wire n).length := by simp [wire]

@[simp] theorem fold_cons (l : Bytes) (n : Name) : fold (l :: n) = l.map toAsciiLowercase :: fold n := rfl

theorem Legal.fold {n : Name} (h : n.Legal) : n.fold.Legal := by
  intro l hl
  obtain ⟨l', hl', rfl⟩ := List.mem_map.mp hl
  simpa using h l' hl'

theorem Legal.tail {l : Bytes} {n : Name} (h : Legal (l :: n)) : n.Legal := fun l' hl' =>
  h l' (List.mem_cons_of_mem _ hl')

theorem wire_injective {n m : Name} (hn : n.Legal) (hm : m.Legal) (h : n.wire = m.wire) : n = m := by
  induction n generalizing m with
  | nil =>
    cases m with
    | nil => rfl
    | cons l m =>
      have hl := hm l List.mem_cons_self
      rw [wire_nil, wire_cons] at h
      have hzero := congrArg UInt8.toNat (List.cons.inj h).1
      simp at hzero
      omega
  | cons l n ih =>
    have hl := hn l List.mem_cons_self
    cases m with
    | nil =>
      rw [wire_nil, wire_cons] at h
      have hzero := congrArg UInt8.toNat (List.cons.inj h).1
      simp at hzero
      omega
    | cons l' m =>
      have hl' := hm l' List.mem_cons_self
      rw [wire_cons, wire_cons] at h
      obtain ⟨hlen, htail⟩ := List.cons.inj h
      have hlen : l.length = l'.length := by
        have := congrArg UInt8.toNat hlen
        simp at this
        omega
      obtain ⟨rfl, hw⟩ := List.append_inj htail hlen
      rw [ih hn.tail hm.tail hw]

end Name

/-- At `off` in the message, read within `limit`, stands a name that follows so many pointers and ends at `stop`. A pointer
points before the limit, which is then what it points to. -/
inductive NameAt (data : Bytes) : (limit off : ℕ) → Name → (pointers stop : ℕ) → Prop
  | root {limit off : ℕ} (h : data[off]? = some 0) : NameAt data limit off [] 0 (off + 1)
  | label {limit off pointers stop : ℕ} {l : Bytes} {n : Name} (h : data[off]? = some (UInt8.ofNat l.length))
    (hl : 1 ≤ l.length ∧ l.length ≤ 63) (hs : slice data (off + 1) (off + 1 + l.length) = l)
    (hn : NameAt data limit (off + 1 + l.length) n pointers stop) : NameAt data limit off (l :: n) pointers stop
  | pointer {limit off pointers stop : ℕ} {hi lo : UInt8} {n : Name} (h : data[off]? = some hi)
    (hp : hi &&& 0xC0 = 0xC0) (hlo : data[off + 1]? = some lo) (ht : pointerTarget hi lo < limit)
    (hn : NameAt data (pointerTarget hi lo) (pointerTarget hi lo) n pointers stop) :
    NameAt data limit off n (pointers + 1) (off + 2)

/-- A name within the parser's limits. -/
def HasName (data : Bytes) (off : ℕ) (n : Name) (stop : ℕ) : Prop :=
  ∃ pointers, NameAt data off off n pointers stop ∧ pointers ≤ MAX_POINTER_HOPS ∧ n.wire.length ≤ 255

variable {data : Bytes} {limit off pointers stop hops : ℕ} {n : Name}

theorem NameAt.legal (h : NameAt data limit off n pointers stop) : n.Legal := by
  induction h with
  | root => simp [Name.Legal]
  | label _ hl _ _ ih =>
    intro l' hl'
    rcases List.mem_cons.mp hl' with rfl | hmem
    · exact hl
    · exact ih l' hmem
  | pointer _ _ _ _ _ ih => exact ih

/-- A length octet has its upper two bits clear. -/
theorem length_octet {k : ℕ} (h1 : 1 ≤ k) (h63 : k ≤ 63) : UInt8.ofNat k &&& 0xC0 = 0 ∧ UInt8.ofNat k ≠ 0 := by
  interval_cases k <;> decide

theorem octet_length {l : UInt8} (hb : l &&& 0xC0 = 0) (hz : l ≠ 0) : 1 ≤ l.toNat ∧ l.toNat ≤ 63 := by
  revert l
  rw [UInt8.forall_iff]
  decide +kernel

theorem readNameFrom_of_nameAt (h : NameAt data limit off n pointers stop) {hops : ℕ} {ended : Option ℕ}
    {name : Bytes} (hlen : name.length + n.wire.length ≤ 255) (hhops : hops + pointers ≤ MAX_POINTER_HOPS) :
    readNameFrom data limit hops ended name off = some (name ++ n.fold.wire, ended.getD stop) := by
  induction h generalizing hops ended name with
  | root h =>
    rw [readNameFrom]
    simp [h, Name.fold]
  | @label limit off pointers stop l n h hl hs hn ih =>
    obtain ⟨hbits, hzero⟩ := length_octet hl.1 hl.2
    have hto : (UInt8.ofNat l.length).toNat = l.length := by
      rw [UInt8.toNat_ofNat']
      omega
    have hin : ¬ data.length < off + 1 + l.length := by
      have := congrArg List.length hs
      simp only [slice, List.length_take, List.length_drop] at this
      omega
    rw [Name.length_wire_cons] at hlen
    have hpos := n.length_wire_pos
    have hfits : ¬ 255 < name.length + 1 + l.length + 1 := by omega
    rw [readNameFrom, h]
    simp only [hbits, hzero, hto, hin, hfits, hs, if_true, if_false, dif_neg, not_false_eq_true]
    rw [ih (by simp; omega) hhops, Name.fold_cons, Name.wire_cons, List.length_map]
    simp
  | @pointer limit off pointers stop hi lo n h hp hlo ht hn ih =>
    have hno : ¬ (limit ≤ pointerTarget hi lo ∨ MAX_POINTER_HOPS < hops + 1) := by omega
    rw [readNameFrom, h]
    simp only [hp, hlo, hno, if_true, dif_neg, not_false_eq_true]
    rw [ih hlen (by omega)]
    rfl

theorem readName_of_hasName (h : HasName data off n stop) : readName data off = some (n.fold.wire, stop) := by
  obtain ⟨pointers, hn, hp, hlen⟩ := h
  rw [readName, readNameFrom_of_nameAt hn (by simpa using hlen) (by omega)]
  rfl

theorem nameAt_of_readNameFrom {ended : Option ℕ} {name r : Bytes} (hname : name.length + 1 ≤ 255)
    (h : readNameFrom data limit hops ended name off = some (r, stop)) (hhops : hops ≤ MAX_POINTER_HOPS) :
    ∃ n pointers s, NameAt data limit off n pointers s ∧ r = name ++ n.fold.wire ∧ stop = ended.getD s ∧
      name.length + n.wire.length ≤ 255 ∧ hops + pointers ≤ MAX_POINTER_HOPS := by
  fun_induction readNameFrom data limit hops ended name off with
  | case1 => cases h
  | case2 limit hops ended name off hroot =>
    cases h
    exact ⟨[], 0, off + 1, .root hroot, rfl, rfl, hname, hhops⟩
  | case3 => cases h
  | case4 => cases h
  | case5 limit hops ended name off l hl hbits hzero hin hfits ih =>
    obtain ⟨h1, h63⟩ := octet_length hbits hzero
    have hlen : (slice data (off + 1) (off + 1 + l.toNat)).length = l.toNat := by
      rw [slice_length (by omega)]
      omega
    obtain ⟨n, pointers, s, hn, hr, hs, hwire, hp⟩ := ih (by simp [hlen]; omega) h hhops
    refine ⟨slice data (off + 1) (off + 1 + l.toNat) :: n, pointers, s, .label ?_ ?_ ?_ ?_, ?_, hs, ?_, hp⟩
    · rw [hlen, UInt8.ofNat_toNat]
      exact hl
    · rw [hlen]
      exact ⟨h1, h63⟩
    · rw [hlen]
    · rw [hlen]
      exact hn
    · rw [hr, Name.fold_cons, Name.wire_cons, List.length_map, hlen, UInt8.ofNat_toNat]
      simp
    · rw [Name.length_wire_cons, hlen]
      simp only [List.length_append, List.length_cons, List.length_map, hlen] at hwire
      omega
  | case6 => cases h
  | case7 => cases h
  | case8 limit hops ended name off hi hhi _ hbits lo hlo hno ih =>
    obtain ⟨hlimit, hmax⟩ := not_or.mp hno
    obtain ⟨n, pointers, s, hn, hr, hs, hwire, hp⟩ := ih hname h (not_lt.mp hmax)
    exact ⟨n, pointers + 1, off + 2, .pointer hhi hbits hlo (not_le.mp hlimit) hn, hr, hs, hwire, by omega⟩
  | case9 => cases h

/-- The parser reads exactly the names within its limits, in lower case. -/
theorem readName_eq_some {r : Bytes} : readName data off = some (r, stop) ↔
    ∃ n, HasName data off n stop ∧ r = n.fold.wire := by
  constructor
  · intro h
    obtain ⟨n, pointers, s, hn, hr, rfl, hwire, hp⟩ := nameAt_of_readNameFrom (by simp) h (Nat.zero_le _)
    exact ⟨n, ⟨pointers, hn, by omega, by simpa using hwire⟩, hr⟩
  · rintro ⟨n, hn, rfl⟩
    exact readName_of_hasName hn

theorem HasName.legal (h : HasName data off n stop) : n.Legal := by
  obtain ⟨_, hn, _⟩ := h
  exact hn.legal

/-- Two names read the same if they are the same but for case. -/
theorem fold_wire_inj {m : Name} (hn : n.Legal) (hm : m.Legal) : n.fold.wire = m.fold.wire ↔ n.fold = m.fold :=
  ⟨Name.wire_injective hn.fold hm.fold, congrArg Name.wire⟩

theorem HasName.unique {m : Name} {s : ℕ} (h : HasName data off n stop) (h' : HasName data off m s) :
    n.fold = m.fold ∧ stop = s := by
  have heq := (readName_of_hasName h).symm.trans (readName_of_hasName h')
  obtain ⟨hw, hs⟩ := Prod.mk.inj (Option.some.inj heq)
  exact ⟨(fold_wire_inj h.legal h'.legal).mp hw, hs⟩

end PktKit.Dns
