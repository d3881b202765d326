import PktKit.Packet

/-! # Updating a checksum in place

A buffer with a checksum field, parts of which are replaced while the field is updated by the difference. The
recomputed checksum is the same up to the two zeros, so a receiver's verdict stays, but for a buffer of zeros, which
never verifies.
-/

namespace PktKit
open Foundations

/-- The sum of RFC 1071: the words added one by one, each carry put back at once. -/
def rfc1071Sum (data : List UInt8) : ℕ := (words data).foldl onesAdd 0

/-- A receiver's verification: the sum with the checksum in place is all ones. -/
def Verifies (buf : List UInt8) : Prop := checksum buf = 0

instance (buf : List UInt8) : Decidable (Verifies buf) := inferInstanceAs (Decidable (_ = _))

def wholeWords : List UInt8 → List ℕ
  | a :: b :: l => (a.toNat * 256 + b.toNat) :: wholeWords l
  | _ => []

def carry (s : ℕ) : ℕ := s % 65536 + s / 65536

/-- The checksum after the words of `old` have left the data and those of `new` have entered it. -/
def csumReplace (csum : ℕ) (old new : List (List UInt8)) : ℕ :=
  let sum := (old.flatMap wholeWords).foldl (fun s w => carry (s + (65535 - w))) (65535 - csum)
  let sum := (new.flatMap wholeWords).foldl (fun s w => carry (s + w)) sum
  65535 - fold sum

/-- New bytes for the part of a buffer from `offset` on. -/
structure Patch where
  offset : ℕ
  new : List UInt8

namespace Patch

def old (p : Patch) (buf : List UInt8) : List UInt8 := slice buf p.offset (p.offset + p.new.length)

/-- The part begins with a word, lies in the buffer and leaves out the checksum field at `field`. -/
structure Fits (p : Patch) (field : ℕ) (buf : List UInt8) : Prop where
  aligned : Even p.offset
  inside : p.offset + p.new.length ≤ buf.length
  apart : p.offset + p.new.length ≤ field ∨ field + 2 ≤ p.offset

def Disjoint (p q : Patch) : Prop :=
  p.offset + p.new.length ≤ q.offset ∨ q.offset + q.new.length ≤ p.offset

/-- Replace the part and update the checksum field. -/
def apply (field : ℕ) (buf : List UInt8) (p : Patch) : List UInt8 :=
  overwrite (overwrite buf p.offset p.new) field (be16Bytes (incrementalUpdate (Packet.be16 buf field)
    (p.old buf) p.new))

end Patch

theorem checksum_eq_rfc1071 (data : List UInt8) : checksum data = 65535 - rfc1071Sum data := by
  have h := foldl_onesAdd (fun w (hw : w ∈ words data) => words_lt hw) 0
  rw [show fold 0 = 0 from fold_eq_zero.mpr rfl, Nat.zero_add, sum_words] at h
  rw [checksum, rfc1071Sum, h]

theorem onesComplementWords_add (l : List UInt8) : onesComplementWords l + wordSum l =
    65535 * ((l.length + 1) / 2) := by
  fun_induction onesComplementWords l with
  | case1 => rfl
  | case2 a =>
    have ha := a.toNat_lt
    simp only [wordSum, List.length_singleton]
    omega
  | case3 a b l ih =>
    have ha := a.toNat_lt
    have hb := b.toNat_lt
    simp only [wordSum, List.length_cons]
    omega

def Patch.delta (p : Patch) (buf : List UInt8) : ℕ := onesComplementWords (p.old buf) + wordSum p.new

theorem incrementalUpdate_eq (c : ℕ) (p : Patch) (buf : List UInt8) :
    incrementalUpdate c (p.old buf) p.new = 65535 - fold (65535 - c + p.delta buf) := by
  rw [incrementalUpdate, Patch.delta, Nat.add_assoc]

theorem incrementalUpdate_le (c : ℕ) (old new : List UInt8) : incrementalUpdate c old new ≤ 65535 := Nat.sub_le _ _

variable {p q : Patch} {field : ℕ} {buf : List UInt8}

theorem Patch.Fits.wordSum_overwrite (h : p.Fits field buf) :
    wordSum (overwrite buf p.offset p.new) % 65535 = (wordSum buf + p.delta buf) % 65535 := by
  have ho := Foundations.wordSum_overwrite h.aligned h.inside
  have hc := onesComplementWords_add (p.old buf)
  simp only [Patch.delta, Patch.old] at hc ⊢
  omega

theorem wordSum_field (h : field + 2 ≤ buf.length) :
    wordSum (slice buf field (field + 2)) = Packet.be16 buf field := by
  have hs : slice buf field (field + 2) = [Packet.byte buf field, Packet.byte buf (field + 1)] := by
    apply List.ext_getElem
    · rw [slice_length h]
      simp
    · intro j hj hj'
      rw [slice_length h] at hj
      simp only [slice, List.getElem_take, List.getElem_drop, Packet.byte]
      obtain rfl | rfl : j = 0 ∨ j = 1 := by omega
      · simp [List.getD_eq_getElem?_getD, show field < buf.length by omega]
      · simp [List.getD_eq_getElem?_getD, show field + 1 < buf.length by omega]
  rw [hs, wordSum, wordSum, Packet.be16, Nat.add_zero]

/-- The sum after another checksum has been put in place. -/
theorem wordSum_setField (buf : List UInt8) (hf : Even field) (h : field + 2 ≤ buf.length)
    {c : ℕ} (hc : c ≤ 65535) :
    wordSum (overwrite buf field (be16Bytes c)) + Packet.be16 buf field = wordSum buf + c := by
  have ho := @Foundations.wordSum_overwrite buf (be16Bytes c) field hf h
  rwa [length_be16Bytes, wordSum_field h, wordSum_be16Bytes (Nat.lt_succ_of_le hc)] at ho

theorem be16_overwrite (hin : p.offset + p.new.length ≤ buf.length) (hfield : field + 2 ≤ buf.length)
    (hap : p.offset + p.new.length ≤ field ∨ field + 2 ≤ p.offset) :
    Packet.be16 (overwrite buf p.offset p.new) field = Packet.be16 buf field := by
  rw [← wordSum_field (by rwa [length_overwrite hin]), slice_overwrite_of_disjoint hin hap.symm,
    wordSum_field hfield]

/-- The complement of an updated checksum is the old one with the delta added. -/
theorem incrementalUpdate_mod {c : ℕ} (hc : c ≤ 65535) :
    (incrementalUpdate c (p.old buf) p.new + p.delta buf) % 65535 = c % 65535 := by
  have hm := fold_mod (65535 - c + p.delta buf)
  have hle := fold_le (65535 - c + p.delta buf)
  rw [incrementalUpdate_eq]
  omega

/-- The updated checksum is the recomputed one, up to the two zeros. -/
theorem incrementalUpdate_modEq (hf : Even field) (hfield : field + 2 ≤ buf.length) (h : p.Fits field buf) {c : ℕ}
    (hc : c ≤ 65535) (hold : c ≡ checksum (overwrite buf field (be16Bytes 0)) [MOD 65535]) :
    incrementalUpdate c (p.old buf) p.new ≡
      checksum (overwrite (overwrite buf p.offset p.new) field (be16Bytes 0)) [MOD 65535] := by
  have hlen := length_overwrite h.inside
  have hz := wordSum_setField buf hf hfield (Nat.zero_le 65535)
  have hz' := wordSum_setField (overwrite buf p.offset p.new) hf (by rwa [hlen]) (Nat.zero_le 65535)
  rw [be16_overwrite h.inside hfield h.apart] at hz'
  have hsum := h.wordSum_overwrite
  have hu := @incrementalUpdate_mod p buf c hc
  have hcs := compl_fold_add (wordSum (overwrite buf field (be16Bytes 0)))
  have hcs' := compl_fold_add (wordSum (overwrite (overwrite buf p.offset p.new) field (be16Bytes 0)))
  unfold Nat.ModEq checksum at *
  omega

/-- Replacing a part with the checksum updated leaves the sum, up to a multiple of all ones. -/
theorem wordSum_apply (hf : Even field) (hfield : field + 2 ≤ buf.length) (h : p.Fits field buf) :
    wordSum (p.apply field buf) % 65535 = wordSum buf % 65535 := by
  have hlen := length_overwrite h.inside
  have hset := wordSum_setField (overwrite buf p.offset p.new) hf (by rwa [hlen])
    (incrementalUpdate_le (Packet.be16 buf field) (p.old buf) p.new)
  rw [be16_overwrite h.inside hfield h.apart] at hset
  have hsum := h.wordSum_overwrite
  have hu := @incrementalUpdate_mod p buf _ (Nat.le_of_lt_succ (@Packet.be16_lt buf field))
  rw [Patch.apply]
  omega

theorem verifies_iff : Verifies buf ↔ wordSum buf % 65535 = 0 ∧ ¬ ∀ b ∈ buf, b = 0 := by
  rw [Verifies, checksum_eq_zero, and_comm, ← wordSum_eq_zero]

/-- The verdict stays, but that zeros alone never verify. -/
theorem verifies_apply (hf : Even field) (hfield : field + 2 ≤ buf.length) (h : p.Fits field buf) :
    Verifies (p.apply field buf) ↔ (Verifies buf ∨ ∀ b ∈ buf, b = 0) ∧ ¬ ∀ b ∈ p.apply field buf, b = 0 := by
  have hzero : (∀ b ∈ buf, b = 0) → wordSum buf % 65535 = 0 := fun hb => by rw [wordSum_eq_zero.mpr hb]
  rw [verifies_iff, verifies_iff, wordSum_apply hf hfield h]
  tauto

/-! ## Several parts -/

section Several

variable (hfield : field + 2 ≤ buf.length)
include hfield

theorem length_apply (h : p.Fits field buf) : (p.apply field buf).length = buf.length := by
  have hlen := length_overwrite h.inside
  rw [Patch.apply, length_overwrite (by rwa [hlen]), hlen]

theorem be16_setField {c : ℕ} (hc : c ≤ 65535) : Packet.be16 (overwrite buf field (be16Bytes c)) field = c := by
  have hlen : (overwrite buf field (be16Bytes c)).length = buf.length := length_overwrite hfield
  have hs : slice (overwrite buf field (be16Bytes c)) field (field + 2) = be16Bytes c := by
    apply List.ext_getElem?
    intro j
    rw [slice, Nat.add_sub_cancel_left, List.getElem?_take, List.getElem?_drop, getElem?_overwrite hfield,
      length_be16Bytes, Nat.add_sub_cancel_left]
    by_cases hj : j < 2
    · rw [if_pos hj, if_pos (by omega)]
    · rw [if_neg hj, List.getElem?_eq_none (by rw [length_be16Bytes]; omega)]
  rw [← wordSum_field (by rwa [hlen]), hs, wordSum_be16Bytes (Nat.lt_succ_of_le hc)]

/-- Two parts that do not meet, one after the other: both are in place, and the complement of the checksum has
both deltas added. -/
theorem apply_apply (hp : p.Fits field buf) (hq : q.Fits field buf) (hd : p.Disjoint q) :
    q.apply field (p.apply field buf) =
      overwrite (overwrite (overwrite buf p.offset p.new) q.offset q.new) field
        (be16Bytes (65535 - fold (65535 - Packet.be16 buf field + (p.delta buf + q.delta buf)))) := by
  have hlen := length_overwrite hp.inside
  have hle := incrementalUpdate_le (Packet.be16 buf field) (p.old buf) p.new
  have hin : q.offset + q.new.length ≤ (overwrite buf p.offset p.new).length := by rw [hlen]; exact hq.inside
  have hfield' : field + 2 ≤ (overwrite buf p.offset p.new).length := by rwa [hlen]
  have hold : q.old (p.apply field buf) = q.old buf := by
    rw [Patch.old, Patch.apply, slice_overwrite_of_disjoint hfield' hq.apart,
      slice_overwrite_of_disjoint hp.inside hd.symm, Patch.old]
  have hc : Packet.be16 (p.apply field buf) field = incrementalUpdate (Packet.be16 buf field) (p.old buf) p.new :=
    be16_setField hfield' hle
  have hupdate : incrementalUpdate (incrementalUpdate (Packet.be16 buf field) (p.old buf) p.new)
    (q.old buf) q.new =
      65535 - fold (65535 - Packet.be16 buf field + (p.delta buf + q.delta buf)) := by
    have hfold := fold_le (65535 - Packet.be16 buf field + p.delta buf)
    rw [incrementalUpdate_eq, incrementalUpdate_eq, Nat.sub_sub_self hfold, fold_fold_add, Nat.add_assoc]
  rw [Patch.apply, hold, hc, hupdate, Patch.apply, overwrite_comm hfield' hin hq.apart.symm]
  exact overwrite_overwrite (by rw [length_overwrite hin, hlen]; exact hfield) (by simp)

theorem apply_comm (hp : p.Fits field buf) (hq : q.Fits field buf) (hd : p.Disjoint q) :
    q.apply field (p.apply field buf) = p.apply field (q.apply field buf) := by
  rw [apply_apply hfield hp hq hd, apply_apply hfield hq hp hd.symm, overwrite_comm hp.inside hq.inside hd,
    Nat.add_comm (p.delta buf)]

/-- Parts that do not meet may be replaced in any order. -/
theorem foldl_apply_perm {ps qs : List Patch} (hperm : ps.Perm qs) (hfits : ∀ p ∈ ps, p.Fits field buf)
    (hd : ps.Pairwise Patch.Disjoint) : ps.foldl (Patch.apply field) buf = qs.foldl (Patch.apply field) buf := by
  induction hperm generalizing buf with
  | nil => rfl
  | cons p _ ih =>
    have hp := hfits p (List.mem_cons_self ..)
    have hlen := length_apply hfield hp
    apply ih (by rwa [hlen]) _ (List.pairwise_cons.mp hd).2
    intro q hq
    obtain ⟨ha, hi, hap⟩ := hfits q (List.mem_cons_of_mem _ hq)
    exact ⟨ha, by rwa [hlen], hap⟩
  | swap p q l =>
    have hdis := (List.pairwise_cons.mp hd).1 p (List.mem_cons_self ..)
    rw [List.foldl_cons, List.foldl_cons, List.foldl_cons, List.foldl_cons,
      apply_comm hfield (hfits q (by simp)) (hfits p (by simp)) hdis]
  | trans h₁ _ ih₁ ih₂ =>
    rw [ih₁ hfield hfits hd]
    exact ih₂ hfield (fun p hp => hfits p (h₁.mem_iff.mpr hp)) (h₁.pairwise hd fun hpq => hpq.symm)

end Several

/-! ## Whole words -/

theorem fold_carry (s : ℕ) : fold (carry s) = fold s := by
  by_cases h : s < 65536
  · rw [carry, Nat.mod_eq_of_lt h, Nat.div_eq_of_lt h, Nat.add_zero]
  · conv_rhs => rw [fold, if_neg h]
    rfl

/-- Carries put back as the words come in do not change what all fold to. -/
theorem fold_foldl_carry (f : ℕ → ℕ) (l : List ℕ) (s : ℕ) :
    fold (l.foldl (fun s w => carry (s + f w)) s) = fold (s + (l.map f).sum) := by
  induction l generalizing s with
  | nil => simp
  | cons w l ih =>
    rw [List.foldl_cons, ih, ← fold_fold_add, fold_carry, fold_fold_add, List.map_cons,
      List.sum_cons, Nat.add_assoc]

theorem sum_wholeWords {l : List UInt8} (h : Even l.length) :
    (wholeWords l).sum = wordSum l ∧ ((wholeWords l).map (65535 - ·)).sum = onesComplementWords l := by
  fun_induction wordSum l with
  | case1 => exact ⟨rfl, rfl⟩
  | case2 a => simp at h
  | case3 a b l ih =>
    obtain ⟨hw, ho⟩ := ih (by simpa [Nat.even_add_one] using h)
    simp only [wholeWords, List.sum_cons, List.map_cons, onesComplementWords, hw, ho, and_self]

theorem onesComplementWords_append {x : List UInt8} (hx : Even x.length) (y : List UInt8) :
    onesComplementWords (x ++ y) = onesComplementWords x + onesComplementWords y := by
  fun_induction onesComplementWords x with
  | case1 => simp
  | case2 a => simp at hx
  | case3 a b l ih =>
    have hl : Even l.length := by
      simpa [Nat.even_add_one] using hx
    simp only [List.cons_append, onesComplementWords, ih hl, Nat.add_assoc]

theorem sum_flatMap_wholeWords {ls : List (List UInt8)} (h : ∀ l ∈ ls, Even l.length) :
    (ls.flatMap wholeWords).sum = wordSum ls.flatten ∧
      ((ls.flatMap wholeWords).map (65535 - ·)).sum = onesComplementWords ls.flatten := by
  induction ls with
  | nil => exact ⟨rfl, rfl⟩
  | cons l ls ih =>
    have hl := h l (List.mem_cons_self ..)
    obtain ⟨hw, ho⟩ := ih fun l hl => h l (List.mem_cons_of_mem _ hl)
    obtain ⟨hw', ho'⟩ := sum_wholeWords hl
    constructor
    · rw [List.flatMap_cons, List.sum_append, List.flatten_cons, wordSum_append hl, hw, hw']
    · rw [List.flatMap_cons, List.map_append, List.sum_append, List.flatten_cons,
        onesComplementWords_append hl, ho, ho']

/-- Replacing words in regions of any sizes is the incremental update of all of them. -/
theorem csumReplace_eq (c : ℕ) {old new : List (List UInt8)} (hold : ∀ l ∈ old, Even l.length)
    (hnew : ∀ l ∈ new, Even l.length) : csumReplace c old new = incrementalUpdate c old.flatten new.flatten := by
  have hn := fold_foldl_carry id (new.flatMap wholeWords)
  simp only [id, List.map_id, (sum_flatMap_wholeWords hnew).1] at hn
  rw [csumReplace, hn, ← fold_fold_add, fold_foldl_carry, fold_fold_add, (sum_flatMap_wholeWords hold).2,
    incrementalUpdate]

/-! ## The results -/

/-- An update is the recomputed checksum up to the two zeros; a receiver's verdict stays, but that zeros alone never
verify; parts that do not meet may be replaced in any order; and the sum is that of RFC 1071. -/
theorem update_eq_recompute (hf : Even field) (hfield : field + 2 ≤ buf.length) :
    (∀ (p : Patch) (c : ℕ), p.Fits field buf → c ≤ 65535 →
        c ≡ checksum (overwrite buf field (be16Bytes 0)) [MOD 65535] →
        incrementalUpdate c (p.old buf) p.new ≡
          checksum (overwrite (overwrite buf p.offset p.new) field (be16Bytes 0)) [MOD 65535]) ∧
      (∀ p : Patch, p.Fits field buf → (Verifies (p.apply field buf) ↔
        (Verifies buf ∨ ∀ b ∈ buf, b = 0) ∧ ¬ ∀ b ∈ p.apply field buf, b = 0)) ∧
      (∀ ps qs : List Patch, ps.Perm qs → (∀ p ∈ ps, p.Fits field buf) → ps.Pairwise Patch.Disjoint →
        ps.foldl (Patch.apply field) buf = qs.foldl (Patch.apply field) buf) ∧
      (∀ (c : ℕ) (old new : List (List UInt8)), (∀ l ∈ old, Even l.length) → (∀ l ∈ new, Even l.length) →
        csumReplace c old new = incrementalUpdate c old.flatten new.flatten) ∧
      ∀ data, checksum data = 65535 - rfc1071Sum data :=
  ⟨fun _ _ h hc hold => incrementalUpdate_modEq hf hfield h hc hold, fun _ h => verifies_apply hf hfield h,
    fun _ _ hperm hfits hd => foldl_apply_perm hfield hperm hfits hd,
    fun c _ _ hold hnew => csumReplace_eq c hold hnew, checksum_eq_rfc1071⟩

/-- Two words and their checksum; the first byte of the second word is replaced. -/
theorem update_eq_recompute_odd_part :
    Verifies [0, 1, 0xF2, 3, 0x0D, 0xFB] ∧ Verifies ((Patch.mk 2 [7]).apply 4 [0, 1, 0xF2, 3, 0x0D, 0xFB]) := by
  have hbuf : Verifies [0, 1, 0xF2, 3, 0x0D, 0xFB] := verifies_iff.mpr ⟨by decide, by decide⟩
  obtain ⟨-, hver, -⟩ := @update_eq_recompute 4 [0, 1, 0xF2, 3, 0x0D, 0xFB] (by decide) (by decide)
  refine ⟨hbuf, (hver ⟨2, [7]⟩ ⟨by decide, by decide, by decide⟩).mpr ⟨.inl hbuf, fun hzero => ?_⟩⟩
  have hseven := hzero 7 (by simp [Patch.apply, overwrite])
  exact absurd hseven (by decide)

/-- A buffer that verifies, updated to zeros alone, does not; and an update from the low byte of a word on is not the
recomputed checksum. -/
theorem update_to_zeros :
    (Verifies [0, 1, 0xFF, 0xFE] ∧ (Patch.mk 0 [0, 0]).Fits 2 [0, 1, 0xFF, 0xFE] ∧
      ¬ Verifies ((Patch.mk 0 [0, 0]).apply 2 [0, 1, 0xFF, 0xFE])) ∧
      ¬ incrementalUpdate (checksum [0, 1]) [1] [2] ≡ checksum [0, 2] [MOD 65535] := by
  have hzeros : (Patch.mk 0 [0, 0]).apply 2 [0, 1, 0xFF, 0xFE] = [0, 0, 0, 0] := by
    have hc : incrementalUpdate (Packet.be16 [0, 1, 0xFF, 0xFE] 2) [0, 1] [0, 0] = 0 := by
      rw [incrementalUpdate, fold_eq]
      decide
    rw [Patch.apply, show (Patch.mk 0 [0, 0]).old [0, 1, 0xFF, 0xFE] = [0, 1] by decide, hc]
    decide
  refine ⟨⟨verifies_iff.mpr ⟨by decide, by decide⟩, ⟨by decide, by decide, by decide⟩, ?_⟩, ?_⟩
  · rw [hzeros, verifies_iff]
    exact fun h => h.2 (by simp)
  · simp [incrementalUpdate, checksum, onesComplementWords, wordSum, fold_eq, Nat.ModEq]

end PktKit
