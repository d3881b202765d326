import PktKit.Vtcp.Representation

/-! # What of a segment reaches the receive buffer

`insert` cuts a segment back to its bytes between RCV.NXT and the right edge of the
window, and records what lay before RCV.NXT as received twice. Both are said here in
stream offsets, for whatever the bytes left are then handed to.
-/

namespace PktKit.Vtcp
open Foundations Foundations.Wrapping Foundations.Fragments

namespace RecvBuf

variable {α : Type*} {base seq : Seq} {b b' : RecvBuf α} {d : List α} {k n o p q : ℕ}

/-- How many of `n` bytes from `k` past RCV.NXT on are taken in: what the window has room for, and
without a window all that come in order. -/
def room (b : RecvBuf α) (k n : ℕ) : ℕ := if 0 < b.windowSize ∨ k ≠ 0 then b.window - k else n

/-- The bytes of a segment that are neither before RCV.NXT nor past the window. -/
def part (b : RecvBuf α) (seq : Seq) (data : List α) : List α :=
  (data.drop (b.behind seq)).take (b.room (b.beyond seq) data.length)

/-- No edge was advertised past RCV.NXT plus the window. -/
def OwnEdge (b : RecvBuf α) : Prop :=
  b.advEdge.all (fun adv => !seqAfter adv (b.nxt + BitVec.ofNat 32 b.window)) = true

instance (b : RecvBuf α) : Decidable b.OwnEdge :=
  inferInstanceAs (Decidable (_ = true))

theorem OwnEdge.rightEdge_eq (h : b.OwnEdge) (hb : Shape base b) :
    b.rightEdge = pos base (b.nxtOff + b.window) := by
  rw [← pos_add, ← hb.nxt_eq]
  cases hadv : b.advEdge with
  | none => simp [rightEdge, hadv]
  | some adv =>
    have hnot : seqAfter adv (b.nxt + BitVec.ofNat 32 b.window) = false := by
      simpa [OwnEdge, hadv] using h
    simp [rightEdge, hadv, hnot]

/-! ## Trimming, in stream offsets -/

section Trim

variable (put : RecvBuf α → Seq → Seq → List α → Option (RecvBuf α × ℕ))

theorem insertFromVia_eq (h : Shape base b) (hown : b.OwnEdge) (hwin : b.window < 2 ^ 31) (hd : d ≠ [])
    (hend : k + d.length < 2 ^ 31) (hn : d.length ≤ n) :
    b.insertFromVia put (pos base (b.nxtOff + k)) (pos base (b.nxtOff + k + d.length)) d =
      if (d.take (b.room k n)).isEmpty then some (b, 0)
      else put b (pos base (b.nxtOff + k)) (pos base (b.nxtOff + k + (d.take (b.room k n)).length))
        (d.take (b.room k n)) := by
  have hpos := List.length_pos_of_ne_nil hd
  have hstart : pos base (b.nxtOff + k) ≠ b.nxt ↔ k ≠ 0 := by
    rw [h.nxt_eq, ne_eq, pos_inj_of_near base ⟨by omega, by omega⟩]
    omega
  have hafter : seqAfter (pos base (b.nxtOff + k + d.length)) b.rightEdge = decide (b.window < k + d.length) := by
    rw [hown.rightEdge_eq h, seqAfter_pos base ⟨by omega, by omega⟩]
    exact decide_eq_decide.mpr (by omega)
  rw [insertFromVia, hafter]
  simp only [hstart, decide_eq_true_eq]
  split
  · rename_i hcut
    obtain ⟨hbound, hpast⟩ := hcut
    have hroom : b.room k n = b.window - k := if_pos hbound
    have htrim : (pos base (b.nxtOff + k + d.length) - b.rightEdge).toNat = k + d.length - b.window := by
      rw [hown.rightEdge_eq h, toNat_pos_sub base (by omega) (by omega)]
      omega
    simp only [htrim]
    split
    · rename_i hall
      have hnil : d.take (b.room k n) = [] := by
        rw [List.take_eq_nil_iff]
        left
        omega
      simp [hnil]
    · rename_i hsome
      have hkeep : d.length - (k + d.length - b.window) = b.room k n := by omega
      have hlen : (d.take (b.room k n)).length = b.room k n := by
        rw [List.length_take]
        omega
      have hne : (d.take (b.room k n)).isEmpty = false := by
        rw [List.isEmpty_eq_false_iff]
        exact List.ne_nil_of_length_pos (by omega)
      rw [hkeep, hne, hlen, hown.rightEdge_eq h, if_neg Bool.false_ne_true]
      congr 2
      omega
  · rename_i hfits
    have hall : d.take (b.room k n) = d := by
      rw [List.take_eq_self_iff, room]
      split
      · rename_i hbound
        have : ¬ b.window < k + d.length := fun hpast => hfits ⟨hbound, hpast⟩
        omega
      · exact hn
    rw [hall, if_neg (by simpa using hd)]

/-- An insert cuts its segment back to the part inside the window and records what lay before it. -/
theorem insertVia_eq (h : Shape base b) (hown : b.OwnEdge) (hwin : b.window < 2 ^ 31)
    (hfit : (seq - b.nxt).toInt + d.length < 2 ^ 31) :
    b.insertVia put seq d =
      if (b.part seq d).isEmpty then some ({ b with dup := b.stale seq d }, 0)
      else put { b with dup := b.stale seq d } (pos base (b.nxtOff + b.beyond seq))
        (pos base (b.nxtOff + b.beyond seq + (b.part seq d).length)) (b.part seq d) := by
  obtain ⟨dup, hstale, hfrom⟩ := insertVia_from put h seq d
  rw [hfrom, hstale hfit]
  split
  · rename_i hall
    have hnil : b.part seq d = [] := by rw [part, List.isEmpty_iff.mp hall, List.take_nil]
    simp [hnil]
  · rename_i hsome
    have hlen : (d.drop (b.behind seq)).length = d.length - b.behind seq := List.length_drop
    have hbeyond := beyond_eq b seq
    have hpos := List.length_pos_of_ne_nil (List.isEmpty_eq_false_iff.mp (Bool.eq_false_iff.mpr hsome))
    exact insertFromVia_eq put (h.change_dup (b.stale seq d)) hown hwin (List.ne_nil_of_length_pos hpos)
      (by omega) (by omega)

end Trim

/-! ## What the part holds -/

theorem length_part : (b.part seq d).length = min (b.room (b.beyond seq) d.length) (d.length - b.behind seq) := by
  rw [part, List.length_take, List.length_drop]

/-- The part ends inside the window, or is all in order where there is none. -/
theorem part_end_le (hne : b.part seq d ≠ []) :
    b.beyond seq + (b.part seq d).length ≤ b.window ∨ b.windowSize = 0 ∧ b.beyond seq = 0 := by
  by_cases hbound : 0 < b.windowSize ∨ b.beyond seq ≠ 0
  · have hroom : b.room (b.beyond seq) d.length = b.window - b.beyond seq := if_pos hbound
    have hpos := List.length_pos_of_ne_nil hne
    rw [length_part, hroom] at *
    omega
  · omega

/-- The part ends less than half the sequence space past RCV.NXT. -/
theorem part_reach (hfit : (seq - b.nxt).toInt + d.length < 2 ^ 31) (hne : b.part seq d ≠ []) :
    b.beyond seq + (b.part seq d).length < 2 ^ 31 := by
  have hpos := List.length_pos_of_ne_nil hne
  have hbeyond := beyond_eq b seq
  rw [length_part] at *
  omega

theorem mem_part_of_carriedAt (hcarried : (b.carriedAt seq d o).isSome) (hlo : b.nxtOff ≤ o)
    (hhi : o < b.nxtOff + b.window) :
    b.nxtOff + b.beyond seq ≤ o ∧ o < b.nxtOff + b.beyond seq + (b.part seq d).length := by
  have hbeyond := beyond_eq b seq
  have hsplit : b.beyond seq = 0 ∨ b.behind seq = 0 := by
    rw [beyond, behind]
    omega
  rw [length_part]
  simp only [carriedAt] at hcarried
  split at hcarried
  · simp at hcarried
  · rename_i hnonneg
    have hlt : ((o : ℤ) - (b.nxtOff + (seq - b.nxt).toInt)).toNat < d.length := by
      by_contra hge
      rw [List.getElem?_eq_none (by omega)] at hcarried
      simp at hcarried
    rw [room]
    split <;> omega

/-! ## What is held -/

theorem heldAt_isSome_iff : (b.heldAt o).isSome ↔ ∃ x ∈ b.ooo, x.1 ≤ o ∧ o < rangeEnd x := by
  constructor
  · intro hsome
    obtain ⟨y, hy⟩ := Option.isSome_iff_exists.mp hsome
    obtain ⟨x, hx, hxo, hdata⟩ := heldAt_eq_some hy
    have hlt : o - x.1 < x.2.data.length := (List.getElem?_eq_some_iff.mp hdata).1
    exact ⟨x, hx, hxo, by rw [rangeEnd]; omega⟩
  · rintro ⟨x, hx, hxo, hox⟩
    by_contra hnone
    have hfree := heldAt_eq_none (Option.not_isSome_iff_eq_none.mp hnone) x hx
    omega

/-- Filing a segment past a hole loses no offset held, and covers the segment's. -/
theorem insertOoo_covers (h : Shape base b) (hsh : Short b) (hp : b.nxtOff < p ∧ p < b.nxtOff + 2 ^ 31)
    (hL : d.length < 2 ^ 31) (hi : b.insertOoo (pos base p) d = some b')
    (ho : (b.heldAt o).isSome ∨ p ≤ o ∧ o < p + d.length) : (b'.heldAt o).isSome := by
  obtain ⟨e, dup, rfl, -, hend, -⟩ := insertOoo_spec h hsh hp hL hi
  set m := b.meeting p d.length with hm
  have hsub : ∀ x ∈ m, x ∈ b.ooo := fun x hx => (mem_meeting.mp hx).1
  have hmap : m.Pairwise Apart := h.apart.filter _
  rw [heldAt_isSome_iff]
  simp only [List.mem_append, List.mem_cons]
  rcases ho with hheld | ⟨hpo, hop⟩
  · obtain ⟨x, hx, hxo, hox⟩ := heldAt_isSome_iff.mp hheld
    rw [h.ooo_eq p d.length, ← hm] at hx
    simp only [List.mem_append] at hx
    rcases hx with (hx | hx) | hx
    · exact ⟨x, .inl hx, hxo, hox⟩
    · -- a range the segment met lies inside the merged one
      have h1 := firstStart_le_key hmap (fun y hy => h.placed y (hsub y hy)) p x hx
      have h2 := le_lastEnd hmap (fun y hy => h.placed y (hsub y hy)) p x hx
      exact ⟨(firstStart p m, e), .inr (.inl rfl), by simp only; omega, by rw [rangeEnd, hend]; omega⟩
    · exact ⟨x, .inr (.inr hx), hxo, hox⟩
  · have h1 := firstStart_le p m
    exact ⟨(firstStart p m, e), .inr (.inl rfl), by simp only; omega, by rw [rangeEnd, hend]; omega⟩

end RecvBuf

end PktKit.Vtcp
