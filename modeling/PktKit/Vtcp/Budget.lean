import PktKit.Vtcp.Trimming

/-! # What the budget for data past a hole always has room for

A range costs its bytes and a fixed overhead, and the budget is one and a half
buffers. Ranges and holes of 64 bytes or more never come to that inside the window,
so an insert that leaves no shorter one gives nothing up.
-/

namespace PktKit.Vtcp
open Foundations Foundations.Wrapping Foundations.Fragments

namespace RecvBuf

variable {α : Type*} {base seq : Seq} {b b' : RecvBuf α} {d : List α} {e n o q : ℕ}

def placeUnpruned (b : RecvBuf α) (seq endSeq : Seq) (slice : List α) : Option (RecvBuf α × ℕ) :=
  if seq = b.nxt then
    let b := b.noteRefill endSeq
    let b := { b with buf := b.buf ++ slice, nxt := endSeq, nxtOff := b.nxtOff + slice.length }
    b.mergeOoo.map fun b => (b, slice.length)
  else
    (b.insertOoo seq slice).map fun b => (b.noteRecent seq, 0)

def insertUnpruned (b : RecvBuf α) (seq : Seq) (data : List α) : Option (RecvBuf α × ℕ) :=
  b.insertVia placeUnpruned seq data

/-- Every range, and every hole before one from offset `e` on, is at least 64 bytes long. -/
def Spread : ℕ → List (ℕ × OooEntry α) → Prop
  | _, [] => True
  | e, x :: xs => e + 64 ≤ x.1 ∧ 64 ≤ x.2.data.length ∧ Spread (rangeEnd x) xs

def Inside (b : RecvBuf α) : Prop := ∀ x ∈ b.ooo, rangeEnd x ≤ b.nxtOff + b.window

instance decidableSpread : (e : ℕ) → (xs : List (ℕ × OooEntry α)) → Decidable (Spread e xs)
  | _, [] => .isTrue trivial
  | e, x :: xs =>
    have : Decidable (Spread (rangeEnd x) xs) := decidableSpread (rangeEnd x) xs
    inferInstanceAs (Decidable (e + 64 ≤ x.1 ∧ 64 ≤ x.2.data.length ∧ Spread (rangeEnd x) xs))

/-! ## Counting -/

/-- Each range takes 128 bytes of the window with its hole, and its overhead is covered by its hole
and 64 bytes more. -/
theorem Spread.count {xs : List (ℕ × OooEntry α)} (h : Spread e xs) :
    e + 128 * xs.length ≤ lastEnd e xs ∧
      e + (xs.map fun x => x.2.cost).sum ≤ lastEnd e xs + 64 * xs.length := by
  induction xs generalizing e with
  | nil => simp [lastEnd]
  | cons x xs ih =>
    obtain ⟨hhole, hlen, hrest⟩ := h
    obtain ⟨h1, h2⟩ := ih hrest
    have hx : rangeEnd x = x.1 + x.2.data.length := rfl
    have hcost : x.2.cost = x.2.data.length + 128 := rfl
    simp only [lastEnd, List.length_cons, List.map_cons, List.sum_cons]
    omega

theorem window_eq (hws : b.windowSize < 2 ^ 31) :
    b.window = if b.windowSize = 0 then 65535 else b.windowSize - b.buf.length := by
  rw [window]
  split
  · rfl
  · rw [Nat.mod_eq_of_lt (by omega)]

theorem window_lt (hws : b.windowSize < 2 ^ 31) : b.window < 2 ^ 31 := by
  rw [window_eq hws]
  split <;> omega

theorem window_le_size (hws : b.windowSize < 2 ^ 31) : b.window ≤ max b.windowSize 65535 := by
  rw [window_eq hws]
  split <;> omega

/-- Ranges spread over the window cost no more than the budget. -/
theorem Spread.mem_le (h : Spread b.nxtOff b.ooo) (hb : Shape base b) (hin : Inside b)
    (hws : b.windowSize < 2 ^ 31) : b.oooMem ≤ b.oooBudget := by
  have hlast : lastEnd b.nxtOff b.ooo ≤ b.nxtOff + b.window := by
    rcases lastEnd_cases b.nxtOff b.ooo with ⟨-, hc⟩ | ⟨x, hx, hc⟩
    · omega
    · rw [hc]
      exact hin x hx
  have hsize := window_le_size hws
  obtain ⟨h1, h2⟩ := h.count
  rw [hb.mem_eq, oooBudget]
  omega

theorem prune_of_le (h : b.oooMem ≤ b.oooBudget) : b.prune = b := by
  rw [prune]
  cases b.ooo.length with
  | zero => rfl
  | succ n => rw [pruneLoop, if_neg (by omega)]

/-! ## An insert that gives nothing up -/

theorem placeUnpruned_eq {seq endSeq : Seq} (hi : b.placeUnpruned seq endSeq d = some (b', n))
    (hmem : b'.oooMem ≤ b'.oooBudget) : b.place seq endSeq d = some (b', n) := by
  rw [placeUnpruned] at hi
  rw [place]
  split at hi
  · rename_i hin
    rw [if_pos hin]
    exact hi
  · rename_i hout
    rw [if_neg hout]
    obtain ⟨c, hc, hcb⟩ := Option.map_eq_some_iff.mp hi
    obtain ⟨recent, hrecent⟩ := noteRecent_eq c seq
    obtain ⟨rfl, rfl⟩ := Prod.mk.inj hcb
    have hle : c.oooMem ≤ c.oooBudget := by
      rw [hrecent] at hmem
      exact hmem
    rw [hc, Option.map_some, prune_of_le hle]

/-- What an insert that gives nothing up leaves: ranges in shape and inside the window, and at every
offset held before and every one of the bytes taken in something held or readable. -/
structure Kept (base : Seq) (q : ℕ) (d : List α) (b b' : RecvBuf α) : Prop where
  shape : Shape base b'
  inside : Inside b'
  size : b'.windowSize = b.windowSize
  covers : ∀ o, (b.heldAt o).isSome ∨ q ≤ o ∧ o < q + d.length → (b'.heldAt o).isSome ∨ o < b'.nxtOff

/-- The window's edge does not move back as data comes in order. -/
theorem edge_mono {new : List α} (hws : b.windowSize < 2 ^ 31) (hsize : b'.windowSize = b.windowSize)
    (hbuf : b'.buf = b.buf ++ new) (hnxt : b'.nxtOff = b.nxtOff + new.length) :
    b.nxtOff + b.window ≤ b'.nxtOff + b'.window := by
  rw [window_eq hws, window_eq (by omega), hsize, hbuf, hnxt, List.length_append]
  split <;> omega

/-- Taking bytes in keeps the ranges inside the window, if the bytes are or come in order. -/
theorem Grown.inside (h : Grown base q d b b' n) (hin : Inside b) (hws : b.windowSize < 2 ^ 31)
    (hq : q + d.length ≤ b.nxtOff + b.window ∨ q + d.length ≤ b'.nxtOff) : Inside b' := by
  obtain ⟨moved, ooo, mem, recent, dup, hb', -, -⟩ := h.frame
  have hedge : b.nxtOff + b.window ≤ b'.nxtOff + b'.window :=
    edge_mono hws (by rw [hb']) (by rw [hb']) (by rw [hb'])
  obtain ⟨-, hbound⟩ := h.bound (b'.nxtOff + b'.window) (by omega) (by omega) fun x hx => by
    have := hin x hx
    omega
  exact hbound

theorem placeUnpruned_kept (h : Shape base b) (hsh : Short b) (hin : Inside b) (hws : b.windowSize < 2 ^ 31)
    (hq : b.nxtOff ≤ q) (hd : d ≠ []) (hend : q + d.length < b.nxtOff + 2 ^ 31)
    (hwin : q + d.length ≤ b.nxtOff + b.window ∨ q = b.nxtOff) :
    ∃ b' n, b.placeUnpruned (pos base q) (pos base (q + d.length)) d = some (b', n) ∧ Kept base q d b b' := by
  have hd0 := List.length_pos_of_ne_nil hd
  have heq := h.pos_eq_nxt (q := q) ⟨by omega, by omega⟩
  rw [placeUnpruned]
  split
  · rename_i hnext
    obtain rfl : q = b.nxtOff := heq.mp hnext
    obtain ⟨dup, hdup⟩ := noteRefill_eq b (pos base (b.nxtOff + d.length))
    obtain ⟨c, hc, hgrown, hkept, -⟩ := mergeOoo_grown (h.change_dup dup) (d := d) hsh (by omega)
    obtain ⟨moved, ooo, mem, recent, dup', hframe, -, -⟩ := hgrown.frame
    have hpast : b.nxtOff + d.length ≤ c.nxtOff := by
      rw [hframe]
      simp
    simp only [hdup]
    simp only at hc
    rw [hc]
    refine ⟨c, d.length, rfl, hgrown.shape, ?_, by rw [hframe], ?_⟩
    · exact hgrown.change_dup.inside hin hws (.inr hpast)
    · rintro o (hheld | hseg)
      · obtain ⟨x, hx, hxo, hox⟩ := heldAt_isSome_iff.mp hheld
        rcases hkept x hx with hmem | hle
        · exact .inl (heldAt_isSome_iff.mpr ⟨x, hmem, hxo, hox⟩)
        · exact .inr (by omega)
      · exact .inr (by omega)
  · rename_i hout
    have hlt : b.nxtOff < q := lt_of_le_of_ne hq fun he => hout (heq.mpr he.symm)
    obtain ⟨c, hc⟩ := insertOoo_isSome h hsh hlt hd hend
    have hfiled := insertOoo_filed h hsh ⟨hlt, by omega⟩ hd (by omega) hc
    obtain ⟨ooo, mem, recent, dup, hframe⟩ := hfiled.frame
    obtain ⟨recent', hrecent⟩ := noteRecent_eq c (pos base q)
    have hcovers := fun o => insertOoo_covers (o := o) h hsh ⟨hlt, by omega⟩ (by omega) hc
    rw [hc, Option.map_some, hrecent]
    refine ⟨{ c with recent := recent' }, 0, rfl, ?_, ?_, ?_, fun o ho => .inl (hcovers o ho)⟩
    · exact ⟨hfiled.shape.nxt_eq, hfiled.shape.apart, hfiled.shape.placed, hfiled.shape.ahead,
        hfiled.shape.mem_eq⟩
    · have hbound := hfiled.bound (b.nxtOff + b.window) (by omega) hin
      rw [hframe] at hbound ⊢
      exact hbound
    · rw [hframe]

theorem insertUnpruned_kept (h : Shape base b) (hin : Inside b) (hws : b.windowSize < 2 ^ 31) (hown : b.OwnEdge)
    (hfit : (seq - b.nxt).toInt + d.length < 2 ^ 31) :
    ∃ b' n, b.insertUnpruned seq d = some (b', n) ∧
      Kept base (b.nxtOff + b.beyond seq) (b.part seq d) b b' ∧
      (b'.oooMem ≤ b'.oooBudget → b.insert seq d = some (b', n)) := by
  have hwin := window_lt hws
  rw [insertUnpruned, insert_eq_insertVia, insertVia_eq _ h hown hwin hfit, insertVia_eq _ h hown hwin hfit]
  by_cases hnil : b.part seq d = []
  · simp only [hnil, List.isEmpty_nil, if_true]
    refine ⟨_, _, rfl, ⟨h.change_dup _, hin, rfl, ?_⟩, fun _ => rfl⟩
    rintro o (hheld | hseg)
    · exact .inl hheld
    · simp at hseg
      omega
  · have hreach := part_reach hfit hnil
    have hsh : Short b := h.short_of_reach fun x hx => by
      have := hin x hx
      omega
    rw [if_neg (by simpa using hnil), if_neg (by simpa using hnil)]
    obtain ⟨b', n, hi, hkept⟩ := placeUnpruned_kept (h.change_dup (b.stale seq d)) hsh hin hws
      (Nat.le_add_right _ (b.beyond seq)) hnil (by simp only; omega) (by
        have hpart := part_end_le hnil
        simp only
        change _ ≤ b.nxtOff + b.window ∨ _
        omega)
    exact ⟨b', n, hi, ⟨hkept.shape, hkept.inside, hkept.size, hkept.covers⟩, fun hmem => placeUnpruned_eq hi hmem⟩

theorem place_count {endSeq : Seq} (hi : b.place b.nxt endSeq d = some (b', n)) : n = d.length := by
  rw [place, if_pos rfl] at hi
  obtain ⟨c, -, hc⟩ := Option.map_eq_some_iff.mp hi
  exact (Prod.mk.inj hc).2.symm

/-- Whatever it gives up, an insert leaves the ranges in shape and inside the window. -/
theorem insert_inside (h : Shape base b) (hin : Inside b) (hws : b.windowSize < 2 ^ 31) (hown : b.OwnEdge)
    (hfit : (seq - b.nxt).toInt + d.length < 2 ^ 31) (hi : b.insert seq d = some (b', n)) :
    Shape base b' ∧ Inside b' ∧ b'.windowSize = b.windowSize := by
  have hwin := window_lt hws
  rw [insert_eq_insertVia, insertVia_eq _ h hown hwin hfit] at hi
  by_cases hnil : b.part seq d = []
  · simp only [hnil, List.isEmpty_nil, if_true, Option.some.injEq, Prod.mk.injEq] at hi
    obtain ⟨rfl, -⟩ := hi
    exact ⟨h.change_dup _, hin, rfl⟩
  · have hreach := part_reach hfit hnil
    have hsh : Short b := h.short_of_reach fun x hx => by
      have := hin x hx
      omega
    rw [if_neg (by simpa using hnil)] at hi
    have hgrown := (place_grown (h.change_dup (b.stale seq d)) hsh ⟨Nat.le_add_right _ _, by simp only; omega⟩
      hnil (by omega) hi).change_dup
    obtain ⟨moved, ooo, mem, recent, dup, hframe, -, -⟩ := hgrown.frame
    refine ⟨hgrown.shape, hgrown.inside hin hws ?_, by rw [hframe]⟩
    rcases part_end_le hnil with hle | ⟨-, hzero⟩
    · left
      simp only
      omega
    · right
      have hn : n = (b.part seq d).length := by
        rw [hzero, Nat.add_zero, ← h.nxt_eq] at hi
        exact place_count hi
      rw [hframe, hzero, hn, List.take_length]
      simp

theorem read_inside (hin : Inside b) (hws : b.windowSize < 2 ^ 31) (n : ℕ) : Inside (b.read n).1 := by
  intro x hx
  have hx' := hin x hx
  have hle : b.window ≤ (b.read n).1.window := by
    rw [window_eq hws, window_eq (b := (b.read n).1) hws]
    simp only [read, List.length_drop]
    split <;> omega
  change rangeEnd x ≤ b.nxtOff + (b.read n).1.window
  omega

namespace Traced

variable {s t : Traced α}

/-- An insert with no edge advertised past the window, the segment ending less than half the sequence
space ahead; a limit that does not take the window back. -/
def InOwnSize (s : Traced α) : Op α → Prop
  | .insert seq d => s.Fits (.insert seq d) ∧ s.buf.OwnEdge
  | .read _ => True
  | .setAdvEdge _ => True
  | .setLimit limit => limit < 2 ^ 31 ∧ s.buf.window ≤ (s.buf.setLimit limit).window

/-- Every range and every hole before one is at least 64 bytes long with the segment taken in. -/
def LeavesSpread (s : Traced α) : Op α → Prop
  | .insert seq d => (s.buf.insertUnpruned seq d).all (fun r => decide (Spread r.1.nxtOff r.1.ooo)) = true
  | .read _ => True
  | .setAdvEdge _ => True
  | .setLimit _ => True

instance (s : Traced α) (op : Op α) : Decidable (s.InOwnSize op) :=
  match op with
  | .insert seq d => inferInstanceAs (Decidable (s.Fits (.insert seq d) ∧ s.buf.OwnEdge))
  | .read _ => .isTrue trivial
  | .setAdvEdge _ => .isTrue trivial
  | .setLimit limit =>
    inferInstanceAs (Decidable (limit < 2 ^ 31 ∧ s.buf.window ≤ (s.buf.setLimit limit).window))

instance (s : Traced α) (op : Op α) : Decidable (s.LeavesSpread op) :=
  match op with
  | .insert _ _ => inferInstanceAs (Decidable (_ = true))
  | .read _ => .isTrue trivial
  | .setAdvEdge _ => .isTrue trivial
  | .setLimit _ => .isTrue trivial

/-- The ranges are in shape and inside a window of less than half the sequence space. -/
structure Own (base : Seq) (s : Traced α) : Prop where
  shape : s.buf.Shape base
  inside : s.buf.Inside
  size : s.buf.windowSize < 2 ^ 31

theorem Own.reach (h : Own base s) : s.buf.Reach := by
  intro x hx
  have h1 := h.inside x hx
  have h2 := window_lt h.size
  omega

theorem own_new {windowSize : ℕ} (hws : windowSize < 2 ^ 31) : Own base (new base windowSize : Traced α) where
  shape := shape_new base windowSize
  inside := by simp [new, RecvBuf.new, Inside]
  size := hws

theorem own_step (h : Own base s) {op : Op α} (hown : s.InOwnSize op) (ht : s.step op = some t) : Own base t := by
  have hshape := h.shape
  cases op with
  | insert seq d =>
    obtain ⟨⟨b', n⟩, hi, rfl⟩ := Option.map_eq_some_iff.mp ht
    obtain ⟨h1, h2, h3⟩ := insert_inside h.shape h.inside h.size hown.2 hown.1 hi
    exact ⟨h1, h2, h3.trans_lt h.size⟩
  | read n =>
    obtain rfl := Option.some.inj ht
    exact ⟨⟨hshape.nxt_eq, hshape.apart, hshape.placed, hshape.ahead, hshape.mem_eq⟩,
      read_inside h.inside h.size n, h.size⟩
  | setAdvEdge edge =>
    obtain rfl := Option.some.inj ht
    obtain ⟨adv, hadv⟩ := setAdvEdge_eq s.buf edge
    rw [hadv]
    exact ⟨⟨hshape.nxt_eq, hshape.apart, hshape.placed, hshape.ahead, hshape.mem_eq⟩, h.inside, h.size⟩
  | setLimit limit =>
    obtain rfl := Option.some.inj ht
    obtain ⟨hlim, hle⟩ := hown
    refine ⟨⟨hshape.nxt_eq, hshape.apart, hshape.placed, hshape.ahead, hshape.mem_eq⟩, fun x hx => ?_, hlim⟩
    have hx' := h.inside x hx
    change rangeEnd x ≤ s.buf.nxtOff + (s.buf.setLimit limit).window
    omega

/-- An insert that leaves every range and hole at least 64 bytes long gives nothing up, and holds every
byte of its segment inside the window until it is readable. -/
theorem insert_spread {d : List α} (h : Own base s) (hown : s.InOwnSize (.insert seq d)) :
    ∃ b' n, s.buf.insertUnpruned seq d = some (b', n) ∧
      (Spread b'.nxtOff b'.ooo → s.buf.insert seq d = some (b', n) ∧
        (∀ o x, s.buf.heldAt o = some x → b'.heldAt o = some x ∨ o < b'.nxtOff) ∧
        ∀ o, (s.buf.carriedAt seq d o).isSome → s.buf.nxtOff ≤ o → o < s.buf.nxtOff + s.buf.window →
          (b'.heldAt o).isSome ∨ o < b'.nxtOff) := by
  obtain ⟨b', n, hu, hkept, himp⟩ := insertUnpruned_kept h.shape h.inside h.size hown.2 hown.1
  refine ⟨b', n, hu, fun hspread => ?_⟩
  have hsize : b'.windowSize < 2 ^ 31 := hkept.size.trans_lt h.size
  have hi := himp (hspread.mem_le hkept.shape hkept.inside hsize)
  refine ⟨hi, fun o x hx => ?_, fun o hcarried hlo hhi => ?_⟩
  · rcases hkept.covers o (.inl (by rw [hx]; rfl)) with hheld | hread
    · obtain ⟨y, hy⟩ := Option.isSome_iff_exists.mp hheld
      obtain ⟨b'', n', q, d', hi', hgrown, hreads, -⟩ := insert_grown h.shape h.reach hown.1
      obtain ⟨rfl, rfl⟩ := Prod.mk.inj (Option.some.inj (hi'.symm.trans hi))
      have hor := hgrown.heldAt h.shape hreads hy
      rw [hx, Option.some_or] at hor
      exact .inl (hy.trans hor.symm)
    · exact .inr hread
  · exact hkept.covers o (.inr (mem_part_of_carriedAt hcarried hlo hhi))

/-- A byte held past a hole stays held over an operation that leaves no short range or hole, unless it
becomes readable. -/
theorem held_step {op : Op α} {x : α} (h : Own base s) (hown : s.InOwnSize op) (hspread : s.LeavesSpread op)
    (ht : s.step op = some t) (hx : s.buf.heldAt o = some x ∨ o < s.buf.nxtOff) :
    t.buf.heldAt o = some x ∨ o < t.buf.nxtOff := by
  cases op with
  | insert seq d =>
    obtain ⟨⟨c, m⟩, hi, rfl⟩ := Option.map_eq_some_iff.mp ht
    obtain ⟨b', n, hu, himp⟩ := insert_spread h hown
    have hs : Spread b'.nxtOff b'.ooo := by
      simpa [LeavesSpread, hu] using hspread
    obtain ⟨hi', hheld, -⟩ := himp hs
    obtain ⟨rfl, rfl⟩ := Prod.mk.inj (Option.some.inj (hi.symm.trans hi'))
    rcases hx with hx | hread
    · exact hheld o x hx
    · obtain ⟨b'', n', q, d', hi'', hgrown, -, -⟩ := insert_grown h.shape h.reach hown.1
      obtain ⟨rfl, rfl⟩ := Prod.mk.inj (Option.some.inj (hi''.symm.trans hi))
      obtain ⟨_, _, _, _, _, hframe, -, -⟩ := hgrown.frame
      have hnxt : s.buf.nxtOff ≤ b''.nxtOff := by
        rw [hframe]
        exact Nat.le_add_right _ _
      exact .inr (hread.trans_le hnxt)
  | read n =>
    obtain rfl := Option.some.inj ht
    exact hx
  | setAdvEdge edge =>
    obtain rfl := Option.some.inj ht
    obtain ⟨adv, hadv⟩ := setAdvEdge_eq s.buf edge
    rw [hadv]
    exact hx
  | setLimit limit =>
    obtain rfl := Option.some.inj ht
    exact hx

/-- In every run within the buffer's own size, an insert that leaves every range and every hole before
one at least 64 bytes long prunes nothing and takes in every byte it carries inside the window; and over
every run of such inserts what is held past a hole stays held until it is readable. -/
theorem insert_prunes_nothing {windowSize : ℕ} (hws : windowSize < 2 ^ 31) {ops : List (Op α)}
    (hrun : Runs.run step (new base windowSize) ops = some s)
    (hown : ∀ pre op post u, ops = pre ++ op :: post → Runs.run step (new base windowSize) pre = some u →
      u.InOwnSize op) :
    (∀ seq (d : List α), s.InOwnSize (.insert seq d) → s.LeavesSpread (.insert seq d) →
      ∃ b' n, s.buf.insert seq d = some (b', n) ∧ s.buf.insertUnpruned seq d = some (b', n) ∧
        ∀ o, (s.buf.carriedAt seq d o).isSome → s.buf.nxtOff ≤ o → o < s.buf.nxtOff + s.buf.window →
          (b'.heldAt o).isSome ∨ o < b'.nxtOff) ∧
    ∀ ops' t, Runs.run step s ops' = some t →
      (∀ pre op post u, ops' = pre ++ op :: post → Runs.run step s pre = some u →
        u.InOwnSize op ∧ u.LeavesSpread op) →
      ∀ o x, s.buf.heldAt o = some x → t.buf.heldAt o = some x ∨ o < t.buf.nxtOff := by
  have hs : Own base s := Runs.run_invariant_of (C := InOwnSize)
    (fun _ _ _ h hc ht => own_step h hc ht) hrun (own_new hws) hown
  constructor
  · intro seq d hnext hspread
    obtain ⟨b', n, hu, himp⟩ := insert_spread hs hnext
    obtain ⟨hi, -, hcarried⟩ := himp (by simpa [LeavesSpread, hu] using hspread)
    exact ⟨b', n, hi, hu, hcarried⟩
  · intro ops' t hrun' hall o x hx
    have hinv : Own base t ∧ (t.buf.heldAt o = some x ∨ o < t.buf.nxtOff) :=
      Runs.run_invariant_of (P := fun u => Own base u ∧ (u.buf.heldAt o = some x ∨ o < u.buf.nxtOff))
        (C := fun u op => u.InOwnSize op ∧ u.LeavesSpread op)
        (fun _ _ _ h hc ht => ⟨own_step h.1 hc.1 ht, held_step h.1 hc.1 hc.2 ht h.2⟩) hrun' ⟨hs, .inl hx⟩ hall
    exact hinv.2

/-- A second segment past a hole, then the first hole filled, then a read. -/
theorem insert_prunes_nothing_sample : ∃ s t : Traced ℕ,
    Runs.run step (new 4294967200 65536) [.insert 4294967264 (List.replicate 64 1)] = some s ∧
    Runs.run step s [.insert 96 (List.replicate 64 2), .insert 4294967200 (List.replicate 64 3),
      .read 9] = some t ∧
    s.LeavesSpread (.insert 96 (List.replicate 64 2)) ∧
    (∃ b' n, s.buf.insert 96 (List.replicate 64 2) = some (b', n) ∧
      s.buf.insertUnpruned 96 (List.replicate 64 2) = some (b', n)) ∧
    (t.buf.heldAt 64 = some 1 ∨ 64 < t.buf.nxtOff) := by
  obtain ⟨s, hs, hd, hsome, halong⟩ := Runs.exists_of_any
    (o := Runs.run step (new 4294967200 65536 : Traced ℕ) [.insert 4294967264 (List.replicate 64 1)])
    (P := fun s => (s.InOwnSize (.insert 96 (List.replicate 64 2)) ∧
        s.LeavesSpread (.insert 96 (List.replicate 64 2)) ∧ s.buf.heldAt 64 = some 1) ∧ (Runs.run step s
          [.insert 96 (List.replicate 64 2), .insert 4294967200 (List.replicate 64 3), .read 9]).isSome ∧
        Runs.along step (fun u op => u.InOwnSize op ∧ u.LeavesSpread op) s
          [.insert 96 (List.replicate 64 2), .insert 4294967200 (List.replicate 64 3), .read 9])
    (by decide +kernel) fun _ _ h => h
  obtain ⟨hown, hspread, hheld⟩ := hd
  obtain ⟨t, ht⟩ := Option.isSome_iff_exists.mp hsome
  obtain ⟨hnext, hkept⟩ := insert_prunes_nothing (by decide) hs (Runs.along_sound (by decide +kernel))
  obtain ⟨b', n, hi, hu, -⟩ := hnext _ _ hown hspread
  exact ⟨s, t, hs, ht, hspread, ⟨b', n, hi, hu⟩, hkept _ t ht (Runs.along_sound halong) 64 1 hheld⟩

end Traced

/-! ## A window full of short ranges -/

/-- A segment past a hole that meets no range is filed as it is. -/
theorem insert_alone (h : Shape base b) (hws : b.windowSize < 2 ^ 31) (hown : b.OwnEdge) (hd : d ≠ [])
    (hq : b.nxtOff < q) (hend : q + d.length ≤ b.nxtOff + b.window) (halone : b.meeting q d.length = []) :
    ∃ recent, b.insert (pos base q) d = some ({ ({ b with
      ooo := b.before q ++ (q, ⟨pos base q, d⟩) :: b.after q d.length
      oooMem := b.oooMem + (d.length + 128), dup := none } : RecvBuf α).prune with recent := recent }, 0) := by
  have hwin := window_lt hws
  have hd0 := List.length_pos_of_ne_nil hd
  have hz : (pos base q - b.nxt).toInt = (q : ℤ) - b.nxtOff := by
    rw [h.nxt_eq, toInt_pos_sub_of_near base ⟨by omega, by omega⟩]
  have hbehind : b.behind (pos base q) = 0 := by
    rw [behind, hz]
    omega
  have hbeyond : b.beyond (pos base q) = q - b.nxtOff := by
    rw [beyond, hz]
    omega
  have hpart : b.part (pos base q) d = d := by
    rw [part, hbehind, hbeyond, List.drop_zero, room, if_pos (by omega), List.take_of_length_le (by omega)]
  have hstale : b.stale (pos base q) d = none := by simp [stale, hbehind]
  rw [insert_eq_insertVia, insertVia_eq _ h hown hwin (by omega), hpart, hstale, hbeyond,
    Nat.add_sub_cancel' hq.le, if_neg (by simpa using hd), place, if_neg]
  swap
  · rw [show ({ b with dup := none } : RecvBuf α).nxt = b.nxt from rfl, h.nxt_eq,
      pos_inj_of_near base ⟨by omega, by omega⟩]
    omega
  have hb := h.change_dup none
  have hlo : ({ b with dup := none } : RecvBuf α).off (pos base q) = q :=
    hb.off_pos ⟨by simp only; omega, by simp only; omega⟩
  have hhi : ({ b with dup := none } : RecvBuf α).off (pos base (q + d.length)) = q + d.length :=
    hb.off_pos ⟨by simp only; omega, by simp only; omega⟩
  have htouch := hb.touching_eq (p := q) (n := d.length) ⟨hq, by simp only; omega⟩ (by omega) (by rw [hhi]; omega)
  have hput := h.putRange_eq q d.length ⟨pos base q, d⟩
  have hkeys := h.filter_keys q d.length
  rw [halone] at hput hkeys
  have hself : b.before q ++ b.after q d.length = b.ooo := by simpa using hkeys.symm
  rw [hself, firstStart] at hput
  have halone' : ({ b with dup := none } : RecvBuf α).meeting q d.length = [] := halone
  rw [hhi, halone'] at htouch
  simp only [insertOoo, pos_add, hlo, hhi, htouch, List.isEmpty_nil, if_true, hput]
  rw [if_neg (by omega), Option.map_some]
  obtain ⟨recent, hrecent⟩ := noteRecent_eq ({ b with
      ooo := b.before q ++ (q, ⟨pos base q, d⟩) :: b.after q d.length
      oooMem := b.oooMem + (d.length + 128), dup := none } : RecvBuf α).prune (pos base q)
  exact ⟨recent, by rw [← hrecent]; rfl⟩

/-- Over the budget by no more than the last range costs, only that range is given up. -/
theorem prune_last (pre : List (ℕ × OooEntry α)) (x : ℕ × OooEntry α) (hooo : b.ooo = pre ++ [x])
    (hover : b.oooBudget < b.oooMem) (hunder : b.oooMem - x.2.cost ≤ b.oooBudget) :
    b.prune = { b with ooo := pre, oooMem := b.oooMem - x.2.cost } := by
  have hlen : b.ooo.length = pre.length + 1 := by rw [hooo, List.length_append, List.length_singleton]
  have hlast : b.ooo.getLast? = some x := by rw [hooo, List.getLast?_concat]
  have hdrop : b.ooo.dropLast = pre := by rw [hooo, List.dropLast_concat]
  rw [prune, hlen, pruneLoop, if_pos hover, hlast, hdrop]
  cases pre with
  | nil => rfl
  | cons y ys => exact if_neg (not_lt.mpr hunder)

theorem Spread.concat {xs : List (ℕ × OooEntry α)} {x : ℕ × OooEntry α} (h : Spread e xs)
    (hhole : lastEnd e xs + 64 ≤ x.1) (hlen : 64 ≤ x.2.data.length) : Spread e (xs ++ [x]) := by
  induction xs generalizing e with
  | nil => exact ⟨hhole, hlen, trivial⟩
  | cons y ys ih => exact ⟨h.1, h.2.1, ih h.2.2 hhole⟩

/-- Ranges of 64 bytes with holes of 64 bytes before them. -/
def comb (k : ℕ) : List (ℕ × OooEntry ℕ) :=
  (List.range k).map fun j => (128 * j + 64, ⟨pos 0 (128 * j + 64), List.replicate 64 0⟩)

theorem mem_comb {x : ℕ × OooEntry ℕ} : x ∈ comb k ↔
    ∃ j < k, x = (128 * j + 64, ⟨pos 0 (128 * j + 64), List.replicate 64 0⟩) := by
  simp [comb, eq_comm]

theorem comb_succ : comb (k + 1) = comb k ++ [(128 * k + 64, ⟨pos 0 (128 * k + 64), List.replicate 64 0⟩)] := by
  simp [comb, List.range_succ]

theorem rangeEnd_comb {x : ℕ × OooEntry ℕ} (hx : x ∈ comb k) :
    ∃ j < k, x.1 = 128 * j + 64 ∧ rangeEnd x = 128 * j + 128 := by
  obtain ⟨j, hj, rfl⟩ := mem_comb.mp hx
  exact ⟨j, hj, rfl, by simp [rangeEnd]⟩

/-- An empty buffer of 65536 bytes, but for `k` such ranges. -/
def combed (k : ℕ) (recent : List Seq) : RecvBuf ℕ :=
  { RecvBuf.new 0 65536 with ooo := comb k, oooMem := 192 * k, recent := recent }

@[simp] theorem combed_ooo {recent : List Seq} : (combed k recent).ooo = comb k := rfl

@[simp] theorem combed_nxtOff {recent : List Seq} : (combed k recent).nxtOff = 0 := rfl

@[simp] theorem combed_window {recent : List Seq} : (combed k recent).window = 65536 := rfl

@[simp] theorem combed_oooMem {recent : List Seq} : (combed k recent).oooMem = 192 * k := rfl

@[simp] theorem combed_oooBudget {recent : List Seq} : (combed k recent).oooBudget = 98304 := by
  simp [combed, oooBudget, RecvBuf.new]

theorem spread_comb : Spread 0 (comb k) := by
  induction k with
  | zero => trivial
  | succ k ih =>
    rw [comb_succ]
    refine ih.concat ?_ (by simp)
    rcases lastEnd_cases 0 (comb k) with ⟨-, hc⟩ | ⟨x, hx, hc⟩
    · simp only [hc]
      omega
    · obtain ⟨j, hj, -, hend⟩ := rangeEnd_comb hx
      simp only [hc, hend]
      omega


theorem spread_combed {recent : List Seq} {b : RecvBuf ℕ} (hb : b = combed k recent) : Spread b.nxtOff b.ooo := by
  rw [hb]
  exact spread_comb

namespace Traced

/-- The segments that leave `k` such ranges. -/
def combOps (k : ℕ) : List (Op ℕ) :=
  (List.range k).map fun j => .insert (pos 0 (128 * j + 64)) (List.replicate 64 0)

theorem combOps_succ {k : ℕ} :
    combOps (k + 1) = combOps k ++ [.insert (pos 0 (128 * k + 64)) (List.replicate 64 0)] := by
  simp [combOps, List.range_succ]

theorem inOwnSize_combed {k p : ℕ} {recent : List Seq} {s : Traced ℕ} {d : List ℕ} (hs : s.buf = combed k recent)
    (hp : p + d.length < 2 ^ 31) : s.InOwnSize (.insert (pos 0 p) d) := by
  have hnxt : s.buf.nxt = pos 0 0 := by rw [hs]; rfl
  have hadv : s.buf.advEdge = none := by rw [hs]; rfl
  refine ⟨?_, by simp [OwnEdge, hadv]⟩
  rw [Fits, hnxt, toInt_pos_sub_of_near 0 ⟨by omega, by omega⟩]
  omega

/-- One more range fits while there is room in the window. -/
theorem combed_step {k : ℕ} {recent : List Seq} {s : Traced ℕ} (hs : s.buf = combed k recent) (h : Own 0 s)
    (hk : k < 512) :
    ∃ t recent', s.step (.insert (pos 0 (128 * k + 64)) (List.replicate 64 0)) = some t ∧
      t.buf = combed (k + 1) recent' := by
  have hfar : ∀ x ∈ s.buf.ooo, rangeEnd x < 128 * k + 64 := by
    rw [hs]
    intro x hx
    obtain ⟨j, hj, -, hend⟩ := rangeEnd_comb hx
    omega
  have hmeeting : s.buf.meeting (128 * k + 64) (List.replicate 64 0).length = [] := by
    rw [meeting, List.filter_eq_nil_iff]
    intro x hx
    have := hfar x hx
    simp
    omega
  have hbefore : s.buf.before (128 * k + 64) = comb k := by
    rw [before, List.filter_eq_self.mpr (by simpa using hfar), hs, combed_ooo]
  have hafter : s.buf.after (128 * k + 64) (List.replicate 64 0).length = [] := by
    rw [after, List.filter_eq_nil_iff]
    intro x hx
    have h1 := hfar x hx
    have h2 := h.shape.lt_rangeEnd hx
    simp
    omega
  have hnxt : s.buf.nxtOff = 0 := by rw [hs, combed_nxtOff]
  have hwindow : s.buf.window = 65536 := by rw [hs, combed_window]
  obtain ⟨recent', hi⟩ := insert_alone h.shape h.size (inOwnSize_combed (p := 0) (d := []) hs (by simp)).2
    (q := 128 * k + 64) (d := List.replicate 64 0) (by simp) (by omega)
    (by rw [hnxt, hwindow, List.length_replicate]; omega) hmeeting
  rw [hbefore, hafter, ← comb_succ, List.length_replicate, prune_of_le] at hi
  · rw [step, hi, Option.map_some]
    refine ⟨_, recent', rfl, ?_⟩
    simp only [hs, combed, RecvBuf.new, RecvBuf.mk.injEq, true_and, and_true]
    omega
  · rw [hs]
    simp only [combed, RecvBuf.new, oooBudget]
    omega

theorem combed_run {k : ℕ} (hk : k ≤ 512) : ∃ s recent, Runs.run step (new 0 65536) (combOps k) = some s ∧
    s.buf = combed k recent ∧
    ∀ pre op post u, combOps k = pre ++ op :: post → Runs.run step (new 0 65536) pre = some u →
      u.InOwnSize op := by
  induction k with
  | zero =>
    refine ⟨new 0 65536, [], rfl, rfl, ?_⟩
    intro pre op post u hops
    simp [combOps] at hops
  | succ k ih =>
    obtain ⟨s, recent, hrun, hs, hown⟩ := ih (by omega)
    have hinv : Own 0 s := Runs.run_invariant_of (C := InOwnSize)
      (fun _ _ _ h hc ht => own_step h hc ht) hrun (own_new (by decide)) hown
    obtain ⟨t, recent', ht, hbuf⟩ := combed_step hs hinv (by omega)
    refine ⟨t, recent', ?_, hbuf, ?_⟩
    · rw [combOps_succ, Runs.run_append]
      exact ⟨s, hrun, Runs.run_cons.mpr ⟨t, ht, rfl⟩⟩
    · intro pre op post u hops hu
      rw [combOps_succ] at hops
      rcases List.eq_nil_or_concat post with rfl | ⟨post', last, rfl⟩
      · obtain ⟨rfl, hop⟩ := List.append_inj' hops rfl
        obtain rfl := Option.some.inj (hrun.symm.trans hu)
        obtain rfl := (List.cons.inj hop).1
        exact inOwnSize_combed hs (by simp; omega)
      · have hsplit : combOps k = pre ++ op :: post' := by
          rw [List.concat_eq_append, ← List.cons_append, ← List.append_assoc] at hops
          exact (List.append_inj' hops rfl).1
        exact hown pre op post' u hsplit hu

/-- One byte in a hole of a full window of 64-byte ranges and holes: the furthest range is given up. And
in a window of more than half the sequence space a segment near RCV.NXT is taken to lie past it. -/
theorem byte_prunes_range : (∃ s : Traced ℕ, Runs.run step (new 0 65536) (combOps 512) = some s ∧
    (∀ pre op post u, combOps 512 = pre ++ op :: post → Runs.run step (new 0 65536) pre = some u →
      u.InOwnSize op) ∧
    Spread s.buf.nxtOff s.buf.ooo ∧ s.InOwnSize (.insert 32 [0]) ∧
    ∃ b', s.buf.insert 32 [0] = some (b', 0) ∧
      (s.buf.heldAt 65472).isSome ∧ b'.heldAt 65472 = none ∧ b'.nxtOff = 0) ∧
    ∃ b', (new 0 (2 ^ 31 + 16) : Traced ℕ).buf.insert 5 [1, 2, 3] = some (b', 0) ∧
      b'.heldAt 5 = none ∧ b'.nxtOff = 0 := by
  refine ⟨?_, { RecvBuf.new 0 (2 ^ 31 + 16) with dup := none }, by decide +kernel, rfl, rfl⟩
  obtain ⟨s, recent, hrun, hs, hown⟩ := combed_run (k := 512) le_rfl
  have hinv : Own 0 s := Runs.run_invariant_of (C := InOwnSize)
    (fun _ _ _ h hc ht => own_step h hc ht) hrun (own_new (by decide)) hown
  have hnext : s.InOwnSize (.insert (pos 0 32) [0]) := inOwnSize_combed hs (by simp)
  refine ⟨s, hrun, hown, spread_combed hs, hnext, ?_⟩
  have hooo : s.buf.ooo = comb 512 := by rw [hs, combed_ooo]
  have hfar : ∀ x ∈ s.buf.ooo, 64 ≤ x.1 ∧ 128 ≤ rangeEnd x := by
    rw [hooo]
    intro x hx
    obtain ⟨j, hj, h1, h2⟩ := rangeEnd_comb hx
    omega
  have hmeeting : s.buf.meeting 32 [0].length = [] := by
    rw [meeting, List.filter_eq_nil_iff]
    intro x hx
    have := hfar x hx
    simp
    omega
  have hbefore : s.buf.before 32 = [] := by
    rw [before, List.filter_eq_nil_iff]
    intro x hx
    have := hfar x hx
    simp
    omega
  have hafter : s.buf.after 32 [0].length = comb 512 := by
    rw [after, List.filter_eq_self.mpr, hooo]
    intro x hx
    have := hfar x hx
    simp
    omega
  have hnxt : s.buf.nxtOff = 0 := by rw [hs, combed_nxtOff]
  have hwindow : s.buf.window = 65536 := by rw [hs, combed_window]
  obtain ⟨recent', hi⟩ := insert_alone hinv.shape hinv.size hnext.2 (q := 32) (d := [0]) (by simp) (by omega)
    (by rw [hnxt, hwindow]; simp) hmeeting
  have hmem : s.buf.oooMem = 98304 := by rw [hs, combed_oooMem]
  have hbudget : s.buf.oooBudget = 98304 := by rw [hs, combed_oooBudget]
  rw [hbefore, hafter, comb_succ, prune_last ((32, ⟨pos 0 32, [0]⟩) :: comb 511)
    (128 * 511 + 64, ⟨pos 0 (128 * 511 + 64), List.replicate 64 0⟩) rfl] at hi
  rotate_left
  · change s.buf.oooBudget < s.buf.oooMem + 129
    omega
  · change s.buf.oooMem + 129 - 192 ≤ s.buf.oooBudget
    omega
  refine ⟨_, hi, ?_, ?_, hnxt⟩
  · rw [heldAt_isSome_iff, hooo]
    exact ⟨_, mem_comb.mpr ⟨511, by omega, rfl⟩, by simp, by simp [rangeEnd]⟩
  · rw [← Option.not_isSome_iff_eq_none, heldAt_isSome_iff]
    rintro ⟨x, hx, hlo, hhi⟩
    rcases List.mem_cons.mp hx with rfl | hx
    · simp [rangeEnd] at hhi
    · obtain ⟨j, hj, -, hend⟩ := rangeEnd_comb hx
      omega

end Traced

end RecvBuf

end PktKit.Vtcp
