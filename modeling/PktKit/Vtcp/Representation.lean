import PktKit.Foundations.Runs
import PktKit.Vtcp.Intake

/-! # What the receive buffer holds

A receive buffer beside a record of the byte first received at each offset it still
holds past a hole. Whatever is inserted, read or resized, the ranges stay sorted,
apart and ahead of RCV.NXT, and hold the bytes recorded.
-/

namespace PktKit.Vtcp
open Foundations Foundations.Wrapping Foundations.Fragments

namespace RecvBuf

variable {α : Type*} {base seq : Seq} {b b' : RecvBuf α} {d : List α} {n o p q : ℕ}

/-- The byte a range holds at stream offset `o`. -/
def heldAt (b : RecvBuf α) (o : ℕ) : Option α :=
  b.ooo.findSome? fun x => if x.1 ≤ o then x.2.data[o - x.1]? else none

/-- The byte a segment at `seq` carries for stream offset `o`. -/
def carriedAt (b : RecvBuf α) (seq : Seq) (d : List α) (o : ℕ) : Option α :=
  let i := (o : ℤ) - (b.nxtOff + (seq - b.nxt).toInt)
  if i < 0 then none else d[i.toNat]?

theorem heldAt_eq_some {x : α} (h : b.heldAt o = some x) :
    ∃ r ∈ b.ooo, r.1 ≤ o ∧ r.2.data[o - r.1]? = some x := by
  obtain ⟨r, hr, hx⟩ := List.exists_of_findSome?_eq_some h
  split at hx
  · exact ⟨r, hr, by assumption, hx⟩
  · simp at hx

theorem OooReads.of_heldAt {f : ℕ → Option α} (h : OooReads f b) {x : α} (hx : b.heldAt o = some x) :
    f o = some x := by
  obtain ⟨r, hr, hro, hdata⟩ := heldAt_eq_some hx
  have hlt : o - r.1 < r.2.data.length := (List.getElem?_eq_some_iff.mp hdata).1
  have hread := h r hr (o - r.1) hlt
  rw [Nat.add_sub_cancel' hro] at hread
  rw [← hread, hdata]

theorem heldAt_eq_none (h : b.heldAt o = none) : Free b.ooo o := by
  intro r hr
  have hnone := List.findSome?_eq_none_iff.mp h r hr
  split at hnone
  · have hge := List.getElem?_eq_none_iff.mp hnone
    right
    rw [rangeEnd]
    omega
  · left
    omega

theorem Shape.oooReads_heldAt (h : Shape base b) : OooReads b.heldAt b := by
  intro r hr i hi
  obtain ⟨x, hx⟩ : ∃ x, r.2.data[i]? = some x := ⟨_, List.getElem?_eq_getElem hi⟩
  have hsome : b.heldAt (r.1 + i) ≠ none := by
    intro hnone
    have hfree := heldAt_eq_none hnone r hr
    rw [rangeEnd] at hfree
    omega
  obtain ⟨y, hy⟩ := Option.ne_none_iff_exists'.mp hsome
  obtain ⟨r', hr', hro, hdata⟩ := heldAt_eq_some hy
  have hlt : r.1 + i - r'.1 < r'.2.data.length := (List.getElem?_eq_some_iff.mp hdata).1
  have hrr : r = r' := by
    refine h.range_unique (o := r.1 + i) hr hr' ?_ ?_
    · rw [rangeEnd]
      omega
    · rw [rangeEnd]
      omega
  subst hrr
  rw [Nat.add_sub_cancel_left] at hdata
  rw [hy, hdata]

/-! ## A segment that ends within half the sequence space is taken without a panic -/

theorem insertOoo_isSome (h : Shape base b) (hsh : Short b)
    (hp : b.nxtOff < p) (hd : d ≠ []) (hend : p + d.length < b.nxtOff + 2 ^ 31) :
    ∃ b', b.insertOoo (pos base p) d = some b' := by
  have hd0 := List.length_pos_of_ne_nil hd
  have hlo : b.off (pos base p) = p := h.off_pos ⟨by omega, by omega⟩
  have hhi : b.off (pos base (p + d.length)) = p + d.length := h.off_pos ⟨by omega, by omega⟩
  have htouch := h.touching_eq (p := p) (n := d.length) ⟨hp, by omega⟩ (by omega) (by omega)
  rw [hhi] at htouch
  simp only [insertOoo, pos_add, hlo, hhi, htouch]
  rw [if_neg (by omega)]
  split
  · exact ⟨_, rfl⟩
  · rename_i hm
    obtain ⟨e, habs, -⟩ := absorb_meeting h hsh ⟨hp, by omega⟩ (by omega)
      (show b.meeting p d.length ≠ [] by simpa using hm)
    rw [habs]
    exact ⟨_, rfl⟩

theorem place_isSome (h : Shape base b) (hsh : Short b) (hq : b.nxtOff ≤ q) (hd : d ≠ [])
    (hend : q + d.length < b.nxtOff + 2 ^ 31) :
    ∃ r, b.place (pos base q) (pos base (q + d.length)) d = some r := by
  have heq := h.pos_eq_nxt (q := q) ⟨by omega, by omega⟩
  rw [place]
  split
  · rename_i hin
    obtain rfl : q = b.nxtOff := heq.mp hin
    obtain ⟨dup, hdup⟩ := noteRefill_eq b (pos base (b.nxtOff + d.length))
    obtain ⟨c, hc, -⟩ := mergeOoo_grown (b := { b with dup := dup }) (d := d)
      { h with } hsh (by omega)
    simp only at hc
    simp only [hdup, hc]
    exact ⟨_, rfl⟩
  · rename_i hout
    have hlt : b.nxtOff < q := lt_of_le_of_ne hq fun he => hout (heq.mpr he.symm)
    obtain ⟨c, hc⟩ := insertOoo_isSome h hsh hlt hd hend
    rw [hc]
    exact ⟨_, rfl⟩

/-- What an insert gave: `own` bytes of the segment followed RCV.NXT, then `moved` bytes the ranges
held; the memory of the ranges is within the budget unless it was past it before. -/
structure Answers (b : RecvBuf α) (seq : Seq) (d : List α) (b' : RecvBuf α) (n : ℕ) : Prop where
  grows : ∃ own moved, b'.buf = b.buf ++ own ++ moved ∧ b'.nxtOff = b.nxtOff + own.length + moved.length ∧
    own.length = n ∧ Reads (b.carriedAt seq d) b.nxtOff own ∧ Reads b.heldAt (b.nxtOff + n) moved
  budget : b'.oooMem ≤ b.oooMem ∨ b'.oooMem ≤ b'.oooBudget

/-- The bytes from `k` on of a segment are what it carries from `q` on, `k` past its start. -/
theorem reads_carriedAt {k : ℕ} (hqk : (q : ℤ) = b.nxtOff + (seq - b.nxt).toInt + k) :
    Reads (b.carriedAt seq d) q (d.drop k) := by
  intro i hi
  have hpos : ((q + i : ℕ) : ℤ) - (b.nxtOff + (seq - b.nxt).toInt) = ((k + i : ℕ) : ℤ) := by
    push_cast
    omega
  simp only [carriedAt, hpos]
  rw [if_neg (by omega), Int.toNat_natCast, List.getElem?_drop]

/-- No range reaches half the sequence space past RCV.NXT. -/
def Reach (b : RecvBuf α) : Prop := ∀ x ∈ b.ooo, rangeEnd x < b.nxtOff + 2 ^ 31

theorem Shape.short_of_reach (h : Shape base b) (hr : Reach b) : Short b := by
  intro x hx
  have h1 := (h.ahead x hx).1
  have h2 : x.1 + x.2.data.length < b.nxtOff + 2 ^ 31 := hr x hx
  omega

/-- An insert returns, having taken in some part of its segment. -/
theorem insert_grown (h : Shape base b) (hr : Reach b) (hfit : (seq - b.nxt).toInt + d.length < 2 ^ 31) :
    ∃ b' n q d', b.insert seq d = some (b', n) ∧ Grown base q d' b b' n ∧
      Reads (b.carriedAt seq d) q d' ∧ q + d'.length < b.nxtOff + 2 ^ 31 := by
  have hsh := h.short_of_reach hr
  obtain ⟨dup, hcases⟩ := insert_cases h seq d
  rcases hcases with hnone | ⟨q, k, j, hq, hq', hqk, hne, hplace, -⟩
  · exact ⟨_, _, _, _, hnone, Grown.of_dup h dup, Reads.nil _ _, by simp⟩
  · have hlen : ((d.drop k).take j).length ≤ d.length - k := (List.length_take_le' _ _).trans_eq List.length_drop
    have hpos := List.length_pos_of_ne_nil hne
    obtain ⟨⟨b', n⟩, hsome⟩ := place_isSome (h.change_dup dup) hsh hq hne (by simp only; omega)
    have hgrown := place_grown (h.change_dup dup) hsh ⟨hq, hq'⟩ hne (by omega) hsome
    exact ⟨b', n, q, _, hplace.trans hsome, hgrown.change_dup, Reads.take (reads_carriedAt hqk) j, by omega⟩

theorem Grown.answers {d' : List α} (h : Grown base q d' b b' n) (hb : Shape base b)
    (hd : Reads (b.carriedAt seq d) q d') : Answers b seq d b' n := by
  refine ⟨?_, h.budget⟩
  obtain ⟨moved, _, _, _, _, rfl, hn, hmoved⟩ := h.frame
  refine ⟨d'.take n, moved, ?_, ?_, ?_, ?_, hmoved _ hb.oooReads_heldAt⟩
  · simp
  · simp [Nat.add_assoc]
  · rcases hn with ⟨rfl, -⟩ | ⟨rfl, -⟩ <;> simp
  · rcases hn with ⟨rfl, -⟩ | ⟨rfl, rfl⟩
    · exact Reads.nil _ _
    · rw [List.take_length]
      exact hd

/-- A byte held after an insert was held before it, or is the segment's where none was. -/
theorem Grown.heldAt {d' : List α} (h : Grown base q d' b b' n) (hb : Shape base b)
    (hd : Reads (b.carriedAt seq d) q d') {x : α} (hx : b'.heldAt o = some x) :
    (b.heldAt o).or (b.carriedAt seq d o) = some x := by
  have hreads : OooReads (fun o => (b.heldAt o).or (b.carriedAt seq d o)) b' := by
    refine h.reads _ ?_ ?_
    · intro o hqo hoq hfree
      have hnone : b.heldAt o = none := by
        by_contra hsome
        obtain ⟨y, hy⟩ := Option.ne_none_iff_exists'.mp hsome
        obtain ⟨r, hr, hro, hdata⟩ := heldAt_eq_some hy
        have hlt : o - r.1 < r.2.data.length := (List.getElem?_eq_some_iff.mp hdata).1
        have := hfree r hr
        rw [rangeEnd] at this
        omega
      have hcarried := hd (o - q) (by omega)
      rw [Nat.add_sub_cancel' hqo] at hcarried
      simp only [hnone, Option.none_or, hcarried]
    · intro r hr i hi
      have hheld := hb.oooReads_heldAt r hr i hi
      rw [List.getElem?_eq_getElem hi] at hheld ⊢
      simp only [← hheld, Option.some_or]
  exact hreads.of_heldAt hx

/-! ## The buffer and the byte first received at each offset -/

/-- A buffer, and at each offset it holds past a hole the byte first received there. -/
structure Traced (α : Type*) where
  buf : RecvBuf α
  first : ℕ → Option α

/-- An operation on a receive buffer. -/
inductive Op (α : Type*) where
  | insert (seq : Seq) (data : List α)
  | read (n : ℕ)
  | setAdvEdge (edge : Seq)
  | setLimit (limit : ℕ)

namespace Traced

def new (base : Seq) (windowSize : ℕ) : Traced α :=
  { buf := RecvBuf.new base windowSize, first := fun _ => none }

/-- One operation; a panic ends the run. An offset keeps its first byte for as long as it is held
past a hole: it is forgotten when the range is given up or its bytes come in order. -/
def step (s : Traced α) : Op α → Option (Traced α)
  | .insert seq d => (s.buf.insert seq d).map fun r =>
    { buf := r.1
      first := fun o => if (r.1.heldAt o).isSome then (s.first o).or (s.buf.carriedAt seq d o) else none }
  | .read n => some { s with buf := (s.buf.read n).1 }
  | .setAdvEdge edge => some { s with buf := s.buf.setAdvEdge edge }
  | .setLimit limit => some { s with buf := s.buf.setLimit limit }

/-- An inserted segment ends less than half the sequence space past RCV.NXT. -/
def Fits (s : Traced α) : Op α → Prop
  | .insert seq d => (seq - s.buf.nxt).toInt + d.length < 2 ^ 31
  | _ => True

instance (s : Traced α) (op : Op α) : Decidable (s.Fits op) :=
  match op with
  | .insert seq d => inferInstanceAs (Decidable ((seq - s.buf.nxt).toInt + d.length < 2 ^ 31))
  | .read _ => .isTrue trivial
  | .setAdvEdge _ => .isTrue trivial
  | .setLimit _ => .isTrue trivial

variable {s t : Traced α}

/-- The ranges are in shape, none reaches half the sequence space ahead, and they hold the bytes
first received. -/
structure Inv (base : Seq) (s : Traced α) : Prop where
  shape : s.buf.Shape base
  reach : s.buf.Reach
  held : s.buf.heldAt = s.first

theorem inv_new (base : Seq) (windowSize : ℕ) : Inv base (new base windowSize : Traced α) where
  shape := shape_new base windowSize
  reach := by simp [new, RecvBuf.new, Reach]
  held := rfl

theorem inv_insert {d : List α} (h : Inv base s) (hfit : (seq - s.buf.nxt).toInt + d.length < 2 ^ 31) :
    ∃ b' n, s.buf.insert seq d = some (b', n) ∧ Answers s.buf seq d b' n ∧
      ∀ t, s.step (.insert seq d) = some t → Inv base t := by
  obtain ⟨b', n, q, d', hi, hgrown, hcarried, hq⟩ := insert_grown h.shape h.reach hfit
  refine ⟨b', n, hi, hgrown.answers h.shape hcarried, fun t ht => ?_⟩
  simp only [step, hi, Option.map_some, Option.some.injEq] at ht
  subst ht
  refine ⟨hgrown.shape, ?_, ?_⟩
  · obtain ⟨-, hb⟩ := hgrown.bound (s.buf.nxtOff + 2 ^ 31 - 1) (by omega) (by omega) fun x hx => by
      have := h.reach x hx
      omega
    obtain ⟨_, _, _, _, _, hb', -, -⟩ := hgrown.frame
    have hnxt : s.buf.nxtOff ≤ b'.nxtOff := by rw [hb']; exact Nat.le_add_right _ _
    intro x hx
    have := hb x hx
    change rangeEnd x < b'.nxtOff + 2 ^ 31
    omega
  · funext o
    cases hx : b'.heldAt o with
    | none => simp [hx]
    | some x =>
      have hor := hgrown.heldAt h.shape hcarried hx
      simp only [hx, Option.isSome_some, if_true]
      rw [← h.held, hor]

theorem setAdvEdge_eq (b : RecvBuf α) (edge : Seq) : ∃ adv, b.setAdvEdge edge = { b with advEdge := adv } := by
  rw [setAdvEdge]
  split
  · exact ⟨_, rfl⟩
  · exact ⟨b.advEdge, rfl⟩

theorem inv_step (h : Inv base s) {op : Op α} (hfit : s.Fits op) (ht : s.step op = some t) : Inv base t := by
  cases op with
  | insert seq d =>
    obtain ⟨_, _, -, -, hinv⟩ := inv_insert h hfit
    exact hinv t ht
  | read n =>
    obtain rfl := Option.some.inj ht
    exact ⟨{ h.shape with }, h.reach, h.held⟩
  | setAdvEdge edge =>
    obtain rfl := Option.some.inj ht
    obtain ⟨adv, hadv⟩ := setAdvEdge_eq s.buf edge
    rw [hadv]
    exact ⟨{ h.shape with }, h.reach, h.held⟩
  | setLimit limit =>
    obtain rfl := Option.some.inj ht
    exact ⟨{ h.shape with }, h.reach, h.held⟩

/-- In every run whose segments end less than half the sequence space past RCV.NXT, the ranges are in
shape and hold the bytes first received, and the next such segment is taken without a panic, the answer being
how many of its bytes joined the in-order data. -/
theorem ranges_hold_first {windowSize : ℕ} {ops : List (Op α)}
    (hrun : Runs.run step (new base windowSize) ops = some s)
    (hfits : ∀ pre op post t, ops = pre ++ op :: post → Runs.run step (new base windowSize) pre = some t →
      t.Fits op) :
    s.buf.Shape base ∧ s.buf.heldAt = s.first ∧
      ∀ seq (d : List α), s.Fits (.insert seq d) →
        ∃ b' n, s.buf.insert seq d = some (b', n) ∧ Answers s.buf seq d b' n := by
  have hinv : Inv base s := Runs.run_invariant_of (C := Fits)
    (fun _ _ _ h hfit ht => inv_step h hfit ht) hrun (inv_new base windowSize) hfits
  refine ⟨hinv.shape, hinv.held, fun seq d hfit => ?_⟩
  obtain ⟨b', n, hi, hans, -⟩ := inv_insert hinv hfit
  exact ⟨b', n, hi, hans⟩

/-- Two segments past a hole overlap and disagree; the ranges keep the bytes that came first. -/
theorem ranges_hold_first_overlap :
    ∃ s : Traced ℕ, Runs.run step (new 4294967295 100)
        [.insert 3 [5, 6], .insert 2 [4, 9, 9, 7], .setLimit 50, .insert 4294967295 [1, 2], .read 1] = some s ∧
      s.buf.ooo.map (fun x => (x.1, x.2.data)) = [(3, [4, 5, 6, 7])] ∧
      s.buf.Shape 4294967295 ∧ s.buf.heldAt = s.first := by
  refine Runs.exists_of_any (P := fun s => s.buf.ooo.map (fun x => (x.1, x.2.data)) = [(3, [4, 5, 6, 7])])
    (by decide +kernel) fun s hs hranges => ?_
  obtain ⟨hshape, hheld, -⟩ := ranges_hold_first hs (Runs.along_sound (by decide +kernel))
  exact ⟨hranges, hshape, hheld⟩

/-- A segment past a hole, in a buffer that holds no range. -/
theorem insert_apart {d : List α} (hlen : d.length = 98303) :
    ∃ b, (RecvBuf.new 0 200000).insert 2 d = some (b, 0) ∧ b.oooMem = 98431 := by
  have hd : d.isEmpty = false := by
    cases d with
    | nil => simp at hlen
    | cons => rfl
  have hbefore : seqBefore 2#32 0#32 = false := by decide
  have hafter : seqAfter 98305#32 200000#32 = false := by decide
  have hnear : (2#32).toInt = 2 := by decide
  have hfar : (98305#32).toInt = 98305 := by decide
  have hinto : (RecvBuf.new 0 200000 : RecvBuf α).insertOoo 2 d =
      some { RecvBuf.new 0 200000 with ooo := [(2, ⟨2, d⟩)], oooMem := 98431 } := by
    simp [insertOoo, RecvBuf.new, off, touching, putRange, OooEntry.cost, RANGE_OVERHEAD, hlen, hnear, hfar]
  have hkept : ({ RecvBuf.new 0 200000 with ooo := [(2, ⟨2, d⟩)], oooMem := 98431 } : RecvBuf α).prune =
      { RecvBuf.new 0 200000 with ooo := [(2, ⟨2, d⟩)], oooMem := 98431 } := by
    simp [prune, pruneLoop, oooBudget, RecvBuf.new]
  obtain ⟨recent, hrecent⟩ := noteRecent_eq
    ({ RecvBuf.new 0 200000 with ooo := [(2, ⟨2, d⟩)], oooMem := 98431 } : RecvBuf α) 2
  have hplace : (RecvBuf.new 0 200000 : RecvBuf α).place 2 98305 d =
      some ({ RecvBuf.new 0 200000 with ooo := [(2, ⟨2, d⟩)], oooMem := 98431, recent := recent }, 0) := by
    rw [place, if_neg (by simp [RecvBuf.new]), hinto, Option.map_some, hkept, hrecent]
  refine ⟨{ RecvBuf.new 0 200000 with ooo := [(2, ⟨2, d⟩)], oooMem := 98431, recent := recent }, ?_, rfl⟩
  rw [← hplace]
  simp [RecvBuf.insert, insertFrom, RecvBuf.new, hd, hlen, rightEdge, window, hbefore, hafter]

/-- After the limit is lowered, an insert that files nothing leaves the ranges over the budget. -/
theorem insert_over_budget :
    ∃ s : Traced ℕ, Runs.run step (new 0 200000)
        [.insert 2 (List.replicate 98303 0), .setLimit 0, .insert 0 []] = some s ∧
      s.buf.oooBudget < s.buf.oooMem := by
  obtain ⟨b, hb, hmem⟩ := insert_apart (d := List.replicate 98303 0) List.length_replicate
  have hempty : ∀ b : RecvBuf ℕ, b.insert 0 [] = some ({ b with dup := none }, 0) := fun _ => rfl
  simp only [Runs.run, step, new, hb, Option.map_some, Option.bind_some, hempty, Option.some.injEq,
    exists_eq_left']
  simp [oooBudget, setLimit, hmem]

end Traced

end RecvBuf

end PktKit.Vtcp
