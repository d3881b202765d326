import PktKit.Vtcp.Receive

/-! # What an arriving segment does to the receive buffer

`insert` trims a segment to what is new and inside the window, then appends it or
files it past a hole. Either way the buffer keeps its shape and gains nothing but
what the segment and the ranges held.
-/

namespace PktKit.Vtcp
open Foundations.Wrapping Foundations.Fragments

namespace RecvBuf

variable {α : Type*} {base seq : Seq} {b b' : RecvBuf α} {d : List α} {p : ℕ}

/-- Moving ranges into the stream appends what they hold past RCV.NXT, up to the first hole. -/
theorem mergeLoop_spec (base : Seq) (xs : List (ℕ × OooEntry α)) (hN : b.nxt = pos base b.nxtOff)
    (hap : xs.Pairwise Apart) (hw : ∀ x ∈ xs, WellPlaced base x)
    (hlen : ∀ x ∈ xs, x.2.data.length < 2 ^ 31)
    (hnear : ∀ x ∈ xs, b.nxtOff < rangeEnd x + 2 ^ 31) :
    ∃ new rest, mergeLoop xs b = some { b with
        buf := b.buf ++ new
        nxt := pos base (b.nxtOff + new.length)
        nxtOff := b.nxtOff + new.length
        ooo := rest
        oooMem := b.oooMem - ((xs.map fun x => x.2.cost).sum - (rest.map fun x => x.2.cost).sum) } ∧
      rest <:+ xs ∧ (∀ x ∈ rest, b.nxtOff + new.length < x.1) ∧
      (∀ x ∈ xs, x ∈ rest ∨ rangeEnd x ≤ b.nxtOff + new.length) ∧
      (∀ E, b.nxtOff ≤ E → (∀ x ∈ xs, rangeEnd x ≤ E) → b.nxtOff + new.length ≤ E) ∧
      ∀ f : ℕ → Option α, (∀ x ∈ xs, Reads f x.1 x.2.data) → Reads f b.nxtOff new := by
  induction xs generalizing b with
  | nil =>
    refine ⟨[], [], ?_, List.suffix_rfl, by simp, by simp, fun E hE _ => by simpa using hE,
      fun f _ => Reads.nil f _⟩
    simp [mergeLoop, ← hN]
  | cons x xs ih =>
    obtain ⟨hx, hxs⟩ := List.pairwise_cons.mp hap
    have hmem : ∀ y ∈ xs, y ∈ x :: xs := fun y hy => List.mem_cons_of_mem _ hy
    have hx0 : x ∈ x :: xs := List.mem_cons_self
    have hxl := hlen x hx0
    have hxn := hnear x hx0
    have hxe : rangeEnd x = x.1 + x.2.data.length := rfl
    rw [mergeLoop]
    split
    · rename_i hgap
      -- the next range lies past a hole, and so does every other
      refine ⟨[], x :: xs, ?_, List.suffix_rfl, ?_, fun y hy => .inl hy, fun E hE _ => by simpa using hE,
        fun f _ => Reads.nil f _⟩
      · simp [← hN]
      · intro y hy
        rcases List.mem_cons.mp hy with rfl | hy
        · simpa using hgap
        · have h1 : rangeEnd x < y.1 := hx y hy
          simp
          omega
    · rename_i hle
      have hafter : seqAfter x.2.endSeq b.nxt = decide (b.nxtOff < rangeEnd x) := by
        rw [(hw x hx0).endSeq_eq, hN, seqAfter_pos base ⟨by omega, by omega⟩]
      simp only [hafter, decide_eq_true_eq]
      split
      · rename_i hlt
        have hskip : (b.nxt - x.2.seq).toNat = b.nxtOff - x.1 := by
          rw [hN, (hw x hx0).seq_eq, toNat_pos_sub base (by omega) (by omega)]
        have hadv : (x.2.endSeq - b.nxt).toNat = rangeEnd x - b.nxtOff := by
          rw [(hw x hx0).endSeq_eq, hN, toNat_pos_sub base (by omega) (by omega)]
        rw [hskip, hadv, if_neg (by omega)]
        have hNx : b.nxtOff + (rangeEnd x - b.nxtOff) = rangeEnd x := by omega
        rw [hNx]
        obtain ⟨new, rest, heq, hsuf, hrest, hkept, hE, hreads⟩ := ih
          (b := { b with oooMem := b.oooMem - x.2.cost,
                         buf := b.buf ++ x.2.data.drop (b.nxtOff - x.1),
                         nxtOff := rangeEnd x, nxt := x.2.endSeq })
          (hw x hx0).endSeq_eq hxs (fun y hy => hw y (hmem y hy)) (fun y hy => hlen y (hmem y hy))
          (fun y hy => by
            have h1 : rangeEnd x < y.1 := hx y hy
            have h2 := (hw y (hmem y hy)).lt_rangeEnd
            change rangeEnd x < _
            omega)
        have hd1 : (x.2.data.drop (b.nxtOff - x.1)).length = rangeEnd x - b.nxtOff := by
          rw [List.length_drop]
          omega
        have htot : b.nxtOff + (x.2.data.drop (b.nxtOff - x.1) ++ new).length = rangeEnd x + new.length := by
          rw [List.length_append, hd1]
          omega
        refine ⟨x.2.data.drop (b.nxtOff - x.1) ++ new, rest, ?_, hsuf.trans (List.suffix_cons x xs), ?_,
          ?_, ?_, ?_⟩
        · rw [heq, htot]
          have hsum : (rest.map fun x => x.2.cost).sum ≤ (xs.map fun x => x.2.cost).sum :=
            (hsuf.sublist.map _).sum_le_sum (by simp)
          simp only [List.append_assoc, List.map_cons, List.sum_cons, Option.some.injEq, mk.injEq,
            true_and, and_true]
          omega
        · rw [htot]
          exact hrest
        · rw [htot]
          intro y hy
          rcases List.mem_cons.mp hy with rfl | hy
          · exact .inr (Nat.le_add_right _ _)
          · exact hkept y hy
        · intro E hE0 hall
          rw [htot]
          exact hE E (hall x hx0) fun y hy => hall y (hmem y hy)
        · intro f hf
          have h1 := (hf x hx0).drop (b.nxtOff - x.1)
          rw [show x.1 + (b.nxtOff - x.1) = b.nxtOff by omega] at h1
          refine h1.append ?_
          rw [hd1, show b.nxtOff + (rangeEnd x - b.nxtOff) = rangeEnd x by omega]
          exact hreads f fun y hy => hf y (hmem y hy)
      · rename_i hbelow
        obtain ⟨new, rest, heq, hsuf, hrest, hkept, hE, hreads⟩ := ih
          (b := { b with oooMem := b.oooMem - x.2.cost }) hN hxs (fun y hy => hw y (hmem y hy))
          (fun y hy => hlen y (hmem y hy)) (fun y hy => hnear y (hmem y hy))
        have hbelow' : rangeEnd x ≤ b.nxtOff + new.length := by omega
        refine ⟨new, rest, ?_, hsuf.trans (List.suffix_cons x xs), hrest,
          List.forall_mem_cons.mpr ⟨.inr hbelow', hkept⟩,
          fun E hE0 hall => hE E hE0 fun y hy => hall y (hmem y hy),
          fun f hf => hreads f fun y hy => hf y (hmem y hy)⟩
        rw [heq]
        have hsum : (rest.map fun x => x.2.cost).sum ≤ (xs.map fun x => x.2.cost).sum :=
          (hsuf.sublist.map _).sum_le_sum (by simp)
        simp only [List.map_cons, List.sum_cons, Option.some.injEq, mk.injEq, true_and, and_true]
        omega

/-- What taking in the bytes `d` at position `q` did: in-order data grew by what they and the
ranges held, the ranges are still in shape, and the rest of the buffer is as it was. -/
structure Taken (base : Seq) (q : ℕ) (d : List α) (b b' : RecvBuf α) : Prop where
  frame : ∃ new ooo mem recent dup,
    b' = { b with
      buf := b.buf ++ new
      nxt := pos base (b.nxtOff + new.length)
      nxtOff := b.nxtOff + new.length
      ooo := ooo
      oooMem := mem
      recent := recent
      dup := dup } ∧
    ∀ W, Frag W q d → OooAgrees W b → Frag W b.nxtOff new
  shape : Shape base b'
  bound : ∀ E, b.nxtOff ≤ E → q + d.length ≤ E → (∀ x ∈ b.ooo, rangeEnd x ≤ E) →
    b'.nxtOff ≤ E ∧ ∀ x ∈ b'.ooo, rangeEnd x ≤ E
  agrees : ∀ W, Frag W q d → OooAgrees W b → OooAgrees W b'
  budget : b.oooMem ≤ b.oooBudget → b'.oooMem ≤ b'.oooBudget

/-- The same, told apart by where the bytes came from: the first `n` of `d` went into the in-order
data and then what the ranges held there; a byte a range held before it holds still. -/
structure Grown (base : Seq) (q : ℕ) (d : List α) (b b' : RecvBuf α) (n : ℕ) : Prop where
  frame : ∃ moved ooo mem recent dup,
    b' = { b with
      buf := b.buf ++ (d.take n ++ moved)
      nxt := pos base (b.nxtOff + (d.take n ++ moved).length)
      nxtOff := b.nxtOff + (d.take n ++ moved).length
      ooo := ooo
      oooMem := mem
      recent := recent
      dup := dup } ∧
    (n = 0 ∧ moved = [] ∨ n = d.length ∧ q = b.nxtOff) ∧
    ∀ f, OooReads f b → Reads f (b.nxtOff + n) moved
  shape : Shape base b'
  bound : ∀ E, b.nxtOff ≤ E → q + d.length ≤ E → (∀ x ∈ b.ooo, rangeEnd x ≤ E) →
    b'.nxtOff ≤ E ∧ ∀ x ∈ b'.ooo, rangeEnd x ≤ E
  reads : ∀ f, Fills f q d b → OooReads f b → OooReads f b'
  budget : b'.oooMem ≤ b.oooMem ∨ b'.oooMem ≤ b'.oooBudget

/-- Noting a duplicate takes nothing in. -/
theorem Grown.of_dup (h : Shape base b) (dup : Option SackBlock) :
    Grown base b.nxtOff [] b { b with dup := dup } 0 where
  frame := ⟨[], b.ooo, b.oooMem, b.recent, dup, by simp [← h.nxt_eq], .inl ⟨rfl, rfl⟩, fun f _ => Reads.nil f _⟩
  shape := { h with }
  bound := fun _ hN _ hE => ⟨hN, hE⟩
  reads := fun _ _ hread => hread
  budget := .inl le_rfl

/-- The rest of the buffer does not depend on the duplicate noted before. -/
theorem Grown.change_dup {q n : ℕ} {dup : Option SackBlock} (h : Grown base q d { b with dup := dup } b' n) :
    Grown base q d b b' n where
  frame := h.frame
  shape := h.shape
  bound := h.bound
  reads := h.reads
  budget := h.budget

/-- Where all of it is one stream, what the buffer gained is that stream's. -/
theorem Grown.taken {q n : ℕ} (h : Grown base q d b b' n) : Taken base q d b b' where
  frame := by
    obtain ⟨moved, ooo, mem, recent, dup, hb', hn, hmoved⟩ := h.frame
    refine ⟨d.take n ++ moved, ooo, mem, recent, dup, hb', fun W hW hag => ?_⟩
    rcases hn with ⟨rfl, rfl⟩ | ⟨rfl, rfl⟩
    · exact Frag.nil W _
    · rw [List.take_length]
      exact hW.append (frag_iff_reads.mpr (hmoved _ (oooAgrees_iff.mp hag)))
  shape := h.shape
  bound := h.bound
  agrees := fun _ hW hag => oooAgrees_iff.mpr (h.reads _ (fills_of_frag hW) (oooAgrees_iff.mp hag))
  budget := by
    intro hbud
    obtain ⟨_, _, _, _, _, hb', -, -⟩ := h.frame
    have hsame : b'.oooBudget = b.oooBudget := by rw [hb']; rfl
    rcases h.budget with hle | hle
    · rw [hsame]
      exact hle.trans hbud
    · exact hle

/-- In-order bytes are appended, and whatever continues them. -/
theorem mergeOoo_grown (h : Shape base b) (hsh : Short b) (hL : d.length < 2 ^ 31) :
    ∃ b', ({ b with buf := b.buf ++ d, nxt := pos base (b.nxtOff + d.length),
                    nxtOff := b.nxtOff + d.length } : RecvBuf α).mergeOoo = some b' ∧
      Grown base b.nxtOff d b b' d.length ∧ (∀ x ∈ b.ooo, x ∈ b'.ooo ∨ rangeEnd x ≤ b'.nxtOff) ∧
      ∀ x ∈ b'.ooo, x ∈ b.ooo := by
  obtain ⟨new, rest, heq, hsuf, hrest, hkept, hE, hreads⟩ := mergeLoop_spec base b.ooo
    (b := { b with buf := b.buf ++ d, nxt := pos base (b.nxtOff + d.length),
                   nxtOff := b.nxtOff + d.length }) rfl h.apart h.placed hsh (fun x hx => by
      have h1 := (h.ahead x hx).1
      have h2 := h.lt_rangeEnd hx
      simp only
      omega)
  have hsum : (rest.map fun x => x.2.cost).sum ≤ (b.ooo.map fun x => x.2.cost).sum :=
    (hsuf.sublist.map _).sum_le_sum (by simp)
  have hmem := h.mem_eq
  simp only [mergeOoo, heq, Option.map_some, Option.some.injEq, exists_eq_left']
  simp only [List.append_assoc, Nat.add_assoc, ← List.length_append]
  refine ⟨?_, fun x hx => ?_, fun x hx => hsuf.subset hx⟩
  swap
  · simpa only [List.length_append, Nat.add_assoc] using hkept x hx
  refine ⟨⟨new, _, _, _, _, by rw [List.take_length], .inr ⟨rfl, rfl⟩, fun f hf => hreads f hf⟩,
    ⟨rfl, ?_, ?_, ?_, ?_⟩, ?_, ?_, ?_⟩
  · exact h.apart.sublist hsuf.sublist
  · exact fun x hx => h.placed x (hsuf.subset hx)
  · intro x hx
    have h1 := h.ahead x (hsuf.subset hx)
    have h2 := hrest x hx
    simp only [List.length_append] at h2 ⊢
    omega
  · change b.oooMem - ((b.ooo.map fun x => x.2.cost).sum - (rest.map fun x => x.2.cost).sum) =
      (rest.map fun x => x.2.cost).sum
    omega
  · intro E _ hd hb
    refine ⟨?_, fun x hx => hb x (hsuf.subset hx)⟩
    simpa [Nat.add_assoc] using hE E hd hb
  · exact fun f _ hread x hx => hread x (hsuf.subset hx)
  · exact .inl (Nat.sub_le _ _)

theorem place_grown (h : Shape base b) (hsh : Short b) {q n : ℕ}
    (hq : b.nxtOff ≤ q ∧ q < b.nxtOff + 2 ^ 31) (hd : d ≠ []) (hL : d.length < 2 ^ 31)
    (hi : b.place (pos base q) (pos base (q + d.length)) d = some (b', n)) :
    Grown base q d b b' n := by
  have heq := h.pos_eq_nxt (q := q) ⟨by omega, by omega⟩
  rw [place] at hi
  split at hi
  · rename_i hin
    obtain rfl : q = b.nxtOff := heq.mp hin
    obtain ⟨dup, hdup⟩ := noteRefill_eq b (pos base (b.nxtOff + d.length))
    obtain ⟨c, hc, hgrown, -⟩ := mergeOoo_grown (b := { b with dup := dup }) (d := d)
      { h with } hsh hL
    simp only [hdup] at hi
    simp only at hc
    rw [hc] at hi
    obtain ⟨rfl, rfl⟩ := Prod.mk.inj (Option.some.inj hi)
    exact hgrown.change_dup
  · rename_i hout
    have hlt : b.nxtOff < q := lt_of_le_of_ne hq.1 fun he => hout (heq.mpr he.symm)
    simp only [Option.map_eq_some_iff] at hi
    obtain ⟨c, hc, hcb⟩ := hi
    obtain ⟨rfl, rfl⟩ := Prod.mk.inj hcb
    have hfiled := insertOoo_filed h hsh ⟨hlt, hq.2⟩ hd hL hc
    obtain ⟨hf, hbud⟩ := hfiled.prune_noteRecent (pos base q)
    obtain ⟨ooo, mem, recent, dup, hfr⟩ := hf.frame
    refine ⟨⟨[], ooo, mem, recent, dup, ?_, .inl ⟨rfl, rfl⟩, fun f _ => Reads.nil f _⟩, hf.shape,
      ?_, ?_, .inr hbud⟩
    · rw [hfr]
      simp [← h.nxt_eq]
    · intro E hN hE hb
      refine ⟨?_, hf.bound E hE hb⟩
      rw [hfr]
      exact hN
    · intro f hfill hread x hx
      obtain ⟨_, _, _, hall, hfront, -, -⟩ := prune_noteRecent_eq hfiled.shape (pos base q)
      rw [hall] at hx
      exact insertOoo_reads h hsh ⟨hlt, hq.2⟩ hL hc hfill hread x (hfront.subset hx)

/-- What a segment `d` at `p` did to the buffer: some part of it was taken in, and if the buffer has
a window whose right edge is position `R`, nothing past that. -/
def Inserted (base : Seq) (p : ℕ) (d : List α) (b b' : RecvBuf α) : Prop :=
  ∃ q d', Taken base q d' b b' ∧ (∀ W, Frag W p d → Frag W q d') ∧
    ∀ R, 0 < b.windowSize → b.rightEdge = pos base R → b.nxtOff ≤ R → R < b.nxtOff + 2 ^ 31 →
      p + d.length < R + 2 ^ 31 → q + d'.length ≤ R

theorem Inserted.of_dup (h : Shape base b) (dup : Option SackBlock) :
    Inserted base p d b { b with dup := dup } :=
  ⟨b.nxtOff, [], (Grown.of_dup h dup).taken, fun W _ => Frag.nil W _, fun R _ _ hN _ _ => by simpa using hN⟩

/-- Trimming a segment back to an edge leaves one that ends there. -/
theorem eq_pos_of_trim {edge : Seq} {q n t : ℕ} (ht : t = (pos base (q + n) - edge).toNat) (htn : t ≤ n) :
    edge = pos base (q + (n - t)) := by
  have h1 : edge + BitVec.ofNat 32 t = pos base (q + n) := by
    rw [ht, BitVec.ofNat_toNat, BitVec.setWidth_eq, BitVec.add_comm, BitVec.sub_add_cancel]
  have h2 : pos base (q + (n - t)) + BitVec.ofNat 32 t = pos base (q + n) := by
    rw [pos_add]
    congr 1
    omega
  exact (BitVec.add_left_inj _).mp (h1.trans h2.symm)

/-- `insertFrom`, the bytes left being handed to `put`. -/
def insertFromVia (put : RecvBuf α → Seq → Seq → List α → Option (RecvBuf α × ℕ)) (b : RecvBuf α)
    (seq endSeq : Seq) (data : List α) : Option (RecvBuf α × ℕ) :=
  if (0 < b.windowSize ∨ seq ≠ b.nxt) ∧ seqAfter endSeq b.rightEdge then
    let trim := (endSeq - b.rightEdge).toNat
    if data.length ≤ trim then some (b, 0)
    else put b seq b.rightEdge (data.take (data.length - trim))
  else put b seq endSeq data

/-- `insert`, the bytes left being handed to `put`. -/
def insertVia (put : RecvBuf α → Seq → Seq → List α → Option (RecvBuf α × ℕ)) (b : RecvBuf α)
    (seq : Seq) (data : List α) : Option (RecvBuf α × ℕ) :=
  let b := { b with dup := none }
  if data.isEmpty then some (b, 0)
  else
    let endSeq := seq + BitVec.ofNat 32 data.length
    if seqBefore seq b.nxt then
      let overlap := (b.nxt - seq).toNat
      let b := b.noteDup seq (if seqBefore endSeq b.nxt then endSeq else b.nxt)
      if data.length ≤ overlap then some (b, 0)
      else b.insertFromVia put b.nxt endSeq (data.drop overlap)
    else b.insertFromVia put seq endSeq data

theorem insert_eq_insertVia : b.insert seq d = b.insertVia place seq d := rfl

/-- How far before RCV.NXT a segment starts. -/
def behind (b : RecvBuf α) (seq : Seq) : ℕ := (-(seq - b.nxt).toInt).toNat

/-- How far past RCV.NXT a segment starts. -/
def beyond (b : RecvBuf α) (seq : Seq) : ℕ := (seq - b.nxt).toInt.toNat

/-- What of a segment lies before RCV.NXT. -/
def stale (b : RecvBuf α) (seq : Seq) (data : List α) : Option SackBlock :=
  if data.isEmpty ∨ b.behind seq = 0 then none
  else some ⟨seq, seq + BitVec.ofNat 32 (min data.length (b.behind seq))⟩

theorem beyond_eq (b : RecvBuf α) (seq : Seq) : (b.beyond seq : ℤ) = (seq - b.nxt).toInt + b.behind seq := by
  rw [beyond, behind]
  omega

theorem Shape.change_dup (h : Shape base b) (dup : Option SackBlock) : Shape base { b with dup := dup } :=
  ⟨h.nxt_eq, h.apart, h.placed, h.ahead, h.mem_eq⟩

/-- A segment that starts before RCV.NXT starts `behind` before it. -/
theorem nxt_eq_of_before (hbefore : (seq - b.nxt).toInt < 0) :
    (b.nxt - seq).toNat = b.behind seq ∧ b.nxt = pos seq (b.behind seq) := by
  have hnat : (b.nxt - seq).toNat = b.behind seq := by
    rw [behind]
    rw [toInt_sub_eq] at hbefore ⊢
    have h1 := BitVec.toNat_sub b.nxt seq
    have h2 := BitVec.toNat_sub seq b.nxt
    split_ifs at hbefore ⊢ <;> omega
  refine ⟨hnat, ?_⟩
  have hge := exists_pos_ge seq 0 b.nxt
  rwa [pos_zero, hnat, Nat.zero_add] at hge

theorem eq_pos_of_not_before (h : Shape base b) (hbefore : ¬ (seq - b.nxt).toInt < 0) :
    seq = pos base (b.nxtOff + b.beyond seq) := by
  have hnat : (seq - b.nxt).toNat = b.beyond seq := by
    rw [beyond]
    rw [toInt_sub_eq] at hbefore ⊢
    split_ifs at hbefore ⊢ <;> omega
  have hge := exists_pos_ge base b.nxtOff seq
  rwa [← h.nxt_eq, hnat] at hge

/-- What lies before RCV.NXT, as `insert` records it. -/
theorem noteDup_stale (hd : d ≠ []) (hfit : (seq - b.nxt).toInt + d.length < 2 ^ 31)
    (hbefore : (seq - b.nxt).toInt < 0) :
    ({ b with dup := none } : RecvBuf α).noteDup seq
      (if seqBefore (seq + BitVec.ofNat 32 d.length) b.nxt then seq + BitVec.ofNat 32 d.length else b.nxt) =
        { b with dup := b.stale seq d } := by
  have hpos := List.length_pos_of_ne_nil hd
  have hlow := BitVec.le_toInt (x := seq - b.nxt)
  have hbehind : (b.behind seq : ℤ) = -(seq - b.nxt).toInt := by
    rw [behind]
    omega
  obtain ⟨-, hnxt⟩ := nxt_eq_of_before hbefore
  have hend : (if seqBefore (seq + BitVec.ofNat 32 d.length) b.nxt then seq + BitVec.ofNat 32 d.length
      else b.nxt) = pos seq (min d.length (b.behind seq)) := by
    rw [show seq + BitVec.ofNat 32 d.length = pos seq d.length from rfl, hnxt,
      seqBefore_pos seq ⟨by omega, by omega⟩]
    simp only [decide_eq_true_eq]
    split
    · rw [Nat.min_eq_left (by omega)]
    · rw [Nat.min_eq_right (by omega)]
  have hord : seqBefore seq (pos seq (min d.length (b.behind seq))) = true := by
    rw [seqBefore, decide_eq_true_eq, toInt_sub_eq, pos, BitVec.toNat_sub, BitVec.toNat_add,
      BitVec.toNat_ofNat]
    have hseq := seq.isLt
    split_ifs <;> omega
  have hstale : b.stale seq d = some ⟨seq, pos seq (min d.length (b.behind seq))⟩ := by
    rw [stale, if_neg]
    · rfl
    · simp only [List.isEmpty_iff, not_or]
      exact ⟨hd, by omega⟩
  rw [hend, hstale]
  simp [noteDup, hord]

section Trim

variable (put : RecvBuf α → Seq → Seq → List α → Option (RecvBuf α × ℕ))

/-- Trimming to the window keeps a front of the bytes, none past the right edge. -/
theorem insertFromVia_cases (base : Seq) {q : ℕ} (hq : b.nxtOff ≤ q) (hd : d ≠ []) :
    b.insertFromVia put (pos base q) (pos base (q + d.length)) d = some (b, 0) ∨
      ∃ j, d.take j ≠ [] ∧ b.insertFromVia put (pos base q) (pos base (q + d.length)) d =
          put b (pos base q) (pos base (q + (d.take j).length)) (d.take j) ∧
        ∀ R, 0 < b.windowSize → b.rightEdge = pos base R → b.nxtOff ≤ R → R < b.nxtOff + 2 ^ 31 →
          q + d.length < R + 2 ^ 31 → q + (d.take j).length ≤ R := by
  have hpos := List.length_pos_of_ne_nil hd
  rw [insertFromVia]
  split
  · simp only
    split
    · -- nothing of it is inside the window
      exact .inl rfl
    · rename_i htrim
      set t := (pos base (q + d.length) - b.rightEdge).toNat with ht
      have hlen : (d.take (d.length - t)).length = d.length - t := by simp
      have hend : b.rightEdge = pos base (q + (d.take (d.length - t)).length) := by
        rw [hlen]
        exact eq_pos_of_trim ht (by omega)
      refine .inr ⟨d.length - t, List.ne_nil_of_length_pos (by omega), by rw [hend], fun R _ hR hN h1 h2 => ?_⟩
      exact ((pos_inj_of_near base ⟨by omega, by omega⟩).mp (hend.symm.trans hR)).le
  · rename_i hc
    refine .inr ⟨d.length, ?_⟩
    rw [List.take_length]
    refine ⟨hd, rfl, fun R hw hR hN h1 h2 => ?_⟩
    rw [hR, seqAfter_pos base ⟨by omega, by omega⟩] at hc
    simp only [hw, true_or, true_and, decide_eq_true_eq] at hc
    omega

/-- An insert drops the bytes received already and goes on with the rest. -/
theorem insertVia_from (h : Shape base b) (seq : Seq) (d : List α) :
    ∃ dup, ((seq - b.nxt).toInt + d.length < 2 ^ 31 → dup = b.stale seq d) ∧
      b.insertVia put seq d =
        if (d.drop (b.behind seq)).isEmpty then some ({ b with dup := dup }, 0)
        else ({ b with dup := dup } : RecvBuf α).insertFromVia put (pos base (b.nxtOff + b.beyond seq))
          (pos base (b.nxtOff + b.beyond seq + (d.drop (b.behind seq)).length)) (d.drop (b.behind seq)) := by
  by_cases hd : d = []
  · exact ⟨none, fun _ => by simp [hd, stale], by simp [hd, insertVia]⟩
  rw [insertVia, if_neg (by simpa using hd)]
  by_cases hbefore : (seq - b.nxt).toInt < 0
  · obtain ⟨hoverlap, hnxt⟩ := nxt_eq_of_before hbefore
    have hbeyond : b.beyond seq = 0 := by
      rw [beyond]
      omega
    have hb : seqBefore seq b.nxt = true := decide_eq_true hbefore
    obtain ⟨dup, hdup⟩ := noteDup_eq { b with dup := none } seq
      (if seqBefore (seq + BitVec.ofNat 32 d.length) b.nxt then seq + BitVec.ofNat 32 d.length else b.nxt)
    refine ⟨dup, fun hfit => congrArg RecvBuf.dup (hdup.symm.trans (noteDup_stale hd hfit hbefore)), ?_⟩
    simp only [hb, if_true, hdup, hoverlap, hbeyond, Nat.add_zero, List.isEmpty_iff, List.drop_eq_nil_iff]
    split
    · rfl
    · rename_i hsome
      rw [← pos_add, ← h.nxt_eq, List.length_drop, hnxt, pos_add, Nat.add_sub_cancel' (by omega)]
      rfl
  · have hbehind : b.behind seq = 0 := by
      rw [behind]
      omega
    have hb : seqBefore seq b.nxt = false := decide_eq_false hbefore
    refine ⟨none, fun _ => by simp [stale, hbehind], ?_⟩
    simp only [hb, Bool.false_eq_true, if_false, hbehind, List.drop_zero, List.isEmpty_iff, hd]
    rw [← pos_add base (b.nxtOff + _), ← eq_pos_of_not_before h hbefore]

end Trim

/-- What `insert` comes down to: it takes nothing, or it drops the `k` bytes received already and those past
the window, and places the rest at position `q`. -/
theorem insert_cases (h : Shape base b) (seq : Seq) (d : List α) :
    ∃ dup, b.insert seq d = some ({ b with dup := dup }, 0) ∨
      ∃ q k j : ℕ, b.nxtOff ≤ q ∧ q < b.nxtOff + 2 ^ 31 ∧ (q : ℤ) = b.nxtOff + (seq - b.nxt).toInt + k ∧
        (d.drop k).take j ≠ [] ∧ b.insert seq d = ({ b with dup := dup } : RecvBuf α).place (pos base q)
          (pos base (q + ((d.drop k).take j).length)) ((d.drop k).take j) ∧
        ∀ R, 0 < b.windowSize → b.rightEdge = pos base R → b.nxtOff ≤ R → R < b.nxtOff + 2 ^ 31 →
          q + (d.drop k).length < R + 2 ^ 31 → q + ((d.drop k).take j).length ≤ R := by
  have hrange := BitVec.toInt_lt (x := seq - b.nxt)
  have hbeyond := beyond_eq b seq
  have hlt : b.beyond seq < 2 ^ 31 := by
    rw [beyond]
    omega
  obtain ⟨dup, -, heq⟩ := insertVia_from place h seq d
  refine ⟨dup, ?_⟩
  rw [insert_eq_insertVia, heq]
  split
  · exact .inl rfl
  · rename_i hsome
    have hne : d.drop (b.behind seq) ≠ [] := by simpa using hsome
    rcases insertFromVia_cases place base (b := { b with dup := dup }) (q := b.nxtOff + b.beyond seq)
      (Nat.le_add_right _ _) hne with hnone | ⟨j, hj⟩
    · exact .inl hnone
    · exact .inr ⟨b.nxtOff + b.beyond seq, b.behind seq, j, by omega, by omega, by omega, hj⟩

/-- A segment whose start lies within half the sequence space of RCV.NXT is taken in as the
stream's own bytes there. -/
theorem insert_taken (h : Shape base b) (hsh : Short b) {n : ℕ} (hp : Near p b.nxtOff)
    (hL : d.length < 2 ^ 31) (hi : b.insert (pos base p) d = some (b', n)) :
    Inserted base p d b b' := by
  obtain ⟨dup, hcases⟩ := insert_cases h (pos base p) d
  rcases hcases with hnone | ⟨q, k, j, hq1, hq2, hqp, hne, hplace, hedge⟩
  · obtain ⟨rfl, -⟩ := Prod.mk.inj (Option.some.inj (hnone.symm.trans hi))
    exact Inserted.of_dup h dup
  · rw [h.nxt_eq, toInt_pos_sub_of_near base hp] at hqp
    have hqk : p + k = q := by omega
    have hlen : ((d.drop k).take j).length ≤ d.length - k := (List.length_take_le' _ _).trans_eq List.length_drop
    have hpos := List.length_pos_of_ne_nil hne
    have hgrown := place_grown (h.change_dup dup) hsh ⟨hq1, hq2⟩ hne (by omega) (hplace.symm.trans hi)
    refine ⟨q, _, hgrown.change_dup.taken, fun W hW => ?_, fun R hw hR hN h1 h2 => hedge R hw hR hN h1 ?_⟩
    · rw [← hqk]
      exact (hW.drop k).take j
    · rw [List.length_drop]
      omega

end RecvBuf

end PktKit.Vtcp
