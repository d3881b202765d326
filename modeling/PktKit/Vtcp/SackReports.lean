import PktKit.Vtcp.Duplicates

/-! # What a receiver reports of the data it holds

SACK blocks name the ranges held past a hole, the one that took in a segment last first.
The buffer remembers that by a sequence number inside each of the last four ranges
extended; here it runs beside the full list of segments that came out of order.
-/

namespace PktKit.Vtcp
open Foundations Foundations.Wrapping Foundations.Fragments

namespace RecvBuf

variable {α : Type*} {base seq : Seq} {b b' : RecvBuf α} {d : List α} {m n o q : ℕ}

/-! ## The ranges as blocks -/

/-- `[i, j)` is held past a hole, and nothing next to it is. -/
structure Maximal (b : RecvBuf α) (i j : ℕ) : Prop where
  lt : b.nxtOff < i ∧ i < j
  held : ∀ o, i ≤ o → o < j → (b.heldAt o).isSome
  left : b.heldAt (i - 1) = none
  right : b.heldAt j = none

theorem heldAt_none_iff : b.heldAt o = none ↔ ¬ ∃ x ∈ b.ooo, x.1 ≤ o ∧ o < rangeEnd x := by
  rw [← heldAt_isSome_iff, Option.not_isSome_iff_eq_none]

theorem Shape.maximal (h : Shape base b) {x : ℕ × OooEntry α} (hx : x ∈ b.ooo) : Maximal b x.1 (rangeEnd x) := by
  have h1 := (h.ahead x hx).1
  have h2 := h.lt_rangeEnd hx
  refine ⟨⟨h1, h2⟩, fun o hlo hhi => heldAt_isSome_iff.mpr ⟨x, hx, hlo, hhi⟩, ?_, ?_⟩
  · rw [heldAt_none_iff]
    rintro ⟨y, hy, hlo, hhi⟩
    rcases h.trichotomy hx hy with rfl | hap | hap <;> omega
  · have hnot := h.not_had_rangeEnd hx
    rw [Had, not_or, Option.not_isSome_iff_eq_none] at hnot
    exact hnot.2

theorem Shape.rangeOf_of_mem (h : Shape base b) (hr : Reach b) {x : ℕ × OooEntry α} (hx : x ∈ b.ooo)
    (hm : x.1 ≤ m ∧ m < rangeEnd x) : b.rangeOf (pos base m) = some x.2 := by
  have h1 := (h.ahead x hx).1
  have h2 := hr x hx
  have hafter : seqAfter (pos base m) b.nxt = true := by
    rw [h.nxt_eq, seqAfter_pos base ⟨by omega, by omega⟩, decide_eq_true_eq]
    omega
  have hlast : (b.ooo.filter fun y => y.1 ≤ m).getLast? = some x := by
    obtain ⟨l1, l2, hooo⟩ := List.append_of_mem hx
    have hkeys := h.keys_lt
    have hap := h.apart
    rw [hooo] at hkeys hap
    have hlow : ∀ y ∈ l1, y.1 ≤ m := fun y hy =>
      ((List.pairwise_append.mp hkeys).2.2 y hy x List.mem_cons_self).le.trans hm.1
    have hhigh : ∀ y ∈ l2, ¬ y.1 ≤ m := fun y hy => by
      have : rangeEnd x < y.1 := (List.pairwise_cons.mp (List.pairwise_append.mp hap).2.1).1 y hy
      omega
    rw [hooo, List.filter_append, List.filter_cons_of_pos (by simpa using hm.1),
      List.filter_eq_self.mpr (by simpa using hlow), List.filter_eq_nil_iff.mpr (by simpa using hhigh),
      List.getLast?_concat]
  have hend : seqBefore (pos base m) x.2.endSeq = true := by
    rw [(h.placed x hx).endSeq_eq, seqBefore_pos base ⟨by omega, by omega⟩, decide_eq_true_eq]
    exact hm.2
  rw [rangeOf, hafter, h.off_pos ⟨by omega, by omega⟩, hlast]
  simp [hend]

theorem Shape.rangeOf_of_free (h : Shape base b) (hr : Reach b) (hm : b.nxtOff ≤ m ∧ m < b.nxtOff + 2 ^ 31)
    (hfree : b.heldAt m = none) : b.rangeOf (pos base m) = none := by
  rw [rangeOf]
  split
  · rfl
  · rw [h.off_pos ⟨by omega, by omega⟩]
    split
    · rfl
    · rename_i x hx
      have hmem := List.mem_of_getLast? hx
      obtain ⟨hxo, hle⟩ := List.mem_filter.mp hmem
      have h1 := h.ahead x hxo
      have h2 := hr x hxo
      have h3 := h.lt_rangeEnd hxo
      rw [if_neg]
      rw [(h.placed x hxo).endSeq_eq, seqBefore_pos base ⟨by omega, by omega⟩, decide_eq_true_eq]
      intro hlt
      exact heldAt_none_iff.mp hfree ⟨x, hxo, by simpa using hle, hlt⟩

/-! ## Listing blocks -/

/-- The blocks of `bs` in order, each once, until there are `max`. -/
def collect (max : ℕ) (out bs : List SackBlock) : List SackBlock :=
  bs.foldl (fun out block => if out.length = max ∨ out.contains block then out else out ++ [block]) out

/-- What `collect` gives: an extension of what was there, without repetition, of nothing but `bs`, and
all of it unless there is no more room. -/
structure Collected (max : ℕ) (out bs r : List SackBlock) : Prop where
  nodup : r.Nodup
  length_le : r.length ≤ max
  front : out <+: r
  only : ∀ block ∈ r, block ∈ out ∨ block ∈ bs
  all : r.length = max ∨ ∀ block ∈ bs, block ∈ r

theorem collect_collected {out : List SackBlock} (max : ℕ) (bs : List SackBlock) (hnd : out.Nodup)
    (hlen : out.length ≤ max) : Collected max out bs (collect max out bs) := by
  induction bs generalizing out with
  | nil => exact ⟨hnd, hlen, List.prefix_rfl, fun _ h => .inl h, .inr (by simp)⟩
  | cons block bs ih =>
    rw [collect, List.foldl_cons]
    split
    · rename_i hskip
      have h := ih hnd hlen
      refine ⟨h.nodup, h.length_le, h.front, fun c hc => (h.only c hc).imp_right (List.mem_cons_of_mem _), ?_⟩
      rcases h.all with hfull | hall
      · exact .inl hfull
      · rcases hskip with hfull | hmem
        · left
          exact Nat.le_antisymm h.length_le (hfull ▸ h.front.length_le)
        · right
          rintro c (_ | ⟨_, hc⟩)
          · exact h.front.subset (List.contains_iff_mem.mp hmem)
          · exact hall c hc
    · rename_i hroom
      simp only [not_or, Bool.not_eq_true, List.contains_eq_mem, decide_eq_false_iff_not] at hroom
      have hnd' : (out ++ [block]).Nodup := by
        rw [List.nodup_append]
        exact ⟨hnd, List.nodup_singleton _, fun a ha c hc => by
          rw [List.mem_singleton.mp hc]
          rintro rfl
          exact hroom.2 ha⟩
      have h := ih hnd' (by rw [List.length_append, List.length_singleton]; omega)
      refine ⟨h.nodup, h.length_le, (List.prefix_append _ _).trans h.front, fun c hc => ?_, ?_⟩
      · rcases h.only c hc with hc | hc
        · rcases List.mem_append.mp hc with hc | hc
          · exact .inl hc
          · exact .inr (by rw [List.mem_singleton.mp hc]; exact List.mem_cons_self)
        · exact .inr (List.mem_cons_of_mem _ hc)
      · refine h.all.imp_right fun hall => ?_
        rintro c (_ | ⟨_, hc⟩)
        · exact h.front.subset (by simp)
        · exact hall c hc

def blockOf (e : OooEntry α) : SackBlock := ⟨e.seq, e.endSeq⟩

theorem sackBlocksUpTo_eq (max : ℕ) : b.sackBlocksUpTo max =
    collect (min max MAX_SACK_BLOCKS) [] ((b.recent.filterMap b.rangeOf ++ b.ooo.map Prod.snd).map blockOf) := by
  rw [sackBlocksUpTo, collect, List.foldl_map]
  rfl

/-! ## What an insert does to the ranges and their marks -/

def SameRange (b : RecvBuf α) (o o' : ℕ) : Prop :=
  ∃ x ∈ b.ooo, (x.1 ≤ o ∧ o < rangeEnd x) ∧ x.1 ≤ o' ∧ o' < rangeEnd x

/-- Every range went into one of the ranges there now, or nothing of it is held past a hole any more. -/
def Coarser (b b' : RecvBuf α) : Prop :=
  ∀ x ∈ b.ooo, (∃ y ∈ b'.ooo, y.1 ≤ x.1 ∧ rangeEnd x ≤ rangeEnd y) ∨
    ∀ o, x.1 ≤ o → o < rangeEnd x → b'.heldAt o = none

theorem Coarser.sameRange {o' : ℕ} (h : Coarser b b') (hs : SameRange b o o') (ho : (b'.heldAt o).isSome) :
    SameRange b' o o' := by
  obtain ⟨x, hx, ⟨h1, h2⟩, h3, h4⟩ := hs
  rcases h x hx with ⟨y, hy, hlo, hhi⟩ | hgone
  · exact ⟨y, hy, ⟨by omega, by omega⟩, by omega, by omega⟩
  · rw [hgone o h1 h2] at ho
    simp at ho

theorem SameRange.trans {o₁ o₂ o₃ : ℕ} (hb : Shape base b) (h : SameRange b o₁ o₂) (h' : SameRange b o₂ o₃) :
    SameRange b o₁ o₃ := by
  obtain ⟨x, hx, hx1, hx2⟩ := h
  obtain ⟨y, hy, hy1, hy2⟩ := h'
  obtain rfl := hb.range_unique hx hy hx2 hy1
  exact ⟨x, hx, hx1, hy2⟩

/-- The marks once the range holding `seq` was extended. -/
def remark (b : RecvBuf α) (seq : Seq) (recent : List Seq) : List Seq :=
  match b.rangeOf seq with
  | none => recent
  | some e => (seq :: recent.filter fun s => !(seqBeforeEq e.seq s && seqBefore s e.endSeq)).take MAX_SACK_BLOCKS

theorem noteRecent_recent (b : RecvBuf α) (seq : Seq) :
    (b.noteRecent seq).recent = (b.noteRecent seq).remark seq b.recent := by
  have hsame : (b.noteRecent seq).rangeOf seq = b.rangeOf seq := by
    obtain ⟨recent, hrecent⟩ := noteRecent_eq b seq
    rw [hrecent]
    rfl
  rw [remark, hsame]
  cases hrange : b.rangeOf seq with
  | none => simp [noteRecent, hrange]
  | some e => simp [noteRecent, hrange]

/-- What an insert did to the ranges and their marks: it filed bytes past a hole at `q`, or it left
every range that is still there as it was. -/
structure Extended (base : Seq) (q : ℕ) (filed : Prop) (b b' : RecvBuf α) : Prop where
  shape : Shape base b'
  inside : Inside b'
  size : b'.windowSize = b.windowSize
  edge : b'.advEdge = b.advEdge
  coarser : Coarser b b'
  nxt_le : b.nxtOff ≤ b'.nxtOff ∧ b'.nxtOff < b.nxtOff + 2 ^ 31
  marks : filed → b'.nxtOff = b.nxtOff ∧ b'.recent = b'.remark (pos base q) b.recent ∧
    ∀ y ∈ b'.ooo, y ∈ b.ooo ∨ y.1 ≤ q ∧ q < rangeEnd y
  marks_not : ¬ filed → (∀ y ∈ b'.ooo, y ∈ b.ooo) ∧
    (b'.nxtOff = b.nxtOff ∧ b'.recent = b.recent ∨ b'.recent = b.recent.filter (seqAfterEq · b'.nxt))

theorem insertOoo_extended (h : Shape base b) (hr : Reach b) (hin : Inside b) (hq : b.nxtOff < q) (hd : d ≠ [])
    (hend : q + d.length < b.nxtOff + 2 ^ 31) (hwin : q + d.length ≤ b.nxtOff + b.window) {c : RecvBuf α}
    (hc : b.insertOoo (pos base q) d = some c) :
    Extended base q True b (c.prune.noteRecent (pos base q)) := by
  have hd0 := List.length_pos_of_ne_nil hd
  have hsh := h.short_of_reach hr
  have hfiled := insertOoo_filed h hsh ⟨hq, by omega⟩ hd (by omega) hc
  obtain ⟨e, dup, hspec, -, hend', -⟩ := insertOoo_spec h hsh ⟨hq, by omega⟩ (by omega) hc
  set k := b.meeting q d.length with hk
  have hsub : ∀ x ∈ k, x ∈ b.ooo := fun x hx => (mem_meeting.mp hx).1
  have hkap : k.Pairwise Apart := h.apart.filter _
  -- what filing did to each range, before any is given up
  have hcover : ∀ x ∈ b.ooo, ∃ y ∈ c.ooo, y.1 ≤ x.1 ∧ rangeEnd x ≤ rangeEnd y := by
    intro x hx
    rw [h.ooo_eq q d.length, ← hk] at hx
    simp only [hspec, List.mem_append, List.mem_cons] at hx ⊢
    rcases hx with (hx | hx) | hx
    · exact ⟨x, .inl hx, le_rfl, le_rfl⟩
    · refine ⟨_, .inr (.inl rfl), firstStart_le_key hkap (fun y hy => h.placed y (hsub y hy)) q x hx, ?_⟩
      rw [show rangeEnd (firstStart q k, e) = firstStart q k + e.data.length from rfl, hend']
      exact (le_lastEnd hkap (fun y hy => h.placed y (hsub y hy)) q x hx).trans (le_max_right _ _)
    · exact ⟨x, .inr (.inr hx), le_rfl, le_rfl⟩
  have hfresh : ∀ y ∈ c.ooo, y ∈ b.ooo ∨ y.1 ≤ q ∧ q < rangeEnd y := by
    intro y hy
    simp only [hspec, List.mem_append, List.mem_cons] at hy
    rcases hy with hy | rfl | hy
    · exact .inl (mem_before.mp hy).1
    · have h1 := firstStart_le q k
      right
      rw [rangeEnd, hend']
      exact ⟨h1, by omega⟩
    · exact .inl (mem_after.mp hy).1
  obtain ⟨ooo, mem, recent, hall, hpre, -, -⟩ := prune_noteRecent_eq hfiled.shape (pos base q)
  obtain ⟨hf, -⟩ := hfiled.prune_noteRecent (pos base q)
  have hrecent : (c.prune.noteRecent (pos base q)).recent =
      (c.prune.noteRecent (pos base q)).remark (pos base q) b.recent := by
    rw [noteRecent_recent, (prune_frame c).2, hspec]
  have hooo : (c.prune.noteRecent (pos base q)).ooo = ooo := by rw [hall]
  obtain ⟨_, _, _, _, hframe⟩ := hf.frame
  have hnxt : (c.prune.noteRecent (pos base q)).nxtOff = b.nxtOff := by rw [hframe]
  refine ⟨hf.shape, ?_, by rw [hframe], by rw [hframe], fun x hx => ?_, by omega, fun _ => ⟨hnxt, hrecent, ?_⟩,
    fun hno => absurd trivial hno⟩
  · have hbound := hf.bound (b.nxtOff + b.window) hwin hin
    intro x hx
    have hx' := hbound x hx
    rw [hframe]
    exact hx'
  · obtain ⟨y, hy, hlo, hhi⟩ := hcover x hx
    by_cases hmem : y ∈ ooo
    · exact .inl ⟨y, by rw [hooo]; exact hmem, hlo, hhi⟩
    · right
      intro o ho1 ho2
      rw [heldAt_none_iff, hooo]
      rintro ⟨z, hz, hz1, hz2⟩
      have hyz := hfiled.shape.range_unique hy (hpre.subset hz) (o := o) ⟨by omega, by omega⟩ ⟨hz1, hz2⟩
      exact hmem (hyz ▸ hz)
  · intro y hy
    rw [hooo] at hy
    exact hfresh y (hpre.subset hy)

theorem insert_extended (h : Shape base b) (hin : Inside b) (hws : b.windowSize < 2 ^ 31) (hown : b.OwnEdge)
    (hfit : (seq - b.nxt).toInt + d.length < 2 ^ 31) (hi : b.insert seq d = some (b', n)) :
    Extended base (b.nxtOff + b.beyond seq) (b.part seq d ≠ [] ∧ b.beyond seq ≠ 0) b b' := by
  have hwin := window_lt hws
  have hr : Reach b := fun x hx => by
    have := hin x hx
    omega
  obtain ⟨hshape', hinside', hsize'⟩ := insert_inside h hin hws hown hfit hi
  rw [insert_eq_insertVia, insertVia_eq _ h hown hwin hfit] at hi
  by_cases hnil : b.part seq d = []
  · simp only [hnil, List.isEmpty_nil, if_true, Option.some.injEq, Prod.mk.injEq] at hi
    obtain ⟨rfl, -⟩ := hi
    exact ⟨hshape', hinside', rfl, rfl, fun x hx => .inl ⟨x, hx, le_rfl, le_rfl⟩, ⟨le_rfl, by simp only; omega⟩,
      fun hfiled => absurd hnil hfiled.1, fun _ => ⟨fun _ hy => hy, .inl ⟨rfl, rfl⟩⟩⟩
  · have hreach := part_reach hfit hnil
    rw [if_neg (by simpa using hnil), place] at hi
    have heq : pos base (b.nxtOff + b.beyond seq) = b.nxt ↔ b.beyond seq = 0 := by
      rw [h.nxt_eq, pos_inj_of_near base ⟨by omega, by omega⟩]
      omega
    split at hi
    · rename_i hzero
      have hzero' : b.beyond seq = 0 := heq.mp hzero
      obtain ⟨c, hc, hcb⟩ := Option.map_eq_some_iff.mp hi
      obtain ⟨rfl, -⟩ := Prod.mk.inj hcb
      obtain ⟨dup, hdup⟩ := noteRefill_eq { b with dup := b.stale seq d }
        (pos base (b.nxtOff + b.beyond seq + (b.part seq d).length))
      obtain ⟨c', hc', hgrown, hkept, hsub⟩ := mergeOoo_grown (h.change_dup dup) (d := b.part seq d)
        (h.short_of_reach hr) (by omega)
      have hframe := (mergeOoo_frame hc).2
      simp only [hzero', Nat.add_zero] at hdup
      simp only [hzero', Nat.add_zero, hdup] at hc hframe
      simp only at hc'
      obtain rfl := Option.some.inj (hc.symm.trans hc')
      obtain ⟨_, _, _, _, _, hfr, -, -⟩ := hgrown.frame
      obtain ⟨hle, -⟩ := hgrown.bound (b.nxtOff + 2 ^ 31 - 1) (by simp only; omega)
        (by simp only; omega) fun x hx => by
        have := hr x hx
        omega
      refine ⟨hshape', hinside', hsize', by rw [hfr], fun x hx => ?_, ⟨by
        rw [hfr]; exact Nat.le_add_right _ _, by omega⟩,
        fun hfiled => absurd hzero' hfiled.2, fun _ => ⟨hsub, .inr hframe⟩⟩
      rcases hkept x hx with hmem | hpast
      · exact .inl ⟨x, hmem, le_rfl, le_rfl⟩
      · right
        intro o ho1 ho2
        rw [heldAt_none_iff]
        rintro ⟨y, hy, hyo, -⟩
        have := (hshape'.ahead y hy).1
        omega
    · rename_i hout
      have hne : b.beyond seq ≠ 0 := fun hz => hout (heq.mpr hz)
      obtain ⟨c, hc, hcb⟩ := Option.map_eq_some_iff.mp hi
      obtain ⟨rfl, -⟩ := Prod.mk.inj hcb
      have hle : b.nxtOff + b.beyond seq + (b.part seq d).length ≤ b.nxtOff + b.window := by
        have := part_end_le hnil
        omega
      have hext := insertOoo_extended (h.change_dup (b.stale seq d)) hr hin (by simp only; omega) hnil
        (by simp only; omega) hle hc
      exact ⟨hext.shape, hext.inside, hext.size, hext.edge, hext.coarser, hext.nxt_le,
        fun _ => hext.marks trivial, fun hno => absurd ⟨hnil, hne⟩ hno⟩

/-! ## The buffer and the segments that came out of order -/

/-- A segment that came past a hole: how many came before it, where its bytes start, and whether they
have been held past a hole ever since. -/
structure Arrival where
  nr : ℕ
  off : ℕ
  alive : Bool
deriving DecidableEq, Repr

/-- A buffer and the segments that came out of order, newest first. -/
structure Observed (α : Type*) where
  buf : RecvBuf α
  arrivals : List Arrival
  count : ℕ

inductive Use (α : Type*) where
  | insert (seq : Seq) (data : List α)
  | read (n : ℕ)

namespace Observed

def new (base : Seq) (windowSize : ℕ) : Observed α :=
  { buf := RecvBuf.new base windowSize, arrivals := [], count := 0 }

/-- An arrival is over once its bytes are given up or come in order. -/
def seenIn (b : RecvBuf α) (a : Arrival) : Arrival := { a with alive := a.alive && (b.heldAt a.off).isSome }

/-- A segment as an arrival, if part of it lies past a hole inside the window. -/
def arrived (s : Observed α) (seq : Seq) (d : List α) : List Arrival :=
  if (s.buf.part seq d).isEmpty || s.buf.beyond seq == 0 then []
  else [⟨s.count, s.buf.nxtOff + s.buf.beyond seq, true⟩]

def step (s : Observed α) : Use α → Option (Observed α)
  | .insert seq d => (s.buf.insert seq d).map fun r =>
    { buf := r.1
      arrivals := (s.arrived seq d ++ s.arrivals).map (seenIn r.1)
      count := s.count + (s.arrived seq d).length }
  | .read n => some { s with buf := (s.buf.read n).1 }

/-- An inserted segment ends less than half the sequence space past RCV.NXT. -/
def Fits (s : Observed α) : Use α → Prop
  | .insert seq d => (seq - s.buf.nxt).toInt + d.length < 2 ^ 31
  | .read _ => True

instance (s : Observed α) (use : Use α) : Decidable (s.Fits use) :=
  match use with
  | .insert seq d => inferInstanceAs (Decidable ((seq - s.buf.nxt).toInt + d.length < 2 ^ 31))
  | .read _ => .isTrue trivial

variable {s t : Observed α}

/-- The marks are those of `R`, newest first. A mark of a range that is held is of an arrival that is not
over, and each of the last four arrivals that is not over has a mark in its range at least as new. -/
structure Marked (base : Seq) (s : Observed α) (R : List Arrival) : Prop where
  recent : s.buf.recent = R.map fun a => pos base a.off
  order : R.Pairwise fun a c => c.nr < a.nr
  mem : ∀ a ∈ R, a ∈ s.arrivals
  near : ∀ a ∈ R, s.buf.nxtOff ≤ a.off ∧ a.off < s.buf.nxtOff + 2 ^ 31
  truth : ∀ a ∈ R, (s.buf.heldAt a.off).isSome → a.alive = true
  known : ∀ a ∈ s.arrivals, a.alive = true → s.count ≤ a.nr + MAX_SACK_BLOCKS →
    ∃ c ∈ R, a.nr ≤ c.nr ∧ s.buf.SameRange a.off c.off

structure Inv (base : Seq) (s : Observed α) : Prop where
  shape : s.buf.Shape base
  inside : s.buf.Inside
  size : s.buf.windowSize < 2 ^ 31
  edge : s.buf.advEdge = none
  old : ∀ a ∈ s.arrivals, a.nr < s.count
  held : ∀ a ∈ s.arrivals, a.alive = true → (s.buf.heldAt a.off).isSome
  marked : ∃ R, Marked base s R

theorem Inv.reach (h : Inv base s) : s.buf.Reach := by
  intro x hx
  have h1 := h.inside x hx
  have h2 := window_lt h.size
  omega

theorem Inv.ownEdge (h : Inv base s) : s.buf.OwnEdge := by
  rw [OwnEdge, h.edge]
  rfl

theorem inv_new {windowSize : ℕ} (hws : windowSize < 2 ^ 31) : Inv base (new base windowSize : Observed α) where
  shape := shape_new base windowSize
  inside := by simp [new, RecvBuf.new, Inside]
  size := hws
  edge := rfl
  old := by simp [new]
  held := by simp [new]
  marked := ⟨[], by simp [new, RecvBuf.new], .nil, by simp, by simp, by simp, by simp [new]⟩

/-- What `K` must give for its arrivals, as they now are, to be the marks. -/
theorem marked_of {b' : RecvBuf α} {as K : List Arrival} {count : ℕ}
    (hrecent : b'.recent = K.map fun a => pos base a.off) (horder : K.Pairwise fun a c => c.nr < a.nr)
    (hmem : ∀ a ∈ K, a ∈ as) (hnear : ∀ a ∈ K, b'.nxtOff ≤ a.off ∧ a.off < b'.nxtOff + 2 ^ 31)
    (htruth : ∀ a ∈ K, (b'.heldAt a.off).isSome → a.alive = true)
    (hknown : ∀ a ∈ as, a.alive = true → (b'.heldAt a.off).isSome → count ≤ a.nr + MAX_SACK_BLOCKS →
      ∃ c ∈ K, a.nr ≤ c.nr ∧ b'.SameRange a.off c.off) :
    Marked base { buf := b', arrivals := as.map (seenIn b'), count := count } (K.map (seenIn b')) where
  recent := by
    rw [List.map_map]
    exact hrecent
  order := List.pairwise_map.mpr horder
  mem := fun a ha => by
    obtain ⟨c, hc, rfl⟩ := List.mem_map.mp ha
    exact List.mem_map_of_mem (hmem c hc)
  near := fun a ha => by
    obtain ⟨c, hc, rfl⟩ := List.mem_map.mp ha
    exact hnear c hc
  truth := fun a ha hheld => by
    obtain ⟨c, hc, rfl⟩ := List.mem_map.mp ha
    exact Bool.and_eq_true_iff.mpr ⟨htruth c hc hheld, hheld⟩
  known := fun a ha halive hcount => by
    obtain ⟨c, hc, rfl⟩ := List.mem_map.mp ha
    obtain ⟨h1, h2⟩ := Bool.and_eq_true_iff.mp halive
    obtain ⟨k, hk, hnr, hsame⟩ := hknown c hc h1 h2 hcount
    exact ⟨seenIn b' k, List.mem_map_of_mem hk, hnr, hsame⟩

theorem sameRange_held {o o' : ℕ} {b : RecvBuf α} (h : b.SameRange o o') : (b.heldAt o').isSome := by
  obtain ⟨x, hx, -, h1, h2⟩ := h
  exact heldAt_isSome_iff.mpr ⟨x, hx, h1, h2⟩

/-- Where no segment came past a hole, marks are dropped only with their ranges. -/
theorem marked_not_filed {b' : RecvBuf α} {R : List Arrival} {q : ℕ} (hR : Marked base s R)
    (hext : Extended base q False s.buf b') :
    ∃ R', Marked base { buf := b', arrivals := s.arrivals.map (seenIn b'), count := s.count } R' := by
  obtain ⟨hsub, hmarks⟩ := hext.marks_not id
  obtain ⟨hN, hN'⟩ := hext.nxt_le
  have hheld : ∀ o, (b'.heldAt o).isSome → (s.buf.heldAt o).isSome := by
    intro o ho
    obtain ⟨y, hy, hyo⟩ := heldAt_isSome_iff.mp ho
    exact heldAt_isSome_iff.mpr ⟨y, hsub y hy, hyo⟩
  -- the marks left are those still ahead of RCV.NXT
  have hkeep : ∃ p : Arrival → Bool, b'.recent = (R.filter p).map (fun a => pos base a.off) ∧
      ∀ a ∈ R, (p a = true → b'.nxtOff ≤ a.off) ∧ ((b'.heldAt a.off).isSome → p a = true) := by
    rcases hmarks with ⟨hsame, hrec⟩ | hrec
    · refine ⟨fun _ => true, ?_, fun a ha => ⟨fun _ => ?_, fun _ => rfl⟩⟩
      · rw [hrec, hR.recent, List.filter_eq_self.mpr (by simp)]
      · rw [hsame]
        exact (hR.near a ha).1
    · have hafter : ∀ a ∈ R, seqAfterEq (pos base a.off) b'.nxt = decide (b'.nxtOff ≤ a.off) := by
        intro a ha
        have := hR.near a ha
        rw [hext.shape.nxt_eq, seqAfterEq_pos base ⟨by omega, by omega⟩]
      refine ⟨fun a => seqAfterEq (pos base a.off) b'.nxt, ?_, fun a ha => ?_⟩
      · rw [hrec, hR.recent, List.filter_map]
        rfl
      · simp only [hafter a ha, decide_eq_true_eq]
        refine ⟨id, fun ho => ?_⟩
        obtain ⟨y, hy, hyo, -⟩ := heldAt_isSome_iff.mp ho
        have := (hext.shape.ahead y hy).1
        omega
  obtain ⟨p, hrecent, hp⟩ := hkeep
  refine ⟨_, marked_of hrecent (hR.order.filter _) (fun a ha => hR.mem a (List.mem_of_mem_filter ha)) ?_ ?_ ?_⟩
  · intro a ha
    obtain ⟨haR, hpa⟩ := List.mem_filter.mp ha
    have h1 := (hp a haR).1 hpa
    have h2 := hR.near a haR
    omega
  · intro a ha ho
    exact hR.truth a (List.mem_of_mem_filter ha) (hheld _ ho)
  · intro a ha halive ho hcount
    obtain ⟨c, hc, hnr, hsame⟩ := hR.known a ha halive hcount
    have hsame' := hext.coarser.sameRange hsame ho
    exact ⟨c, List.mem_filter.mpr ⟨hc, (hp c hc).2 (sameRange_held hsame')⟩, hnr, hsame'⟩

/-- Of numbered things in falling order, one that fewer than `k` numbers lie above is among the first `k`. -/
theorem mem_take_of_nr {L : List Arrival} {c : Arrival} (k : ℕ)
    (horder : L.Pairwise fun a c => c.nr < a.nr) (hc : c ∈ L)
    (hlt : ∀ a ∈ L, a.nr < c.nr + k) : c ∈ L.take k := by
  induction k generalizing L with
  | zero => exact absurd (hlt c hc) (by omega)
  | succ k ih =>
    cases L with
    | nil => simp at hc
    | cons a L =>
      obtain ⟨hhead, htail⟩ := List.pairwise_cons.mp horder
      rw [List.take_succ_cons]
      rcases List.mem_cons.mp hc with rfl | hc
      · exact List.mem_cons_self
      · refine List.mem_cons_of_mem _ (ih htail hc fun e he => ?_)
        have h1 := hhead e he
        have h2 := hlt a List.mem_cons_self
        omega

/-- A segment filed past a hole takes the place of the marks in its range. -/
theorem marked_filed {b' : RecvBuf α} {R : List Arrival} {q : ℕ} (h : Inv base s) (hR : Marked base s R)
    (hext : Extended base q True s.buf b') (hq : s.buf.nxtOff ≤ q ∧ q < s.buf.nxtOff + 2 ^ 31) :
    ∃ R', Marked base { buf := b', arrivals := (⟨s.count, q, true⟩ :: s.arrivals).map (seenIn b'), count := s.count + 1 } R' := by
  obtain ⟨hN, hrecent, hfresh⟩ := hext.marks trivial
  have hr' : b'.Reach := fun x hx => by
    have h1 := hext.inside x hx
    have h2 := window_lt (b := b') (hext.size.trans_lt h.size)
    omega
  set w : Arrival := ⟨s.count, q, true⟩ with hw
  rw [remark] at hrecent
  cases hheld : b'.heldAt q with
  | none =>
    -- given up as soon as it came
    rw [hext.shape.rangeOf_of_free hr' (by omega) hheld, hR.recent] at hrecent
    refine ⟨_, marked_of hrecent hR.order (fun a ha => List.mem_cons_of_mem _ (hR.mem a ha)) ?_ ?_ ?_⟩
    · rw [hN]
      exact hR.near
    · intro a ha ho
      obtain ⟨y, hy, hyo⟩ := heldAt_isSome_iff.mp ho
      rcases hfresh y hy with hold | hnew
      · exact hR.truth a ha (heldAt_isSome_iff.mpr ⟨y, hold, hyo⟩)
      · exact absurd ⟨y, hy, hnew⟩ (heldAt_none_iff.mp hheld)
    · intro a ha halive ho hcount
      rcases List.mem_cons.mp ha with rfl | ha
      · simp [hw, hheld] at ho
      · obtain ⟨c, hc, hnr, hsame⟩ := hR.known a ha halive (by omega)
        exact ⟨c, hc, hnr, hext.coarser.sameRange hsame ho⟩
  | some v =>
    obtain ⟨x, hx, hxq⟩ := heldAt_isSome_iff.mp (show (b'.heldAt q).isSome by rw [hheld]; rfl)
    have hxr := hr' x hx
    have hxa := hext.shape.ahead x hx
    have hout : ∀ a ∈ R, (!(seqBeforeEq x.2.seq (pos base a.off) && seqBefore (pos base a.off) x.2.endSeq)) =
        !decide (x.1 ≤ a.off ∧ a.off < rangeEnd x) := by
      intro a ha
      have := hR.near a ha
      rw [(hext.shape.placed x hx).seq_eq, (hext.shape.placed x hx).endSeq_eq,
        seqBeforeEq_pos base ⟨by omega, by omega⟩, seqBefore_pos base ⟨by omega, by omega⟩, Bool.decide_and]
    set K := R.filter fun a => !decide (x.1 ≤ a.off ∧ a.off < rangeEnd x) with hK
    have hKR : ∀ a ∈ K, a ∈ R := fun a ha => List.mem_of_mem_filter ha
    have hKout : ∀ a ∈ K, ¬ (x.1 ≤ a.off ∧ a.off < rangeEnd x) := fun a ha => by
      have hnot := (List.mem_filter.mp ha).2
      rwa [Bool.not_eq_true', decide_eq_false_iff_not] at hnot
    rw [hext.shape.rangeOf_of_mem hr' hx hxq] at hrecent
    simp only at hrecent
    have hrec' : b'.recent = ((w :: K).take MAX_SACK_BLOCKS).map fun a => pos base a.off := by
      rw [hrecent, hR.recent, List.filter_map, List.map_take, List.map_cons, hK]
      congr 3
      exact List.filter_congr hout
    have horder : (w :: K).Pairwise fun a c => c.nr < a.nr :=
      List.pairwise_cons.mpr ⟨fun a ha => h.old a (hR.mem a (hKR a ha)), hR.order.filter _⟩
    have hsub : ∀ a ∈ (w :: K).take MAX_SACK_BLOCKS, a = w ∨ a ∈ K := fun a ha =>
      List.mem_cons.mp (List.mem_of_mem_take ha)
    refine ⟨_, marked_of hrec' (horder.sublist (List.take_sublist _ _)) ?_ ?_ ?_ ?_⟩
    · intro a ha
      rcases hsub a ha with rfl | ha
      · exact List.mem_cons_self
      · exact List.mem_cons_of_mem _ (hR.mem a (hKR a ha))
    · intro a ha
      rw [hN]
      rcases hsub a ha with rfl | ha
      · exact hq
      · exact hR.near a (hKR a ha)
    · intro a ha ho
      rcases hsub a ha with rfl | ha
      · rfl
      · -- outside the range extended, what is held was held before
        obtain ⟨y, hy, hyo⟩ := heldAt_isSome_iff.mp ho
        rcases hfresh y hy with hold | hnew
        · exact hR.truth a (hKR a ha) (heldAt_isSome_iff.mpr ⟨y, hold, hyo⟩)
        · obtain rfl := hext.shape.range_unique hx hy hxq hnew
          exact absurd hyo (hKout a ha)
    · intro a ha halive ho hcount
      have hin : ∀ c ∈ w :: K, a.nr ≤ c.nr → c ∈ (w :: K).take MAX_SACK_BLOCKS := fun c hc hnr =>
        mem_take_of_nr _ horder hc fun e he => by
          rcases List.mem_cons.mp he with rfl | he
          · simp only [hw]
            omega
          · have := h.old e (hR.mem e (hKR e he))
            omega
      rcases List.mem_cons.mp ha with rfl | ha
      · exact ⟨w, hin w List.mem_cons_self le_rfl, le_rfl, x, hx, hxq, hxq⟩
      · obtain ⟨c, hc, hnr, hsame⟩ := hR.known a ha halive (by omega)
        have hsame' := hext.coarser.sameRange hsame ho
        by_cases hcx : x.1 ≤ c.off ∧ c.off < rangeEnd x
        · have hold := h.old a ha
          exact ⟨w, hin w List.mem_cons_self hold.le, hold.le, hsame'.trans hext.shape ⟨x, hx, hcx, hxq⟩⟩
        · have hcK : c ∈ K := List.mem_filter.mpr ⟨hc, by rw [decide_eq_false hcx]; rfl⟩
          exact ⟨c, hin c (List.mem_cons_of_mem _ hcK) hnr, hnr, hsame'⟩

theorem inv_step (h : Inv base s) {use : Use α} (hfit : s.Fits use) (ht : s.step use = some t) : Inv base t := by
  obtain ⟨R, hR⟩ := h.marked
  cases use with
  | insert seq d =>
    obtain ⟨⟨b', n⟩, hi, rfl⟩ := Option.map_eq_some_iff.mp ht
    have hext := insert_extended h.shape h.inside h.size h.ownEdge hfit hi
    refine ⟨hext.shape, hext.inside, hext.size.trans_lt h.size, hext.edge.trans h.edge, ?_, ?_, ?_⟩
    · simp only [List.map_append, List.mem_append, List.mem_map]
      rintro a (⟨c, hc, rfl⟩ | ⟨c, hc, rfl⟩)
      · rw [arrived] at hc ⊢
        split at hc
        · simp at hc
        · rename_i hfiled
          rw [if_neg hfiled, List.mem_singleton.mp hc]
          exact Nat.lt_succ_self _
      · exact (h.old c hc).trans_le (Nat.le_add_right _ _)
    · intro a ha halive
      obtain ⟨c, -, rfl⟩ := List.mem_map.mp ha
      exact (Bool.and_eq_true_iff.mp halive).2
    · by_cases hfiled : s.buf.part seq d ≠ [] ∧ s.buf.beyond seq ≠ 0
      · have harrived : s.arrived seq d = [⟨s.count, s.buf.nxtOff + s.buf.beyond seq, true⟩] := by
          simp [arrived, hfiled]
        rw [eq_true hfiled] at hext
        rw [harrived]
        have hreach := part_reach hfit hfiled.1
        have hpos := List.length_pos_of_ne_nil hfiled.1
        exact marked_filed h hR hext ⟨Nat.le_add_right _ _, by omega⟩
      · have harrived : s.arrived seq d = [] := by
          rw [arrived, if_pos]
          simp only [Bool.or_eq_true, List.isEmpty_iff, beq_iff_eq]
          tauto
        rw [eq_false hfiled] at hext
        rw [harrived]
        exact marked_not_filed hR hext
  | read n =>
    obtain rfl := Option.some.inj ht
    have hb := h.shape
    exact ⟨⟨hb.nxt_eq, hb.apart, hb.placed, hb.ahead, hb.mem_eq⟩, read_inside h.inside h.size n, h.size, h.edge,
      h.old, h.held, R, hR.recent, hR.order, hR.mem, hR.near, hR.truth, hR.known⟩

/-- SACK blocks that tell the truth: few enough and each once, each one range of what is held and nothing
next to it; the one that took in the newest segment still there first, if that is one of the last four to
come; and every range where there are no more than asked for. -/
structure Reports (base : Seq) (s : Observed α) (max : ℕ) : Prop where
  length_le : (s.buf.sackBlocksUpTo max).length ≤ min max 4
  nodup : (s.buf.sackBlocksUpTo max).Nodup
  maximal : ∀ block ∈ s.buf.sackBlocksUpTo max, ∃ i j, block = ⟨pos base i, pos base j⟩ ∧ s.buf.Maximal i j
  newest : ∀ a ∈ s.arrivals, a.alive = true → (∀ c ∈ s.arrivals, c.alive = true → c.nr ≤ a.nr) →
    s.count ≤ a.nr + 4 → 0 < max →
    ∃ i j, (s.buf.sackBlocksUpTo max).head? = some ⟨pos base i, pos base j⟩ ∧ s.buf.Maximal i j ∧
      i ≤ a.off ∧ a.off < j
  all : s.buf.ooo.length ≤ min max 4 → ∀ i j, s.buf.Maximal i j →
    ⟨pos base i, pos base j⟩ ∈ s.buf.sackBlocksUpTo max

end Observed

theorem Shape.blockOf_eq (h : Shape base b) {x : ℕ × OooEntry α} (hx : x ∈ b.ooo) :
    blockOf x.2 = ⟨pos base x.1, pos base (rangeEnd x)⟩ := by
  rw [blockOf, (h.placed x hx).seq_eq, (h.placed x hx).endSeq_eq]

theorem mem_of_rangeOf {e : OooEntry α} (h : b.rangeOf seq = some e) : ∃ x ∈ b.ooo, x.2 = e := by
  rw [rangeOf] at h
  split at h
  · simp at h
  · split at h
    · simp at h
    · rename_i x hx
      split at h
      · exact ⟨x, List.mem_of_mem_filter (List.mem_of_getLast? hx), Option.some.inj h⟩
      · simp at h

/-- What is held with nothing next to it is one of the ranges. -/
theorem Maximal.range (h : Shape base b) {i j : ℕ} (hm : Maximal b i j) :
    ∃ x ∈ b.ooo, x.1 = i ∧ rangeEnd x = j := by
  obtain ⟨x, hx, hlo, hhi⟩ := heldAt_isSome_iff.mp (hm.held i le_rfl hm.lt.2)
  have hleft := heldAt_none_iff.mp hm.left
  have hright := heldAt_none_iff.mp hm.right
  have hstart : x.1 = i := by
    by_contra hne
    exact hleft ⟨x, hx, by omega, by omega⟩
  refine ⟨x, hx, hstart, ?_⟩
  rcases Nat.lt_trichotomy (rangeEnd x) j with hlt | heq | hgt
  · have hend := hm.held (rangeEnd x) (by omega) hlt
    exact absurd (.inr hend) (h.not_had_rangeEnd hx)
  · exact heq
  · have := hm.lt.2
    exact absurd ⟨x, hx, by omega, hgt⟩ hright

theorem collect_head {max : ℕ} {block : SackBlock} {bs : List SackBlock} (hmax : 0 < max) :
    (collect max [] (block :: bs)).head? = some block := by
  have hfirst : collect max [] (block :: bs) = collect max [block] bs := by
    rw [collect, List.foldl_cons, if_neg (by simp; omega)]
    rfl
  have hfront := (collect_collected max bs (List.nodup_singleton block) hmax).front
  rw [hfirst]
  obtain ⟨rest, hrest⟩ := hfront
  rw [← hrest]
  rfl

namespace Observed

variable {s t : Observed α}

theorem Inv.reports (h : Inv base s) (max : ℕ) : Reports base s max := by
  have hshape := h.shape
  set bs := (s.buf.recent.filterMap s.buf.rangeOf ++ s.buf.ooo.map Prod.snd).map blockOf with hbs
  have heq : s.buf.sackBlocksUpTo max = collect (min max 4) [] bs := sackBlocksUpTo_eq max
  have hcol := collect_collected (min max 4) bs List.nodup_nil (Nat.zero_le _)
  rw [← heq] at hcol
  have hmem : ∀ block ∈ bs, ∃ x ∈ s.buf.ooo, block = blockOf x.2 := by
    intro block hblock
    obtain ⟨e, he, rfl⟩ := List.mem_map.mp hblock
    rcases List.mem_append.mp he with he | he
    · obtain ⟨m, -, hm⟩ := List.mem_filterMap.mp he
      obtain ⟨x, hx, rfl⟩ := mem_of_rangeOf hm
      exact ⟨x, hx, rfl⟩
    · obtain ⟨x, hx, rfl⟩ := List.mem_map.mp he
      exact ⟨x, hx, rfl⟩
  have hfrom : ∀ block ∈ s.buf.sackBlocksUpTo max, ∃ x ∈ s.buf.ooo, block = blockOf x.2 := fun block hblock =>
    (hcol.only block hblock).elim (fun hnil => absurd hnil List.not_mem_nil) (hmem block)
  refine ⟨hcol.length_le, hcol.nodup, fun block hblock => ?_, fun a ha halive hnew hcount hmax => ?_,
    fun hfew i j hij => ?_⟩
  · obtain ⟨x, hx, rfl⟩ := hfrom block hblock
    exact ⟨_, _, hshape.blockOf_eq hx, hshape.maximal hx⟩
  · -- the newest arrival's mark comes first among those whose ranges are there
    obtain ⟨R, hR⟩ := h.marked
    obtain ⟨c, hc, hnr, x, hx, hax, hcx⟩ := hR.known a ha halive hcount
    obtain ⟨l1, l2, hsplit⟩ := List.append_of_mem hc
    have hdead : (l1.map fun a => pos base a.off).filterMap s.buf.rangeOf = [] := by
      rw [List.filterMap_eq_nil_iff]
      intro m hm
      obtain ⟨e, he, rfl⟩ := List.mem_map.mp hm
      have heR : e ∈ R := by simp [hsplit, he]
      have horder := hR.order
      rw [hsplit] at horder
      have hgt : c.nr < e.nr := (List.pairwise_append.mp horder).2.2 e he c List.mem_cons_self
      refine hshape.rangeOf_of_free h.reach (hR.near e heR) ?_
      rw [← Option.not_isSome_iff_eq_none]
      intro hheld
      have := hnew e (hR.mem e heR) (hR.truth e heR hheld)
      omega
    have hmarks : ∃ rest, s.buf.recent.filterMap s.buf.rangeOf = x.2 :: rest := by
      rw [hR.recent, hsplit, List.map_append, List.map_cons, List.filterMap_append, hdead, List.nil_append,
        List.filterMap_cons_some (hshape.rangeOf_of_mem h.reach hx hcx)]
      exact ⟨_, rfl⟩
    obtain ⟨rest, hrest⟩ := hmarks
    rw [hrest, List.cons_append, List.map_cons] at hbs
    refine ⟨x.1, rangeEnd x, ?_, hshape.maximal hx, hax⟩
    rw [heq, hbs, collect_head (by omega), hshape.blockOf_eq hx]
  · obtain ⟨x, hx, rfl, rfl⟩ := hij.range hshape
    rw [← hshape.blockOf_eq hx]
    rcases hcol.all with hfull | hall
    · -- as many distinct blocks as there are ranges
      have hsub : s.buf.sackBlocksUpTo max ⊆ s.buf.ooo.map fun x => blockOf x.2 := by
        intro block hblock
        obtain ⟨y, hy, rfl⟩ := hfrom block hblock
        exact List.mem_map_of_mem hy
      have hperm := (List.subperm_of_subset hcol.nodup hsub).perm_of_length_le (by rw [List.length_map]; omega)
      exact hperm.mem_iff.mpr (List.mem_map_of_mem (f := fun x => blockOf x.2) hx)
    · exact hall _ (List.mem_map_of_mem (List.mem_append_right _ (List.mem_map_of_mem hx)))

/-- In every run of inserts and reads on a buffer of less than half the sequence space, SACK blocks tell the
truth; and the duplicate taken after an insert whose segment starts no earlier than the stream is the lowest
stretch of it, up to the window's edge, that was there before. -/
theorem reports_truthful {windowSize : ℕ} (hws : windowSize < 2 ^ 31) {uses : List (Use α)}
    (hrun : Runs.run step (new base windowSize) uses = some s)
    (hfits : ∀ pre use post t, uses = pre ++ use :: post → Runs.run step (new base windowSize) pre = some t →
      t.Fits use) :
    (∀ max, Reports base s max) ∧
    ∀ seq (d : List α) (p : ℕ), s.Fits (.insert seq d) → (p : ℤ) = s.buf.nxtOff + (seq - s.buf.nxt).toInt →
      ∃ b' n, s.buf.insert seq d = some (b', n) ∧ Truthful base s.buf p (s.buf.cutEnd p d) b'.takeDup.2 := by
  have hinv : Inv base s := Runs.run_invariant_of (C := Fits)
    (fun _ _ _ h hc ht => inv_step h hc ht) hrun (inv_new hws) hfits
  refine ⟨hinv.reports, fun seq d p hfit hp => ?_⟩
  obtain ⟨b', n, q, d', hi, -⟩ := insert_grown hinv.shape hinv.reach hfit
  exact ⟨b', n, hi, insert_truthful hinv.shape hinv.inside hinv.size hinv.ownEdge hfit hp hi⟩

/-- Two ranges and a segment that overlaps both. -/
theorem reports_truthful_overlap :
    ∃ s : Observed ℕ, Runs.run step (new 4294967290 100) [.insert 4 [1, 2, 3], .insert 14 [4, 5]] = some s ∧
      Reports 4294967290 s 3 ∧ s.buf.sackBlocksUpTo 3 = [⟨14, 16⟩, ⟨4, 7⟩] ∧
      ∃ b' n, s.buf.insert 5 [0, 0, 0, 0, 0, 0, 0, 0, 0, 0, 0] = some (b', n) ∧
        Truthful 4294967290 s.buf 11 (s.buf.cutEnd 11 [0, 0, 0, 0, 0, 0, 0, 0, 0, 0, 0]) b'.takeDup.2 := by
  refine Runs.exists_of_any (P := fun s => s.buf.sackBlocksUpTo 3 = [⟨14, 16⟩, ⟨4, 7⟩] ∧ s.buf.nxtOff = 0 ∧
    s.buf.nxt = 4294967290) (by decide +kernel) ?_
  rintro s hs ⟨hblocks, hoff, hnxt⟩
  obtain ⟨hreports, hdup⟩ := reports_truthful (by decide) hs (Runs.along_sound (by decide +kernel))
  refine ⟨hreports 3, hblocks, hdup 5 _ 11 ?_ ?_⟩
  · rw [Fits, hnxt]
    decide
  · rw [hoff, hnxt]
    decide

/-- Five arrivals later the first two ranges are listed in the order they lie in; of five ranges at most
four are listed; bytes before the stream count as received; and past half the sequence space a duplicate
inside the window is not seen. -/
theorem reports_limits :
    (∃ s : Observed ℕ, Runs.run step (new 0 65536)
        [.insert 100 [0], .insert 200 [0], .insert 10 [0], .insert 20 [0], .insert 30 [0], .insert 40 [0],
          .insert 0 (List.replicate 50 0)] = some s ∧
      ⟨1, 200, true⟩ ∈ s.arrivals ∧ (∀ c ∈ s.arrivals, c.alive = true → c.nr ≤ 1) ∧
      (s.buf.sackBlocksUpTo 3).head? = some ⟨100, 101⟩) ∧
    (∃ s : Observed ℕ, Runs.run step (new 0 65536)
        [.insert 10 [0], .insert 20 [0], .insert 30 [0], .insert 40 [0], .insert 50 [0]] = some s ∧
      s.buf.ooo.length = 5 ∧ (s.buf.sackBlocksUpTo 5).length = 4) ∧
    (∃ b', (new 1000 100 : Observed ℕ).buf.insert 990 [0, 0, 0, 0, 0] = some (b', 0) ∧
      b'.takeDup.2 = some ⟨990, 995⟩) ∧
    ∃ b b', (new 0 (2 ^ 31 + 16) : Observed ℕ).buf.insert 10 (List.replicate 10 0) = some (b, 0) ∧
      (b.heldAt 10).isSome ∧ b.insert 10 [0] = some (b', 0) ∧ b'.takeDup.2 = none := by
  refine ⟨?_, ?_, ?_, ?_⟩
  · exact Runs.exists_of_any (by decide +kernel) fun _ _ h => h
  · exact Runs.exists_of_any (by decide +kernel) fun _ _ h => h
  · have hrun : ((new 1000 100 : Observed ℕ).buf.insert 990 [0, 0, 0, 0, 0]).any
        (fun r => decide (r.2 = 0 ∧ r.1.takeDup.2 = some ⟨990, 995⟩)) = true := by decide +kernel
    obtain ⟨⟨b', n⟩, hs, hd⟩ := (Option.any_eq_true _ _).mp hrun
    obtain ⟨rfl, hdup⟩ := of_decide_eq_true hd
    exact ⟨b', hs, hdup⟩
  · have hrun : ((new 0 (2 ^ 31 + 16) : Observed ℕ).buf.insert 10 (List.replicate 10 0)).any (fun r =>
        decide (r.2 = 0 ∧ (r.1.heldAt 10).isSome) && (r.1.insert 10 [0]).any (fun r' =>
          decide (r'.2 = 0 ∧ r'.1.takeDup.2 = none))) = true := by decide +kernel
    obtain ⟨⟨b, n⟩, hs, hd⟩ := (Option.any_eq_true _ _).mp hrun
    obtain ⟨hb, hagain⟩ := Bool.and_eq_true_iff.mp hd
    obtain ⟨rfl, hheld⟩ := of_decide_eq_true hb
    obtain ⟨⟨b', n'⟩, hs', hd'⟩ := (Option.any_eq_true _ _).mp hagain
    obtain ⟨rfl, hdup⟩ := of_decide_eq_true hd'
    exact ⟨b, b', hs, hheld, hs', hdup⟩

end Observed

end RecvBuf

end PktKit.Vtcp
