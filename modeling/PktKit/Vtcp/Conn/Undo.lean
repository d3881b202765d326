import PktKit.Foundations.Runs
import PktKit.Vtcp.Conn.Recovery

/-! # Undoing a loss response by D-SACK

A recovery episode as its undo sees it: what was retransmitted since `begin_undo`
and the D-SACK blocks taken against it. Where no byte is retransmitted again while
a report of it is outstanding, the answer `true` means every retransmission of
every byte was reported.
-/

namespace PktKit.Vtcp
open Foundations

namespace Conn

def Inside (range : Seq × Seq) (s : Seq) : Prop := (s - range.1).toNat < (range.2 - range.1).toNat

instance (range : Seq × Seq) (s : Seq) : Decidable (Inside range s) :=
  inferInstanceAs (Decidable ((s - range.1).toNat < (range.2 - range.1).toNat))

/-- A range of one byte or more that ends less than half the sequence space past `m`. -/
def Within (m : Seq) (range : Seq × Seq) : Prop :=
  0 < (range.2 - range.1).toNat ∧ (range.1 - m).toNat + (range.2 - range.1).toNat < 2 ^ 31

section Cut

variable {m s : Seq} {range : Seq × Seq} {b : SackBlock}

theorem dsackCut_within (h : Within m range) {y : Seq × Seq} (hy : y ∈ dsackCut b range) : Within m y := by
  obtain ⟨hpos, hreach⟩ := h
  rw [dsackCut] at hy
  split at hy
  · rw [List.mem_singleton.mp hy]
    exact ⟨hpos, hreach⟩
  · rename_i hmeets
    simp only [Bool.or_eq_true, Bool.not_eq_true', not_or, Bool.not_eq_false, seqBefore_iff,
      seqAfter_iff] at hmeets
    have hl := toNat_sub_of_sub b.left range.2 range.1
    have hlt := (b.left - range.1).isLt
    rcases List.mem_append.mp hy with hy | hy
    · split at hy
      · rename_i hbefore
        rw [seqBefore_iff] at hbefore
        obtain rfl := List.mem_singleton.mp hy
        have h1 := toNat_sub_of_sub range.1 b.left range.1
        rw [BitVec.sub_self, BitVec.toNat_zero] at h1
        exact ⟨by simp only; omega, by simp only; omega⟩
      · exact absurd hy List.not_mem_nil
    · split at hy
      · rename_i hafter
        rw [seqAfter_iff] at hafter
        obtain rfl := List.mem_singleton.mp hy
        have h1 := toNat_sub_of_sub range.2 b.right range.1
        have h2 := toNat_sub_of_sub b.right m range.1
        have h3 := toNat_sub_of_sub range.1 m range.1
        rw [BitVec.sub_self, BitVec.toNat_zero] at h3
        exact ⟨by simp only; omega, by simp only; omega⟩
      · exact absurd hy List.not_mem_nil

/-- A byte of a range stays unless the block covers it. -/
theorem dsackCut_keeps (h : Within m range) (hs : Inside range s) (hb : ¬ Inside (b.left, b.right) s) :
    ∃ y ∈ dsackCut b range, Inside y s := by
  obtain ⟨hpos, hreach⟩ := h
  simp only [Inside, not_lt] at hs hb
  rw [dsackCut]
  split
  · exact ⟨range, List.mem_singleton_self _, hs⟩
  · rename_i hmeets
    simp only [Bool.or_eq_true, Bool.not_eq_true', not_or, Bool.not_eq_false, seqBefore_iff,
      seqAfter_iff] at hmeets
    have hleft := toNat_sub_of_sub b.left range.2 range.1
    have hlt := (b.left - range.1).isLt
    have hlow := toNat_sub_of_sub range.1 b.left range.1
    rw [BitVec.sub_self, BitVec.toNat_zero] at hlow
    have hhigh := toNat_sub_of_sub range.2 b.right range.1
    have hcover := toNat_sub_of_sub s b.left range.1
    have hblock := toNat_sub_of_sub b.right b.left range.1
    -- the byte is below the block, or past it, or in it
    by_cases hbelow : seqBefore range.1 b.left = true ∧ (s - range.1).toNat < (b.left - range.1).toNat
    · refine ⟨(range.1, b.left), ?_, hbelow.2⟩
      rw [if_pos hbelow.1]
      exact List.mem_append_left _ (List.mem_singleton_self _)
    · rw [seqBefore_iff] at hbelow
      have hpast : (b.right - range.1).toNat ≤ (s - range.1).toNat := by omega
      have hend := toNat_sub_of_sub s b.right range.1
      refine ⟨(b.right, range.2), ?_, ?_⟩
      · rw [if_pos ((seqAfter_iff _ _).mpr ⟨by omega, by omega⟩)]
        exact List.mem_append_right _ (List.mem_singleton_self _)
      · simp only [Inside]
        omega

end Cut

section Add

variable {m seq : Seq} {len : ℕ} {r r' : List (Seq × Seq)}

/-- One more retransmission joins the ranges followed, at the end of the last or as a range of its own. -/
theorem addRetrans_cases {stop : Seq} (h : addRetrans r seq stop = some r') :
    (∃ init l, r = init ++ [(l, seq)] ∧ r' = init ++ [(l, stop)]) ∨ r' = r ++ [(seq, stop)] := by
  rw [addRetrans] at h
  split at h
  · rename_i last hlast
    obtain ⟨init, rfl⟩ := List.getLast?_eq_some_iff.mp hlast
    split at h
    · rename_i hnext
      obtain rfl := Option.some.inj h
      exact .inl ⟨init, last.1, by rw [← hnext], by rw [List.dropLast_concat]⟩
    · split at h
      · exact .inr (Option.some.inj h).symm
      · simp at h
  · rename_i hnone
    obtain rfl : r = [] := List.getLast?_eq_none_iff.mp hnone
    exact .inr (Option.some.inj h).symm

/-- They stay within reach of the marker, and hold the bytes they held and those just sent. -/
theorem addRetrans_spec (hr : ∀ x ∈ r, Within m x) (hlen : 0 < len) (hreach : (seq - m).toNat + len < 2 ^ 31)
    (h : addRetrans r seq (seq + BitVec.ofNat 32 len) = some r') :
    (∀ x ∈ r', Within m x) ∧
      ∀ s, ((∃ x ∈ r, Inside x s) ∨ (s - seq).toNat < len) → ∃ x ∈ r', Inside x s := by
  have hend : (seq + BitVec.ofNat 32 len).toNat = (seq.toNat + len) % 2 ^ 32 := by
    rw [BitVec.toNat_add, BitVec.toNat_ofNat, Nat.add_mod_mod]
  rcases addRetrans_cases h with ⟨init, l, rfl, rfl⟩ | rfl
  · obtain ⟨hpos, hlast⟩ := hr (l, seq) (by simp)
    simp only at hpos hlast
    have hlm := BitVec.toNat_sub l m
    have hsl := BitVec.toNat_sub seq l
    have hsm := BitVec.toNat_sub seq m
    have hwhole : (seq + BitVec.ofNat 32 len - l).toNat = (seq - l).toNat + len := by
      rw [BitVec.toNat_sub, hend]
      omega
    constructor
    · intro x hx
      rcases List.mem_append.mp hx with hx | hx
      · exact hr x (List.mem_append_left _ hx)
      · obtain rfl := List.mem_singleton.mp hx
        exact ⟨by simp only; omega, by simp only; omega⟩
    · rintro s (⟨x, hx, hxs⟩ | hs)
      · rcases List.mem_append.mp hx with hx | hx
        · exact ⟨x, List.mem_append_left _ hx, hxs⟩
        · obtain rfl := List.mem_singleton.mp hx
          refine ⟨_, List.mem_append_right _ (List.mem_singleton_self _), ?_⟩
          simp only [Inside] at hxs ⊢
          omega
      · refine ⟨_, List.mem_append_right _ (List.mem_singleton_self _), ?_⟩
        have hs' := toNat_sub_of_sub s l seq
        have hls := toNat_sub_of_sub seq l seq
        rw [BitVec.sub_self, BitVec.toNat_zero] at hls
        simp only [Inside]
        omega
  · have hstop : (seq + BitVec.ofNat 32 len - seq).toNat = len := by
      rw [BitVec.toNat_sub, hend]
      omega
    constructor
    · intro x hx
      rcases List.mem_append.mp hx with hx | hx
      · exact hr x hx
      · obtain rfl := List.mem_singleton.mp hx
        exact ⟨by simp only; omega, by simp only; omega⟩
    · rintro s (⟨x, hx, hxs⟩ | hs)
      · exact ⟨x, List.mem_append_left _ hx, hxs⟩
      · refine ⟨_, List.mem_append_right _ (List.mem_singleton_self _), ?_⟩
        simp only [Inside]
        omega

end Add

variable {κ : Type}

/-- A recovery episode: the connection, what was retransmitted since `begin_undo` and the D-SACK blocks
taken, and the last answer. -/
structure Episode (κ : Type) where
  conn : Conn κ
  resent : List (Seq × ℕ)
  reports : List SackBlock
  answer : Bool

namespace Episode

inductive Event where
  /-- `[seq, seq + len)` is retransmitted -/
  | resend (seq : Seq) (len : ℕ) (tsval : Seq)
  /-- an ACK carries a D-SACK block -/
  | dsack (b : SackBlock)

def start [CongestionController κ] (c : Conn κ) (timeout : Bool) : Episode κ :=
  { conn := c.beginUndo timeout, resent := [], reports := [], answer := false }

def step (e : Episode κ) : Event → Option (Episode κ)
  | .resend seq len tsval =>
    some { e with
      conn := e.conn.noteRetransmission seq len tsval, resent := e.resent ++ [(seq, len)], answer := false }
  | .dsack b =>
    let r := e.conn.dsackCoversRetransmissions b
    some { e with conn := r.1, reports := e.reports ++ [b], answer := r.2 }

/-- How often the byte at `s` was retransmitted in the episode. -/
def timesResent (e : Episode κ) (s : Seq) : ℕ := e.resent.countP fun r => decide ((s - r.1).toNat < r.2)

/-- How many D-SACK blocks since `begin_undo` cover the byte at `s`. -/
def timesReported (e : Episode κ) (s : Seq) : ℕ := e.reports.countP fun b => decide (Inside (b.left, b.right) s)

/-- The ranges a report is still waited for. -/
def outstanding (e : Episode κ) : List (Seq × Seq) := e.conn.loss.undo.retrans.getD []

def waits (e : Episode κ) (s : Seq) : Bool := e.outstanding.any fun x => Inside x s

/-- What is retransmitted is one byte or more less than half the sequence space past the marker, none of
them waiting for a report. -/
def Fresh (e : Episode κ) : Event → Prop
  | .resend seq len _ => 0 < len ∧ e.conn.loss.undo.marker.all (fun m => (seq - m).toNat + len < 2 ^ 31) ∧
      ∀ i < len, e.waits (seq + BitVec.ofNat 32 i) = false
  | .dsack _ => True

instance (e : Episode κ) (ev : Event) : Decidable (e.Fresh ev) :=
  match ev with
  | .resend seq len _ => inferInstanceAs (Decidable (0 < len ∧
      e.conn.loss.undo.marker.all (fun m => (seq - m).toNat + len < 2 ^ 31) ∧
      ∀ i < len, e.waits (seq + BitVec.ofNat 32 i) = false))
  | .dsack _ => .isTrue trivial

variable {e e' : Episode κ} {ev : Event} {m : Seq}

/-- Each retransmission of a byte is reported, but for one whose report is waited for. -/
def Balanced (e : Episode κ) (s : Seq) : Prop :=
  e.timesResent s ≤ e.timesReported s ∨
    (e.timesResent s ≤ e.timesReported s + 1 ∧ ∃ x ∈ e.outstanding, Inside x s)

structure Inv (m : Seq) (e : Episode κ) : Prop where
  marker : e.conn.loss.undo.marker = some m
  within : ∀ x ∈ e.outstanding, Within m x
  idle : e.conn.loss.ca = .opened → e.outstanding = []
  balanced : e.conn.loss.ca ≠ .opened → e.conn.loss.undo.retrans.isSome → ∀ s, e.Balanced s
  sound : e.answer = true → ∀ s, e.timesResent s ≤ e.timesReported s

theorem inv_start [CongestionController κ] (c : Conn κ) (timeout : Bool) : Inv c.sndUna (start c timeout) where
  marker := rfl
  within := fun _ hx => absurd hx List.not_mem_nil
  idle := fun _ => rfl
  balanced := fun _ _ _ => .inl le_rfl
  sound := fun h => nomatch h

/-- A retransmission noted changes the ranges followed, if any are. -/
theorem noteRetransmission_undo {c : Conn κ} (hm : c.loss.undo.marker = some m) (seq : Seq) (len : ℕ)
    (tsval : Seq) :
    let c' := c.noteRetransmission seq len tsval
    c'.loss.ca = c.loss.ca ∧ c'.loss.undo.marker = some m ∧
      (c.loss.ca = .opened → c'.loss.undo.retrans = c.loss.undo.retrans) ∧
      (c.loss.ca ≠ .opened → c'.loss.undo.retrans =
        c.loss.undo.retrans.bind (addRetrans · seq (seq + BitVec.ofNat 32 len))) := by
  intro c'
  by_cases hca : c.loss.ca = .opened
  · have hc' : c' = c := by simp [c', noteRetransmission, hca]
    rw [hc']
    exact ⟨rfl, hm, fun _ => rfl, fun h => absurd hca h⟩
  · have hgo : ¬ (decide (c.loss.ca = .opened) || c.loss.undo.marker.isNone) = true := by simp [hca, hm]
    rw [show c' = _ from if_neg hgo]
    dsimp only
    split <;> exact ⟨rfl, hm, fun h => absurd h hca, fun _ => rfl⟩

theorem inv_resend {seq tsval : Seq} {len : ℕ} (h : Inv m e) (hf : e.Fresh (.resend seq len tsval))
    (hstep : e.step (.resend seq len tsval) = some e') : Inv m e' := by
  obtain ⟨hlen, hreach, hfresh⟩ := hf
  simp only [h.marker, Option.all_some, decide_eq_true_eq] at hreach
  obtain rfl := Option.some.inj hstep
  obtain ⟨hca, hm, hopen, hclosed⟩ := noteRetransmission_undo h.marker seq len tsval
  by_cases hopened : e.conn.loss.ca = .opened
  · have hsame : (e.conn.noteRetransmission seq len tsval).loss.undo.retrans.getD [] = e.outstanding := by
      rw [hopen hopened]
      rfl
    refine ⟨hm, fun x hx => h.within x (hsame ▸ hx), fun _ => hsame.trans (h.idle hopened), fun hne => ?_,
      fun h => nomatch h⟩
    exact absurd (hca.trans hopened) hne
  have hnot : (e.conn.noteRetransmission seq len tsval).loss.ca ≠ .opened := fun h => hopened (hca.symm.trans h)
  cases hr' : (e.conn.noteRetransmission seq len tsval).loss.undo.retrans with
  | none =>
    have hnone : (e.conn.noteRetransmission seq len tsval).loss.undo.retrans.getD [] = [] := by rw [hr']; rfl
    refine ⟨hm, fun x hx => ?_, fun h => absurd h hnot, fun _ hsome => ?_, fun h => nomatch h⟩
    · rw [outstanding, hnone] at hx
      exact absurd hx List.not_mem_nil
    · rw [hr'] at hsome
      exact nomatch hsome
  | some r' =>
    obtain ⟨r, hr, hadd⟩ := Option.bind_eq_some_iff.mp ((hclosed hopened).symm.trans hr')
    have hout : e.outstanding = r := by rw [outstanding, hr]; rfl
    have hout' : (e.conn.noteRetransmission seq len tsval).loss.undo.retrans.getD [] = r' := by rw [hr']; rfl
    obtain ⟨hwithin, hkeeps⟩ := addRetrans_spec (fun x hx => h.within x (hout ▸ hx)) hlen hreach hadd
    refine ⟨hm, fun x hx => hwithin x (hout' ▸ hx), fun h => absurd h hnot, fun _ _ s => ?_, fun h => nomatch h⟩
    have hbal := h.balanced hopened (by rw [hr]; rfl) s
    simp only [Balanced, timesResent, timesReported, outstanding, hout', List.countP_append,
      List.countP_singleton, decide_eq_true_eq]
    split
    · rename_i hnew
      -- the byte waits for no report, so each of its retransmissions so far was reported
      have hfree : ¬ ∃ x ∈ e.outstanding, Inside x s := by
        rintro ⟨x, hx, hxs⟩
        have hwaits := hfresh (s - seq).toNat hnew
        rw [BitVec.ofNat_toNat, BitVec.setWidth_eq, BitVec.add_comm, BitVec.sub_add_cancel, waits,
          List.any_eq_false] at hwaits
        exact hwaits x hx (decide_eq_true hxs)
      have hle : e.timesResent s ≤ e.timesReported s := hbal.resolve_right fun h => hfree h.2
      exact .inr ⟨Nat.add_le_add_right hle 1, hkeeps s (.inr hnew)⟩
    · rcases hbal with hle | ⟨hle, x, hx, hxs⟩
      · exact .inl hle
      · exact .inr ⟨hle, hkeeps s (.inl ⟨x, hout ▸ hx, hxs⟩)⟩

/-- A D-SACK is not looked at, or it cuts every range followed. -/
theorem dsackCoversRetransmissions_cases (c : Conn κ) (b : SackBlock) :
    c.dsackCoversRetransmissions b = (c, false) ∨
      ∃ r, c.loss.undo.retrans = some r ∧ r ≠ [] ∧
        (c.dsackCoversRetransmissions b).1 =
          { c with loss.undo := { c.loss.undo with retrans := some (r.flatMap (dsackCut b)) } } ∧
        ((c.dsackCoversRetransmissions b).2 = true → r.flatMap (dsackCut b) = []) := by
  rw [dsackCoversRetransmissions]
  split
  · rename_i marker r hmarker hr
    split
    · exact .inl rfl
    · rename_i hgo
      refine .inr ⟨r, hr, ?_, rfl, ?_⟩
      · rintro rfl
        simp at hgo
      · simp only [Bool.and_eq_true, List.isEmpty_iff]
        exact fun h => h.2
  · exact .inl rfl

theorem inv_dsack {b : SackBlock} (h : Inv m e) (hstep : e.step (.dsack b) = some e') : Inv m e' := by
  obtain rfl : { e with
      conn := (e.conn.dsackCoversRetransmissions b).1
      reports := e.reports ++ [b]
      answer := (e.conn.dsackCoversRetransmissions b).2 } = e' := Option.some.inj hstep
  have hmore : ∀ s, e.timesReported s ≤ (e.reports ++ [b]).countP fun b => decide (Inside (b.left, b.right) s) :=
    fun s => List.countP_append ▸ Nat.le_add_right _ _
  rcases dsackCoversRetransmissions_cases e.conn b with hnone | ⟨r, hr, hne, hconn, hanswer⟩
  · rw [hnone]
    refine ⟨h.marker, h.within, h.idle, fun hne hsome s => ?_, fun h => nomatch h⟩
    rcases h.balanced hne hsome s with hle | ⟨hle, hx⟩
    · exact .inl (hle.trans (hmore s))
    · exact .inr ⟨hle.trans (Nat.add_le_add_right (hmore s) 1), hx⟩
  have hout : e.outstanding = r := by rw [outstanding, hr]; rfl
  have hcut : ∀ s, e.conn.loss.ca ≠ .opened → e.timesResent s ≤
      (e.reports ++ [b]).countP (fun b => decide (Inside (b.left, b.right) s)) ∨
      (e.timesResent s ≤ (e.reports ++ [b]).countP (fun b => decide (Inside (b.left, b.right) s)) + 1 ∧
        ∃ x ∈ r.flatMap (dsackCut b), Inside x s) := by
    intro s hne
    rcases h.balanced hne (by rw [hr]; rfl) s with hle | ⟨hle, x, hx, hxs⟩
    · exact .inl (hle.trans (hmore s))
    · by_cases hb : Inside (b.left, b.right) s
      · -- the block reports the retransmission waited for
        refine .inl (hle.trans ?_)
        rw [List.countP_append, List.countP_singleton, if_pos (decide_eq_true hb)]
        exact le_rfl
      · obtain ⟨y, hy, hys⟩ := dsackCut_keeps (h.within x hx) hxs hb
        exact .inr ⟨hle.trans (Nat.add_le_add_right (hmore s) 1), y,
          List.mem_flatMap.mpr ⟨x, hout ▸ hx, hy⟩, hys⟩
  have hidle : e.conn.loss.ca = .opened → r = [] := fun hopen => hout ▸ h.idle hopen
  refine ⟨?_, ?_, ?_, ?_, ?_⟩
  · simp only [hconn]
    exact h.marker
  · simp only [outstanding, hconn]
    intro y hy
    obtain ⟨x, hx, hyx⟩ := List.mem_flatMap.mp hy
    exact dsackCut_within (h.within x (hout ▸ hx)) hyx
  · simp only [outstanding, hconn]
    intro hopen
    simp [hidle hopen]
  · simp only [Balanced, outstanding, hconn]
    exact fun hne _ s => hcut s hne
  · intro hans s
    have hempty := hanswer hans
    by_cases hopen : e.conn.loss.ca = .opened
    · exact absurd (hidle hopen) hne
    · refine (hcut s hopen).resolve_right ?_
      rintro ⟨-, x, hx, -⟩
      rw [hempty] at hx
      exact List.not_mem_nil hx

theorem inv_step (h : Inv m e) (hf : e.Fresh ev) (hstep : e.step ev = some e') : Inv m e' := by
  cases ev with
  | resend seq len tsval => exact inv_resend h hf hstep
  | dsack b => exact inv_dsack h hstep

/-- Where no byte is retransmitted while a report of it is waited for, the answer `true` means that every
byte retransmitted was reported as often as it was. If no retransmission arrived twice and each report
tells of a copy beyond the first, an earlier copy of it arrived. -/
theorem undo_sound [CongestionController κ] {c : Conn κ} {timeout : Bool} {evs : List Event}
    (hrun : Runs.run step (start c timeout) evs = some e)
    (hfresh : ∀ pre ev post t, evs = pre ++ ev :: post → Runs.run step (start c timeout) pre = some t → t.Fresh ev)
    (hanswer : e.answer = true) :
    (∀ s, e.timesResent s ≤ e.timesReported s) ∧
      ∀ earlier again : Seq → ℕ, (∀ s, again s ≤ e.timesResent s) →
        (∀ s, e.timesReported s ≤ earlier s + again s - 1) → ∀ s, 0 < e.timesResent s → 0 < earlier s := by
  have hinv : Inv c.sndUna e := Runs.run_invariant_of (C := Fresh)
    (fun _ _ _ h hf hstep => inv_step h hf hstep) hrun (inv_start c timeout) hfresh
  refine ⟨hinv.sound hanswer, fun earlier again hagain hreported s hs => ?_⟩
  have h1 := hinv.sound hanswer s
  have h2 := hagain s
  have h3 := hreported s
  omega

def recovering : Conn NewReno := { (Conn.new {} 0 0 ⟨0, 0⟩ none : Conn NewReno) with loss.ca := .recovery }

/-- A retransmission is reported in two parts, and some of it is sent and reported once more. -/
theorem undo_sound_parts :
    ∃ e, Runs.run step (start recovering false)
        [.resend 0 4 0, .dsack ⟨0, 3⟩, .resend 1 2 0, .resend 6 1 0, .dsack ⟨1, 4⟩, .dsack ⟨5, 9⟩] = some e ∧
      e.answer = true ∧ e.timesResent 2 = 2 ∧ ∀ s, e.timesResent s ≤ e.timesReported s := by
  refine Runs.exists_of_any (P := fun e => e.answer = true ∧ e.timesResent 2 = 2) (by decide +kernel) ?_
  rintro e he ⟨hanswer, htwice⟩
  exact ⟨hanswer, htwice, (undo_sound he (Runs.along_sound (by decide +kernel)) hanswer).1⟩

/-- The same bytes are retransmitted twice; one report of them is taken for both. -/
theorem one_report_for_two :
    ∃ e, Runs.run step (start recovering false)
        [.resend 0 4 0, .resend 0 4 0, .dsack ⟨0, 4⟩] = some e ∧
      e.answer = true ∧ e.timesResent 2 = 2 ∧ e.timesReported 2 = 1 :=
  Runs.exists_of_any (by decide +kernel) fun _ _ h => h

end Episode

end Conn

end PktKit.Vtcp
