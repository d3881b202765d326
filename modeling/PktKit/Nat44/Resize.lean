import PktKit.Foundations.Wrapping

/-! # Sequence numbers after a resize

An ALG that changes the length of a TCP payload shifts every later byte of that direction's stream. The
NAT shifts the sequence numbers of later segments to match and shifts back what the other side
acknowledges. It remembers the latest resize point only, with the shifts before and after it.
-/

namespace PktKit.Nat44
open Foundations

/-- The sequence-number shift one direction of a TCP connection has taken. -/
structure SeqAdj where
  pos : BitVec 32 := 0
  before : BitVec 32 := 0
  after : BitVec 32 := 0

def seqAfter (a b : BitVec 32) : Bool := 0 < (a - b).toInt

namespace SeqAdj

def record (s : SeqAdj) (seq delta : BitVec 32) : SeqAdj :=
  if s.before = s.after ∨ seqAfter seq s.pos then { pos := seq, before := s.after, after := s.after + delta }
    else s

/-- Translate a sequence number sent in this direction. -/
def seq (s : SeqAdj) (seq : BitVec 32) : BitVec 32 :=
  let off := if seqAfter seq s.pos then s.after else s.before
  seq + off

/-- Translate an acknowledgement of this direction's data back to the sender's numbering. -/
def ack (s : SeqAdj) (ack : BitVec 32) : BitVec 32 :=
  let off := if seqAfter (ack - s.before) s.pos then s.after else s.before
  ack - off

end SeqAdj

/-- The numbers of a TCP segment: `ack` is there if the flag is set, `sack` lists the edges of the SACK blocks. -/
structure TcpHeader where
  seq : BitVec 32
  ack : Option (BitVec 32)
  sack : List (BitVec 32)

/-- `this` corrects the sequence number, `other` what counts the other side's bytes. -/
def TcpHeader.adjust (t : TcpHeader) (this other : SeqAdj) : TcpHeader :=
  { seq := this.seq t.seq, ack := t.ack.map other.ack, sack := t.sack.map other.ack }

/-- A segment on its way through the helpers: `before` payload bytes on the way in, `after` on the way out. -/
structure Passing where
  outbound : Bool
  header : TcpHeader
  before : BitVec 16
  after : BitVec 16

/-- What the NAT keeps of a tracked connection, by direction, and whether any payload was ever resized. -/
structure Corrections where
  used : Bool
  seqadj : Option (Bool → SeqAdj)

namespace Corrections

def recordResize (c : Corrections) (outbound : Bool) (seq delta : BitVec 32) : Corrections :=
  let adj := c.seqadj.getD fun _ => {}
  { used := true, seqadj := some (Function.update adj outbound ((adj outbound).record seq delta)) }

/-- Keep sequence numbers consistent after a helper changed the length of a payload. -/
def tcpSeqFixup (c : Corrections) (p : Passing) : Corrections × TcpHeader :=
  let delta : ℤ := p.after.toNat - p.before.toNat
  if delta = 0 ∧ ¬c.used then (c, p.header)
  else
    let c := if delta ≠ 0 then c.recordResize p.outbound p.header.seq (BitVec.ofInt 32 delta) else c
    match c.seqadj with
    | none => (c, p.header)
    | some adj => (c, p.header.adjust (adj p.outbound) (adj !p.outbound))

/-- The segments of a connection one after the other. -/
def run (c : Corrections) (ps : List Passing) : Corrections := ps.foldl (fun c p => (c.tcpSeqFixup p).1) c

/-- The correction of a direction: none at all before the first resize. -/
def adj (c : Corrections) (outbound : Bool) : SeqAdj := (c.seqadj.getD fun _ => {}) outbound

end Corrections

/-! ## The streams -/

/-- A resized segment: where it begins in its direction's stream, and its payload lengths. -/
structure Resized where
  off : ℕ
  before : BitVec 16
  after : BitVec 16

def Resized.delta (r : Resized) : ℤ := r.after.toNat - r.before.toNat

def shift : List Resized → BitVec 32
  | [] => 0
  | r :: rs => shift rs + BitVec.ofInt 32 r.delta

/-- The segments that passed, and those of direction `d` that were resized, latest first: at increasing
places, each keeping a byte. The latest may be retransmitted and resized again. -/
inductive Sends (d : Bool) (isn : BitVec 32) : List Passing → List Resized → Prop
  | nil : Sends d isn [] []
  | other {ps rs p} (hps : Sends d isn ps rs) (hp : p.outbound ≠ d ∨ p.before = p.after) :
    Sends d isn (ps ++ [p]) rs
  | resize {ps rs p} (hps : Sends d isn ps rs) (off : ℕ) (hd : p.outbound = d) (hne : p.before ≠ p.after)
      (hbefore : 0 < p.before) (hafter : 0 < p.after) (hseq : p.header.seq = Wrapping.pos isn off)
      (hoff : ∀ r ∈ rs.head?, r.off < off) : Sends d isn (ps ++ [p]) (⟨off, p.before, p.after⟩ :: rs)
  | again {ps r rs p} (hps : Sends d isn ps (r :: rs)) (hd : p.outbound = d) (hne : p.before ≠ p.after)
      (hseq : p.header.seq = Wrapping.pos isn r.off) : Sends d isn (ps ++ [p]) (r :: rs)

/-- Less than half a turn of the sequence numbers ahead. -/
def Near (y : ℤ) : Prop := 0 < y % 2 ^ 32 ∧ y % 2 ^ 32 < 2 ^ 31

/-- Every resize is less than half a turn after the one before. -/
def Spaced (rs : List Resized) : Prop := rs.IsChain fun r' r => Near ((r'.off : ℤ) - r.off)

variable {isn : BitVec 32} {d : Bool} {c : Corrections} {p : Passing} {ps : List Passing} {r : Resized}
  {rs : List Resized}

theorem ofInt_pos_iff (y : ℤ) : 0 < (BitVec.ofInt 32 y).toInt ↔ Near y := by
  rw [BitVec.toInt_ofInt, Int.bmod_def, Near]
  split
  all_goals omega

theorem seqAfter_pos (x y : ℕ) : seqAfter (Wrapping.pos isn x) (Wrapping.pos isn y) = true ↔
    Near ((x : ℤ) - y) := by
  rw [seqAfter, decide_eq_true_eq, Wrapping.pos_sub_pos, ofInt_pos_iff]

theorem delta_ne_zero (hne : p.before ≠ p.after) : BitVec.ofInt 32 (p.after.toNat - p.before.toNat) ≠ 0 := by
  have hb := p.before.isLt
  have ha := p.after.isLt
  have hne' : p.before.toNat ≠ p.after.toNat := fun h => hne (BitVec.eq_of_toNat_eq h)
  intro h
  have hint := congrArg BitVec.toInt h
  rw [BitVec.toInt_ofInt_eq_self (by norm_num) (by norm_num; omega) (by norm_num; omega)] at hint
  simp only [BitVec.ofNat_eq_ofNat, BitVec.toInt_zero] at hint
  omega

/-! ## What is kept -/

namespace Corrections

/-- A correction is in use only if a payload was resized. -/
def Sound (c : Corrections) : Prop := c.seqadj.isSome → c.used = true

theorem delta_eq_zero : (p.after.toNat : ℤ) - p.before.toNat = 0 ↔ p.before = p.after := by
  rw [← BitVec.toNat_inj]
  omega

/-- A segment changes what is kept of its own direction, if it was resized. -/
theorem tcpSeqFixup_adj (c : Corrections) (p : Passing) (d : Bool) : (c.tcpSeqFixup p).1.adj d =
    if p.outbound = d ∧ p.before ≠ p.after then
      (c.adj d).record p.header.seq (BitVec.ofInt 32 (p.after.toNat - p.before.toNat))
    else c.adj d := by
  have hfst : (c.tcpSeqFixup p).1 = if p.before ≠ p.after then
      c.recordResize p.outbound p.header.seq (BitVec.ofInt 32 (p.after.toNat - p.before.toNat)) else c := by
    simp only [tcpSeqFixup, ne_eq, delta_eq_zero]
    by_cases hsame : p.before = p.after
    · simp only [hsame, not_true_eq_false, if_false]
      split
      · rfl
      · split
        all_goals rfl
    · simp only [hsame, false_and, if_false, not_false_eq_true, if_true]
      rfl
  rw [hfst]
  by_cases hsame : p.before = p.after
  · simp [hsame]
  · by_cases hd : p.outbound = d
    · simp [hsame, hd, adj, recordResize]
    · simp [hsame, hd, adj, recordResize, Function.update_of_ne (Ne.symm hd)]

theorem tcpSeqFixup_sound (hc : c.Sound) : (c.tcpSeqFixup p).1.Sound := by
  simp only [tcpSeqFixup]
  split
  · exact hc
  · split
    all_goals
      dsimp only
      split
      · exact fun _ => rfl
      · exact hc

theorem seq_default (x : BitVec 32) : SeqAdj.seq {} x = x := by simp [SeqAdj.seq]

theorem ack_default (x : BitVec 32) : SeqAdj.ack {} x = x := by simp [SeqAdj.ack]

theorem adjust_default (t : TcpHeader) : t.adjust {} {} = t := by
  have hack : SeqAdj.ack {} = id := funext ack_default
  simp only [TcpHeader.adjust, seq_default, hack, Option.map_id, List.map_id, id]

/-- A segment leaves with both directions' corrections. -/
theorem tcpSeqFixup_header (hc : c.Sound) : (c.tcpSeqFixup p).2 =
    p.header.adjust ((c.tcpSeqFixup p).1.adj p.outbound) ((c.tcpSeqFixup p).1.adj !p.outbound) := by
  have hnone : ∀ {c : Corrections}, c.seqadj = none → ∀ d, c.adj d = {} := by
    intro c hnone d
    rw [adj, hnone]
    rfl
  simp only [tcpSeqFixup]
  split
  · next hidle =>
    have hadj : c.seqadj = none := by
      by_contra hsome
      exact hidle.2 (hc (Option.isSome_iff_ne_none.mpr hsome))
    rw [hnone hadj, hnone hadj, adjust_default]
  · split
    · next hadj => rw [hnone hadj, hnone hadj, adjust_default]
    · next adj hadj =>
      simp only [Corrections.adj, hadj, Option.getD_some]

/-- What is kept of a direction: the latest resize point and the sums before and after it. -/
def Keeps (c : Corrections) (d : Bool) (isn : BitVec 32) : List Resized → Prop
  | [] => c.adj d = {}
  | r :: rs => c.adj d = { pos := Wrapping.pos isn r.off, before := shift rs, after := shift (r :: rs) } ∧
      BitVec.ofInt 32 r.delta ≠ 0 ∧ 0 < r.before ∧ 0 < r.after

theorem Keeps.resize {off : ℕ} (hk : c.Keeps d isn rs) (hd : p.outbound = d) (hne : p.before ≠ p.after)
    (hbefore : 0 < p.before) (hafter : 0 < p.after) (hseq : p.header.seq = Wrapping.pos isn off)
    (hspaced : Spaced (⟨off, p.before, p.after⟩ :: rs)) :
    (c.tcpSeqFixup p).1.Keeps d isn (⟨off, p.before, p.after⟩ :: rs) := by
  refine ⟨?_, delta_ne_zero hne, hbefore, hafter⟩
  rw [tcpSeqFixup_adj, if_pos ⟨hd, hne⟩, SeqAdj.record, hseq]
  cases rs with
  | nil =>
    rw [if_pos (.inl (by rw [hk])), hk]
    rfl
  | cons r rs =>
    have hnear : Near ((off : ℤ) - r.off) := (List.isChain_cons_cons.mp hspaced).1
    rw [hk.1, if_pos (.inr ((seqAfter_pos off r.off).mpr hnear))]
    rfl

/-- The latest resized segment shifts the stream once only. -/
theorem Keeps.again (hk : c.Keeps d isn (r :: rs)) (hd : p.outbound = d) (hne : p.before ≠ p.after)
    (hseq : p.header.seq = Wrapping.pos isn r.off) : (c.tcpSeqFixup p).1.Keeps d isn (r :: rs) := by
  obtain ⟨hadj, hdelta, hkept⟩ := hk
  refine ⟨?_, hdelta, hkept⟩
  rw [tcpSeqFixup_adj, if_pos ⟨hd, hne⟩, SeqAdj.record, hseq, hadj, if_neg]
  rintro (hsame | hpast)
  · have hzero : shift rs + 0 = shift rs + BitVec.ofInt 32 r.delta := (BitVec.add_zero _).trans hsame
    exact hdelta ((BitVec.add_right_inj _).mp hzero).symm
  · have hnear := (seqAfter_pos r.off r.off).mp hpast
    simp [Near] at hnear

theorem run_keeps (used : Bool) (h : Sends d isn ps rs) (hspaced : Spaced rs) :
    (run ⟨used, none⟩ ps).Sound ∧ (run ⟨used, none⟩ ps).Keeps d isn rs := by
  induction h with
  | nil => exact ⟨fun h => by simp [run] at h, rfl⟩
  | @other ps rs p _ hp ih =>
    obtain ⟨hsound, hk⟩ := ih hspaced
    rw [run, List.foldl_append]
    refine ⟨tcpSeqFixup_sound hsound, ?_⟩
    have hadj : ((run ⟨used, none⟩ ps).tcpSeqFixup p).1.adj d = (run ⟨used, none⟩ ps).adj d := by
      rw [tcpSeqFixup_adj, if_neg (by tauto)]
    cases rs with
    | nil => exact hadj.trans hk
    | cons r rs => exact ⟨hadj.trans hk.1, hk.2⟩
  | resize _ off hd hne hbefore hafter hseq _ ih =>
    obtain ⟨hsound, hk⟩ := ih hspaced.tail
    rw [run, List.foldl_append]
    exact ⟨tcpSeqFixup_sound hsound, hk.resize hd hne hbefore hafter hseq hspaced⟩
  | again _ hd hne hseq ih =>
    obtain ⟨hsound, hk⟩ := ih hspaced
    rw [run, List.foldl_append]
    exact ⟨tcpSeqFixup_sound hsound, hk.again hd hne hseq⟩

/-! ## Transparency -/

/-- A segment and what acknowledges it are shifted to and fro exactly if it lies, and its shifted number
lies, less than half a turn after the latest resize. -/
theorem Keeps.shifts_iff (hk : c.Keeps d isn (r :: rs)) (x : ℕ) :
    ((c.adj d).seq (Wrapping.pos isn x) = Wrapping.pos isn x + shift (r :: rs) ∧
        (c.adj d).ack ((c.adj d).seq (Wrapping.pos isn x)) = Wrapping.pos isn x) ↔
      Near ((x : ℤ) - r.off) ∧ Near (x + r.delta - r.off) := by
  obtain ⟨hadj, hdelta, -⟩ := hk
  rw [hadj]
  by_cases hnear : Near ((x : ℤ) - r.off)
  · have hseq : SeqAdj.seq ⟨Wrapping.pos isn r.off, shift rs, shift (r :: rs)⟩ (Wrapping.pos isn x) =
        Wrapping.pos isn x + shift (r :: rs) := by
      rw [SeqAdj.seq, if_pos ((seqAfter_pos x r.off).mpr hnear)]
    have hback : seqAfter (Wrapping.pos isn x + shift (r :: rs) - shift rs) (Wrapping.pos isn r.off) = true ↔
        Near (x + r.delta - r.off) := by
      have hsum : (x + r.delta - r.off : ℤ) = (x - r.off) + r.delta := by ring
      have hsub : Wrapping.pos isn x + shift (r :: rs) - shift rs - Wrapping.pos isn r.off =
          BitVec.ofInt 32 (x + r.delta - r.off) := by
        rw [hsum, BitVec.ofInt_add, ← Wrapping.pos_sub_pos isn, shift]
        ring
      rw [seqAfter, decide_eq_true_eq, hsub, ofInt_pos_iff]
    rw [hseq, SeqAdj.ack]
    by_cases hnear' : Near (x + r.delta - r.off)
    · rw [if_pos (hback.mpr hnear'), BitVec.add_sub_cancel]
      exact iff_of_true ⟨rfl, rfl⟩ ⟨hnear, hnear'⟩
    · rw [if_neg (mt hback.mp hnear')]
      refine iff_of_false (fun h => hdelta ?_) (fun h => hnear' h.2)
      have hsame := h.2
      calc BitVec.ofInt 32 r.delta
          = Wrapping.pos isn x + shift (r :: rs) - shift rs - Wrapping.pos isn x := by rw [shift]; ring
        _ = 0 := by rw [hsame, BitVec.sub_self]; rfl
  · refine iff_of_false (fun h => ?_) (fun h => hnear h.1)
    have hseq := h.1
    rw [SeqAdj.seq, if_neg (mt (seqAfter_pos x r.off).mp hnear), BitVec.add_right_inj, shift] at hseq
    exact hdelta (left_eq_add.mp hseq)

/-- The latest resized segment, retransmitted, gets the shift from before it. -/
theorem Keeps.seq_again (hk : c.Keeps d isn (r :: rs)) :
    (c.adj d).seq (Wrapping.pos isn r.off) = Wrapping.pos isn r.off + shift rs := by
  rw [hk.1, SeqAdj.seq, if_neg]
  intro hpast
  have hnear := (seqAfter_pos r.off r.off).mp hpast
  simp [Near] at hnear

/-- A segment after the latest resized one lies near it if it is less than `2 ^ 31` bytes on. -/
theorem near_of_lt {x : ℕ} (hbefore : 0 < r.before) (hafter : 0 < r.after) (hx : r.off + r.before.toNat ≤ x)
    (hsent : (x : ℤ) - r.off < 2 ^ 31) (hshifted : x + r.delta - r.off < 2 ^ 31) :
    Near ((x : ℤ) - r.off) ∧ Near (x + r.delta - r.off) := by
  have hpos : 0 < r.before.toNat := hbefore
  have hpos' : 0 < r.after.toNat := hafter
  simp only [Near, Resized.delta] at *
  rw [Int.emod_eq_of_lt (by omega) (by omega), Int.emod_eq_of_lt (by omega) (by omega)]
  omega

/-- A direction's segments leave shifted by its correction, and what the other side acknowledges shifted
back, with the sum of all length changes after the latest resize and that of all but the last at it. This
holds as long as each resize is less than half a turn after the one before, for the segments less than half
a turn after the latest, and for no others. -/
theorem resize_transparent (used d : Bool) (isn : BitVec 32) (ps : List Passing) (r : Resized) (rs : List Resized)
    (hsends : Sends d isn ps (r :: rs)) (hspaced : Spaced (r :: rs)) (c : Corrections)
    (hrun : run ⟨used, none⟩ ps = c) :
    (∀ p, p.outbound = d → (p.before = p.after ∨ p.header.seq = Wrapping.pos isn r.off) →
        (c.tcpSeqFixup p).2.seq = (c.adj d).seq p.header.seq) ∧
      (∀ p, p.outbound = !d → (c.tcpSeqFixup p).2.ack = p.header.ack.map (c.adj d).ack ∧
        (c.tcpSeqFixup p).2.sack = p.header.sack.map (c.adj d).ack) ∧
      (c.adj d).seq (Wrapping.pos isn r.off) = Wrapping.pos isn r.off + shift rs ∧
      ∀ x : ℕ, r.off + r.before.toNat ≤ x →
        (((c.adj d).seq (Wrapping.pos isn x) = Wrapping.pos isn x + shift (r :: rs) ∧
            (c.adj d).ack ((c.adj d).seq (Wrapping.pos isn x)) = Wrapping.pos isn x) ↔
          Near ((x : ℤ) - r.off) ∧ Near (x + r.delta - r.off)) ∧
        ((x : ℤ) - r.off < 2 ^ 31 → x + r.delta - r.off < 2 ^ 31 →
          Near ((x : ℤ) - r.off) ∧ Near (x + r.delta - r.off)) := by
  subst hrun
  obtain ⟨hsound, hk⟩ := run_keeps used hsends hspaced
  refine ⟨?_, ?_, hk.seq_again, fun x hx => ⟨hk.shifts_iff x, near_of_lt hk.2.2.1 hk.2.2.2 hx⟩⟩
  · intro p hd hp
    have hadj : ((run ⟨used, none⟩ ps).tcpSeqFixup p).1.adj d = (run ⟨used, none⟩ ps).adj d := by
      by_cases hsame : p.before = p.after
      · rw [tcpSeqFixup_adj, if_neg (fun h => h.2 hsame)]
      · exact ((hk.again hd hsame (hp.resolve_left hsame)).1).trans hk.1.symm
    rw [tcpSeqFixup_header hsound, hd, hadj]
    rfl
  · intro p hd
    have hadj : ((run ⟨used, none⟩ ps).tcpSeqFixup p).1.adj d = (run ⟨used, none⟩ ps).adj d := by
      rw [tcpSeqFixup_adj, if_neg (fun h => by simp [hd] at h)]
    rw [tcpSeqFixup_header hsound, hd, Bool.not_not, hadj]
    exact ⟨rfl, rfl⟩

def grown : Passing := { outbound := true, header := ⟨0, none, []⟩, before := 10, after := 15 }

theorem sends_grown : Sends true 0 [grown] [⟨0, 10, 15⟩] :=
  .resize .nil 0 rfl (by decide) (by decide) (by decide) rfl (by simp)

theorem resize_transparent_grown : ((run ⟨false, none⟩ [grown]).adj true).seq (Wrapping.pos 0 0) =
    Wrapping.pos 0 0 + shift [] :=
  (resize_transparent false true 0 [grown] ⟨0, 10, 15⟩ [] sends_grown (List.isChain_singleton _) _ rfl).2.2.1

/-- A segment `2 ^ 31` bytes after the resize is not shifted at all. -/
theorem far_segment_unshifted : ((run ⟨false, none⟩ [grown]).adj true).seq (Wrapping.pos 0 (2 ^ 31)) =
      Wrapping.pos 0 (2 ^ 31) ∧ shift [⟨0, 10, 15⟩] = 5 ∧ Sends true 0 [grown] [⟨0, 10, 15⟩] :=
  ⟨by decide, by decide, sends_grown⟩

end Corrections

end PktKit.Nat44
