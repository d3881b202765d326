import PktKit.Foundations.Runs
import PktKit.Vtcp.Ecn

/-! # Counting marks

A receiver counts the marks it sees and reports the count modulo eight on its ACKs, of which some are lost or
overtaken. The sender extends the reports it takes to a count of its own. The two agree as long as reports are
taken in order and less than eight marks apart.
-/

namespace PktKit.Vtcp
open Foundations

/-- An ACK as it was sent, with the receiver's count at the time. -/
structure SentAck where
  seg : Segment
  /-- it acknowledges the SYN-ACK alone, and reports how that came -/
  handshake : Bool
  rCep : BitVec 32
  /-- the marks counted since the start -/
  marks : ℕ

/-- A receiver, a sender and the ACKs from the one to the other. -/
structure EcnLink where
  receiver : Ecn
  sender : Ecn
  marks : ℕ := 0
  sent : List SentAck := []
  /-- what the last ACK taken that made progress reported -/
  lastAce : Option ℕ := none
  /-- the receiver's count as of that ACK -/
  lastRcep : BitVec 32
  lastMarks : ℕ := 0

namespace EcnLink

inductive Op where
  | receive (seg : Segment) (ip : IpEcn)
  | send (seg : Segment) (newData : Bool)
  /-- any ACK that was sent, however late -/
  | take (k : ℕ) (progress : Bool) (delivered mss : ℕ)

def start (receiver sender : Ecn) : EcnLink :=
  { receiver := receiver, sender := sender, lastRcep := receiver.rCep }

def taken (s : EcnLink) (a : SentAck) (progress : Bool) (delivered mss : ℕ) : EcnLink :=
  let sender := (s.sender.onAck a.seg progress delivered mss).1
  if progress then { s with sender := sender, lastAce := some (ace a.seg), lastRcep := a.rCep, lastMarks := a.marks }
  else { s with sender := sender }

def step (s : EcnLink) : Op → Option EcnLink
  | .receive seg ip =>
    some { s with receiver := s.receiver.onReceive seg ip, marks := if ip = .ce then s.marks + 1 else s.marks }
  | .send seg newData =>
    if seg.flags.syn || seg.flags.rst || !seg.flags.ack then none
    else
      let r := s.receiver.mark seg newData
      let handshake := s.receiver.synack.any fun x => Ecn.acksSynack seg x.2
      some { s with receiver := r.1, sent := s.sent ++ [⟨r.2.1, handshake, s.receiver.rCep, s.marks⟩] }
  | .take k progress delivered mss => s.sent[k]?.map (s.taken · progress delivered mss)

/-- An ACK that makes progress is none of the handshake, reports less than eight marks more than the last one taken
and none fewer, and delivers no more than seven segments. -/
def InReach (s : EcnLink) : Op → Prop
  | .take k true delivered mss =>
    (s.sent[k]?.all fun a => !a.handshake && decide (s.lastMarks ≤ a.marks ∧ a.marks < s.lastMarks + 8)) = true ∧
      delivered ≤ 7 * mss
  | _ => True

instance (s : EcnLink) : (op : Op) → Decidable (s.InReach op)
  | .take _ true _ _ => inferInstanceAs (Decidable (_ ∧ _))
  | .take _ false _ _ | .receive _ _ | .send _ _ => isTrue trivial

end EcnLink

/-! ## The ACE field -/

theorem ace_lt (seg : Segment) : ace seg < 8 := by
  have hb (b : Bool) : b.toNat ≤ 1 := b.toNat_le
  have h₁ := hb seg.ae
  have h₂ := hb seg.flags.cwr
  have h₃ := hb seg.flags.ece
  rw [ace]
  omega

theorem ace_setAce {code : ℕ} (seg : Segment) (h : code < 8) : ace (setAce seg code) = code := by
  have hbit (n : ℕ) : (n % 2 == 1).toNat = n % 2 := by
    obtain hn | hn := Nat.mod_two_eq_zero_or_one n <;> simp [hn]
  simp only [ace, setAce, hbit]
  omega

namespace Ecn

variable {e : Ecn} {seg : Segment} {delivered mss : ℕ}

def pkts (delivered mss : ℕ) : ℕ := min ((delivered + max mss 1 - 1) / max mss 1) (2 ^ 20)

/-- The marks they would carry at the prevailing rate. -/
def expected (e : Ecn) (delivered mss : ℕ) : ℕ := (pkts delivered mss * e.ceFrac + FRAC_ONE - 1) / FRAC_ONE

/-- The marks an ACK is taken to report. -/
def delta (e : Ecn) (seg : Segment) (delivered mss : ℕ) : ℕ :=
  let d := (BitVec.ofNat 32 (ace seg) - e.sCep).toNat % 8
  if 7 < e.expected delivered mss ∧ d ≤ e.expected delivered mss then
    e.expected delivered mss - (e.expected delivered mss - d) % 8
  else d

theorem onAck_progress (h : e.fb = .accurate) :
    (e.onAck seg true delivered mss).1 =
      { e with
        ceFrac := e.ceFrac - e.ceFrac / 8 +
          min (e.delta seg delivered mss) (pkts delivered mss) * FRAC_ONE / max (pkts delivered mss) 1 / 8
        sCep := e.sCep + BitVec.ofNat 32 (e.delta seg delivered mss) } := by
  simp only [onAck, h]
  rfl

theorem onAck_idle (h : e.fb = .accurate) : (e.onAck seg false delivered mss).1 = e := by
  simp only [onAck, h]
  rfl

theorem delta_mod : e.delta seg delivered mss % 8 = (BitVec.ofNat 32 (ace seg) - e.sCep).toNat % 8 := by
  rw [delta]
  split <;> omega

theorem expected_le (hf : e.ceFrac ≤ FRAC_ONE) : e.expected delivered mss ≤ pkts delivered mss := by
  have hmul : pkts delivered mss * e.ceFrac ≤ pkts delivered mss * FRAC_ONE := Nat.mul_le_mul_left _ hf
  simp only [expected, FRAC_ONE] at hmul ⊢
  omega

theorem delta_le (hf : e.ceFrac ≤ FRAC_ONE) : e.delta seg delivered mss ≤ 2 ^ 20 := by
  have he := @expected_le e delivered mss hf
  have hp : pkts delivered mss ≤ 2 ^ 20 := min_le_right _ _
  rw [delta]
  split <;> omega

/-- An ACK of no more than seven segments is taken at its word. -/
theorem delta_lt (hf : e.ceFrac ≤ FRAC_ONE) (hd : delivered ≤ 7 * mss) : e.delta seg delivered mss < 8 := by
  have he := @expected_le e delivered mss hf
  have hp : pkts delivered mss ≤ 7 := by
    apply le_trans (min_le_left _ _)
    rw [← Nat.lt_succ_iff, Nat.div_lt_iff_lt_mul (by omega)]
    omega
  rw [delta, if_neg (by omega)]
  exact Nat.mod_lt _ (by decide)

/-- The marking fraction stays a fraction. -/
theorem ceFrac_le {d p : ℕ} (hf : e.ceFrac ≤ FRAC_ONE) :
    e.ceFrac - e.ceFrac / 8 + min d p * FRAC_ONE / max p 1 / 8 ≤ FRAC_ONE := by
  have hs : min d p * FRAC_ONE / max p 1 ≤ FRAC_ONE := by
    apply Nat.div_le_of_le_mul
    exact Nat.mul_le_mul_right _ (by omega)
  simp only [FRAC_ONE] at hf hs ⊢
  omega

/-- The count goes on to what the ACK reports, modulo eight. -/
theorem sCep_mod (h : e.fb = .accurate) : (e.onAck seg true delivered mss).1.sCep.toNat % 8 = ace seg := by
  have hace := ace_lt seg
  have hmod := @delta_mod e seg delivered mss
  have hs := e.sCep.isLt
  rw [onAck_progress h]
  simp only [BitVec.toNat_add, BitVec.toNat_sub, BitVec.toNat_ofNat] at hmod ⊢
  omega

end Ecn

/-! ## Runs -/

namespace EcnLink

/-- An ACK reports the count at the time it was sent. -/
structure SentAck.Reports (base : BitVec 32) (a : SentAck) : Prop where
  count : a.rCep = base + BitVec.ofNat 32 a.marks
  code : a.handshake = false → ace a.seg = a.rCep.toNat % 8

/-- What a step keeps, with the counters begun at `base`. -/
structure Inv (base : BitVec 32) (s : EcnLink) : Prop where
  receiver : s.receiver.fb = .accurate
  sender : s.sender.fb = .accurate
  frac : s.sender.ceFrac ≤ FRAC_ONE
  count : s.receiver.rCep = base + BitVec.ofNat 32 s.marks
  sent : ∀ a ∈ s.sent, SentAck.Reports base a
  last : s.lastRcep = base + BitVec.ofNat 32 s.lastMarks
  code : ∀ c ∈ s.lastAce, s.sender.sCep.toNat % 8 = c

variable {base : BitVec 32} {s t : EcnLink} {op : Op}

theorem onReceive_count {e : Ecn} (h : e.fb = .accurate) (seg : Segment) (ip : IpEcn) :
    (e.onReceive seg ip).fb = .accurate ∧ (e.onReceive seg ip).rCep = if ip = .ce then e.rCep + 1 else e.rCep := by
  cases ip <;> simp [Ecn.onReceive, h]

theorem mark_report {e : Ecn} (h : e.fb = .accurate) {seg : Segment} (newData : Bool)
    (hack : ¬ (seg.flags.syn || seg.flags.rst || !seg.flags.ack) = true) :
    (e.mark seg newData).1 = { e with ceUnacked := 0 } ∧
      ((e.synack.any fun x => Ecn.acksSynack seg x.2) = false →
        ace (e.mark seg newData).2.1 = e.rCep.toNat % 8) := by
  rw [Ecn.mark, if_neg hack]
  simp only [h]
  refine ⟨trivial, fun hno => ?_⟩
  cases hsyn : e.synack with
  | none => exact ace_setAce _ (Nat.mod_lt _ (by decide))
  | some x =>
    have hx : Ecn.acksSynack seg x.2 = false := by simpa [hsyn] using hno
    simp only [hx]
    exact ace_setAce _ (Nat.mod_lt _ (by decide))

theorem ofNat_succ (b : BitVec 32) (n : ℕ) : b + BitVec.ofNat 32 n + 1 = b + BitVec.ofNat 32 (n + 1) := by
  rw [BitVec.ofNat_add, BitVec.add_assoc]
  rfl

theorem inv_step (h : Inv base s) (hstep : s.step op = some t) : Inv base t := by
  cases op with
  | receive seg ip =>
    obtain rfl := Option.some.inj hstep
    obtain ⟨hfb, hcep⟩ := onReceive_count h.receiver seg ip
    refine { h with receiver := hfb, count := ?_ }
    rw [hcep]
    split
    · rw [h.count, ofNat_succ]
    · exact h.count
  | send seg newData =>
    simp only [step] at hstep
    split at hstep
    · exact nomatch hstep
    rename_i hack
    obtain rfl := Option.some.inj hstep
    obtain ⟨hmark, hcode⟩ := mark_report h.receiver newData hack
    refine { h with receiver := ?_, count := ?_, sent := ?_ }
    · rw [hmark]
      exact h.receiver
    · rw [hmark]
      exact h.count
    · intro a ha
      obtain ha | ha := List.mem_append.mp ha
      · exact h.sent a ha
      · rw [List.mem_singleton.mp ha]
        exact ⟨h.count, hcode⟩
  | take k progress delivered mss =>
    obtain ⟨a, ha, rfl⟩ := Option.map_eq_some_iff.mp hstep
    have hrep := h.sent a (List.mem_of_getElem? ha)
    cases progress with
    | false =>
      have hidle := @Ecn.onAck_idle _ a.seg delivered mss h.sender
      refine { h with sender := ?_, frac := ?_, code := ?_ } <;> simp only [taken, hidle]
      · exact h.sender
      · exact h.frac
      · exact h.code
    | true =>
      have hon := @Ecn.onAck_progress _ a.seg delivered mss h.sender
      refine { h with sender := ?_, frac := ?_, last := hrep.count, code := ?_ }
      · simp only [taken, hon]
        exact h.sender
      · simp only [taken, hon]
        exact Ecn.ceFrac_le h.frac
      · intro c hc
        obtain rfl := Option.mem_some_iff.mp (show c ∈ some (ace a.seg) from hc)
        exact Ecn.sCep_mod h.sender

/-- Only taking an ACK that makes progress touches the sender. -/
theorem step_sender (h : Inv base s) (hstep : s.step op = some t) :
    (t.sender = s.sender ∧ t.lastRcep = s.lastRcep) ∨
      ∃ k delivered mss a, op = .take k true delivered mss ∧ s.sent[k]? = some a ∧ t.lastRcep = a.rCep ∧
        t.sender.sCep = s.sender.sCep + BitVec.ofNat 32 (s.sender.delta a.seg delivered mss) := by
  cases op with
  | receive seg ip =>
    obtain rfl := Option.some.inj hstep
    exact .inl ⟨rfl, rfl⟩
  | send seg newData =>
    simp only [step] at hstep
    split at hstep
    · exact nomatch hstep
    · obtain rfl := Option.some.inj hstep
      exact .inl ⟨rfl, rfl⟩
  | take k progress delivered mss =>
    obtain ⟨a, ha, rfl⟩ := Option.map_eq_some_iff.mp hstep
    cases progress with
    | false => exact .inl ⟨Ecn.onAck_idle h.sender, rfl⟩
    | true =>
      refine .inr ⟨k, delivered, mss, a, rfl, ha, rfl, ?_⟩
      simp only [taken, Ecn.onAck_progress h.sender, if_true]

theorem sCep_forward (h : Inv base s) (hstep : s.step op = some t) :
    (t.sender.sCep - s.sender.sCep).toNat ≤ 2 ^ 20 := by
  obtain ⟨hsame, -⟩ | ⟨k, delivered, mss, a, -, -, -, hcep⟩ := step_sender h hstep
  · simp [hsame]
  · rw [hcep, add_sub_cancel_left, BitVec.toNat_ofNat]
    exact (Nat.mod_le _ _).trans (Ecn.delta_le h.frac)

theorem exact_step (h : Inv base s) (hexact : s.sender.sCep = s.lastRcep) (hreach : s.InReach op)
    (hstep : s.step op = some t) : t.sender.sCep = t.lastRcep := by
  obtain ⟨hsame, hlast⟩ | ⟨k, delivered, mss, a, rfl, ha, hlast, hcep⟩ := step_sender h hstep
  · rw [hsame, hlast, hexact]
  · obtain ⟨hcount, hcode⟩ := h.sent a (List.mem_of_getElem? ha)
    obtain ⟨hall, hdel⟩ := hreach
    simp only [ha, Option.all_some, Bool.and_eq_true, Bool.not_eq_true', decide_eq_true_eq] at hall
    have hlt := @Ecn.delta_lt _ a.seg delivered mss h.frac hdel
    have hmod := @Ecn.delta_mod s.sender a.seg delivered mss
    have hdelta : s.sender.delta a.seg delivered mss = a.marks - s.lastMarks := by
      rw [hcode hall.1, hexact, h.last, hcount] at hmod
      simp only [BitVec.toNat_add, BitVec.toNat_sub, BitVec.toNat_ofNat] at hmod
      have hb := base.isLt
      omega
    rw [hcep, hdelta, hlast, hexact, h.last, hcount, BitVec.add_assoc, ← BitVec.ofNat_add,
      Nat.add_sub_cancel' hall.2.1]

theorem inv_start {receiver sender : Ecn} (hr : receiver.fb = .accurate) (hs : sender.fb = .accurate)
    (hf : sender.ceFrac ≤ FRAC_ONE) : Inv receiver.rCep (start receiver sender) where
  receiver := hr
  sender := hs
  frac := hf
  count := by simp [start]
  sent := nofun
  last := by simp [start]
  code := nofun

/-- In every run the sender's count goes forward only, is what the last progress reported modulo eight, and the
marking fraction stays a fraction; and where every such report was in reach, the count is the receiver's as of the
last. -/
theorem marks_counted {receiver sender : Ecn} (hr : receiver.fb = .accurate) (hs : sender.fb = .accurate)
    (hsame : sender.sCep = receiver.rCep) (hf : sender.ceFrac ≤ FRAC_ONE) {ops : List Op}
    (hrun : Runs.run step (start receiver sender) ops = some s) :
    s.sender.ceFrac ≤ FRAC_ONE ∧ (∀ c ∈ s.lastAce, s.sender.sCep.toNat % 8 = c) ∧
      (∀ op t, s.step op = some t → (t.sender.sCep - s.sender.sCep).toNat ≤ 2 ^ 20) ∧
      ((∀ pre op post t, ops = pre ++ op :: post → Runs.run step (start receiver sender) pre =
        some t → InReach t op) →
        s.sender.sCep = s.lastRcep) := by
  have hstart := inv_start hr hs hf
  have hinv := Runs.run_invariant (fun _ _ _ => inv_step) hrun hstart
  refine ⟨hinv.frac, hinv.code, fun _ _ => sCep_forward hinv, fun hreach => ?_⟩
  have hboth := Runs.run_invariant_of
    (P := fun s => Inv receiver.rCep s ∧ s.sender.sCep = s.lastRcep) (C := InReach)
    (fun _ _ _ h hC hst => ⟨inv_step h.1 hst, exact_step h.1 h.2 hC hst⟩) hrun ⟨hstart, hsame⟩ hreach
  exact hboth.2

/-- Either end after a handshake without marks. -/
def sampleEcn : Ecn := { fb := .accurate, ect := true, respond := true, rCep := 5, sCep := 5 }

def sampleData : Segment := { flags := { ack := true }, payload := [0] }
def sampleAck : Segment := { flags := { ack := true } }

def twoMarks : List Op := [.receive sampleData .ce, .send sampleAck false, .receive sampleData .ce,
    .send sampleAck false]

/-- The first ACK is lost, the second taken. -/
theorem marks_counted_one_lost :
    ∃ s, Runs.run step (start sampleEcn sampleEcn) (twoMarks ++ [.take 1 true 1000 1000]) = some s ∧
      s.lastRcep = 7 ∧ s.sender.sCep = s.lastRcep := by
  refine Runs.exists_of_any (P := fun s => s.lastRcep = 7) (by decide +kernel) fun s hs hlast => ⟨hlast, ?_⟩
  exact (marks_counted rfl rfl rfl (by decide) hs).2.2.2 (Runs.along_sound (by decide +kernel))

/-- The second ACK overtakes the first, which then makes progress as it reports data received that the second has no
room for: its older count is taken for seven marks more. -/
theorem overtaken_progress_counted :
    ∃ s, Runs.run step (start sampleEcn sampleEcn)
        (twoMarks ++ [.take 1 true 1000 1000, .take 0 true 1000 1000]) = some s ∧
      s.marks = 2 ∧ s.lastRcep = 6 ∧ s.sender.sCep = 14 :=
  Runs.exists_of_any (by decide +kernel) fun _ _ h => h

end EcnLink

end PktKit.Vtcp
