import PktKit.Time

/-! # The replay window

A ring of 64-bit words, advanced a word at a time as higher counters arrive. A counter is accepted
at most once, whatever order the counters come in.
-/

namespace PktKit.Wg

def REJECT_AFTER_MESSAGES : ℕ := 2 ^ 64 - 1 - 2 ^ 13
def WINDOW_SIZE : ℕ := 8192
def BITMAP_WORDS : ℕ := WINDOW_SIZE / 64
def WINDOW : ℕ := WINDOW_SIZE - 64

/-- The window; `next` is one past the highest counter accepted, or 0. -/
structure SlidingWindow where
  bitmap : ℕ → BitVec 64
  next : ℕ

namespace SlidingWindow

def new : SlidingWindow := ⟨fun _ => 0, 0⟩

def tooOldOrInvalid (w : SlidingWindow) (counter : ℕ) : Bool :=
  decide (REJECT_AFTER_MESSAGES ≤ counter) || decide (counter + 1 + WINDOW < w.next)

def slot (counter : ℕ) : ℕ × BitVec 64 := (counter / 64 % BITMAP_WORDS, 1#64 <<< (counter % 64))

def isReplay (w : SlidingWindow) (counter : ℕ) : Bool :=
  if w.tooOldOrInvalid counter then true
  else
    let (word, bit) := slot counter
    decide (counter < w.next) && (w.bitmap word &&& bit) != 0

def clear (bitmap : ℕ → BitVec 64) (cur n : ℕ) : ℕ → BitVec 64 :=
  (List.range n).foldl (fun m i => Function.update m ((cur + (i + 1)) % BITMAP_WORDS) 0) bitmap

def record (w : SlidingWindow) (counter : ℕ) : SlidingWindow :=
  let (word, bit) := slot counter
  { w with bitmap := Function.update w.bitmap word (w.bitmap word ||| bit) }

def checkReplay (w : SlidingWindow) (counter : ℕ) : SlidingWindow × Bool :=
  if w.tooOldOrInvalid counter then (w, true)
  else
    let theirNext := counter + 1
    let w :=
      if theirNext > w.next then
        let cur := (w.next - 1) / 64
        let new := counter / 64
        { bitmap := clear w.bitmap cur (min (new - cur) BITMAP_WORDS), next := theirNext }
      else w
    let (word, bit) := slot counter
    let seen := (w.bitmap word &&& bit) != 0
    (w.record counter, seen)

/-! ## Each counter once -/

def top (w : SlidingWindow) : ℕ := (w.next - 1) / 64

/-- The word of a counter is among those the ring holds. -/
def Live (w : SlidingWindow) (c : ℕ) : Prop := c / 64 ≤ w.top ∧ w.top < c / 64 + BITMAP_WORDS

/-- The window stands for the set of counters accepted. -/
structure Tracks (w : SlidingWindow) (acc : Set ℕ) : Prop where
  lt_next : ∀ c ∈ acc, c < w.next
  bit : ∀ c, w.Live c → ((w.bitmap (c / 64 % BITMAP_WORDS)).getLsbD (c % 64) = true ↔ c ∈ acc)

theorem tracks_new : Tracks new ∅ := ⟨by simp, by simp [new]⟩

theorem and_slot_ne_zero (x : BitVec 64) (c : ℕ) : ((x &&& (slot c).2) != 0) = x.getLsbD (c % 64) := by
  have hc : c % 64 < 64 := Nat.mod_lt _ (by norm_num)
  simp only [slot, ← BitVec.twoPow_eq, BitVec.and_twoPow]
  cases x.getLsbD (c % 64)
  · rfl
  · have hne : BitVec.twoPow 64 (c % 64) ≠ 0 := by
      intro h
      have := congrArg (BitVec.getLsbD · (c % 64)) h
      simp [hc] at this
    simpa using hne

theorem getLsbD_or_slot (x : BitVec 64) (c i : ℕ) :
    (x ||| (slot c).2).getLsbD (i % 64) = (x.getLsbD (i % 64) || decide (i % 64 = c % 64)) := by
  have hc : c % 64 < 64 := Nat.mod_lt _ (by norm_num)
  simp only [slot, ← BitVec.twoPow_eq, BitVec.getLsbD_or, BitVec.getLsbD_twoPow, hc, decide_true,
    Bool.true_and, eq_comm (a := c % 64)]

theorem clear_apply (m : ℕ → BitVec 64) (cur n x : ℕ) :
    clear m cur n x = if ∃ i < n, x = (cur + (i + 1)) % BITMAP_WORDS then 0 else m x := by
  induction n with
  | zero => simp [clear]
  | succ n ih =>
    simp only [clear, List.range_succ, List.foldl_append, List.foldl_cons, List.foldl_nil] at ih ⊢
    by_cases hx : x = (cur + (n + 1)) % BITMAP_WORDS
    · rw [hx, Function.update_self, if_pos ⟨n, Nat.lt_succ_self n, rfl⟩]
    · rw [Function.update_of_ne hx, ih]
      have hiff : (∃ i < n, x = (cur + (i + 1)) % BITMAP_WORDS) ↔
          ∃ i < n + 1, x = (cur + (i + 1)) % BITMAP_WORDS := by
        constructor
        · rintro ⟨i, hi, he⟩
          exact ⟨i, by omega, he⟩
        · rintro ⟨i, hi, he⟩
          rcases Nat.lt_succ_iff_lt_or_eq.mp hi with h | h
          · exact ⟨i, h, he⟩
          · exact absurd (h ▸ he) hx
      simp only [hiff]

variable {w : SlidingWindow} {acc : Set ℕ} {counter : ℕ}

theorem bitmapWords_eq : BITMAP_WORDS = 128 := rfl

def advance (w : SlidingWindow) (counter : ℕ) : SlidingWindow :=
  if counter + 1 > w.next then
    ⟨clear w.bitmap w.top (min (counter / 64 - w.top) BITMAP_WORDS), counter + 1⟩
  else w

theorem tooOldOrInvalid_eq_false : w.tooOldOrInvalid counter = false ↔
    counter < REJECT_AFTER_MESSAGES ∧ w.next ≤ counter + 1 + WINDOW := by
  simp only [tooOldOrInvalid, Bool.or_eq_false_iff, decide_eq_false_iff_not, not_le, not_lt]

theorem checkReplay_eq (h : w.tooOldOrInvalid counter = false) : w.checkReplay counter =
    ((w.advance counter).record counter,
      ((w.advance counter).bitmap (counter / 64 % BITMAP_WORDS)).getLsbD (counter % 64)) := by
  simp only [checkReplay, h, Bool.false_eq_true, if_false, and_slot_ne_zero]
  rfl

theorem next_advance : (w.advance counter).next = max w.next (counter + 1) := by
  unfold advance
  split
  · next h => rw [max_eq_right (Nat.le_of_lt h)]
  · next h => rw [max_eq_left (Nat.le_of_not_lt h)]

theorem live_advance (h : w.tooOldOrInvalid counter = false) : (w.advance counter).Live counter := by
  have hin := (tooOldOrInvalid_eq_false.mp h).2
  simp only [Live, top, next_advance, bitmapWords_eq]
  unfold WINDOW WINDOW_SIZE at hin
  omega

/-- Moving the window forgets nothing that it still holds. -/
theorem Tracks.advance (h : Tracks w acc) (counter : ℕ) : Tracks (w.advance counter) acc := by
  unfold SlidingWindow.advance
  split
  case isFalse => exact h
  next hc =>
  have htop : w.top ≤ counter / 64 := by
    unfold top
    omega
  refine ⟨fun c hcacc => (h.lt_next c hcacc).trans hc, ?_⟩
  intro c hlive
  simp only [Live, top, Nat.add_sub_cancel, bitmapWords_eq] at hlive
  dsimp only
  rw [clear_apply]
  by_cases hold : c / 64 ≤ w.top
  · -- a word held before: the words cleared are others
    rw [if_neg]
    · exact h.bit c ⟨hold, by rw [bitmapWords_eq]; omega⟩
    · rintro ⟨i, hi, he⟩
      rw [bitmapWords_eq] at hi he
      omega
  · -- a word new to the ring: cleared, and nothing of it was accepted
    rw [if_pos]
    · have hnot : c ∉ acc := by
        intro hcacc
        have := h.lt_next c hcacc
        simp only [top] at hold
        omega
      simpa using hnot
    · rw [bitmapWords_eq]
      exact ⟨(c / 64 - w.top - 1) % 128, by omega, by omega⟩

/-- Recording a counter whose word the ring holds. -/
theorem Tracks.record (h : Tracks w acc) (hlive : w.Live counter) (hc : counter < w.next) :
    Tracks (w.record counter) (insert counter acc) := by
  refine ⟨?_, ?_⟩
  · intro c hcm
    rcases Set.mem_insert_iff.mp hcm with rfl | hcm
    · exact hc
    · exact h.lt_next c hcm
  · intro c hcl
    have hbit := h.bit c hcl
    simp only [Live, top, bitmapWords_eq, SlidingWindow.record] at hlive hcl
    by_cases hw : c / 64 % BITMAP_WORDS = (slot counter).1
    · rw [hw] at hbit
      have hsame : c % 64 = counter % 64 ↔ c = counter := by
        simp only [slot, bitmapWords_eq] at hw
        omega
      simp only [SlidingWindow.record, hw, Function.update_self, getLsbD_or_slot, Set.mem_insert_iff,
        Bool.or_eq_true, decide_eq_true_eq, hsame, hbit]
      exact or_comm
    · have hne : c ≠ counter := fun he => hw (he ▸ rfl)
      simp only [SlidingWindow.record, Function.update_of_ne hw, hbit, Set.mem_insert_iff, hne, false_or]

theorem Tracks.checkReplay_snd (h : Tracks w acc) (hold : w.tooOldOrInvalid counter = false) :
    (w.checkReplay counter).2 = true ↔ counter ∈ acc := by
  rw [checkReplay_eq hold]
  exact (h.advance counter).bit counter (live_advance hold)

theorem Tracks.checkReplay_fst (h : Tracks w acc) (hold : w.tooOldOrInvalid counter = false) :
    Tracks (w.checkReplay counter).1 (insert counter acc) := by
  rw [checkReplay_eq hold]
  refine (h.advance counter).record (live_advance hold) ?_
  rw [next_advance]
  omega

theorem checkReplay_of_tooOld (h : w.tooOldOrInvalid counter = true) : w.checkReplay counter = (w, true) := by
  rw [SlidingWindow.checkReplay, if_pos h]

/-- A counter that is let through is within the limit and was not accepted before, and is from then
on. -/
theorem Tracks.checkReplay (h : Tracks w acc) :
    ((w.checkReplay counter).2 = false → counter < REJECT_AFTER_MESSAGES ∧ counter ∉ acc ∧
      Tracks (w.checkReplay counter).1 (insert counter acc)) ∧
    ((w.checkReplay counter).2 = true → Tracks (w.checkReplay counter).1 acc) := by
  cases hold : w.tooOldOrInvalid counter with
  | true =>
    rw [checkReplay_of_tooOld hold]
    exact ⟨fun hs => absurd hs Bool.true_eq_false_eq_False, fun _ => h⟩
  | false =>
    refine ⟨fun hs => ⟨(tooOldOrInvalid_eq_false.mp hold).1, fun hmem => ?_, h.checkReplay_fst hold⟩, fun hs => ?_⟩
    · rw [(h.checkReplay_snd hold).mpr hmem] at hs
      cases hs
    · rw [← Set.insert_eq_of_mem ((h.checkReplay_snd hold).mp hs)]
      exact h.checkReplay_fst hold

/-! ## Every counter that may be accepted is -/

/-- The window also knows the highest counter accepted. -/
structure Exact (w : SlidingWindow) (acc : Set ℕ) : Prop extends Tracks w acc where
  highest : 0 < w.next → w.next - 1 ∈ acc

theorem exact_new : Exact new ∅ := { tracks_new with highest := fun h => absurd h (lt_irrefl 0) }

theorem Exact.next_le_iff (h : Exact w acc) {n : ℕ} : w.next ≤ n + 1 ↔ ∀ m ∈ acc, m ≤ n := by
  constructor
  · intro hn m hm
    have := h.lt_next m hm
    omega
  · intro hall
    by_cases hpos : 0 < w.next
    · have := hall _ (h.highest hpos)
      omega
    · omega

theorem Exact.tooOldOrInvalid_iff (h : Exact w acc) : w.tooOldOrInvalid counter = false ↔
    counter < REJECT_AFTER_MESSAGES ∧ ∀ m ∈ acc, m ≤ counter + WINDOW := by
  rw [tooOldOrInvalid_eq_false, show counter + 1 + WINDOW = counter + WINDOW + 1 by omega, h.next_le_iff]

theorem Exact.accepts_iff (h : Exact w acc) : (w.checkReplay counter).2 = false ↔
    counter < REJECT_AFTER_MESSAGES ∧ counter ∉ acc ∧ ∀ m ∈ acc, m ≤ counter + WINDOW := by
  cases hold : w.tooOldOrInvalid counter with
  | true =>
    rw [checkReplay_of_tooOld hold]
    have hnot := mt h.tooOldOrInvalid_iff.mpr (by rw [hold]; decide)
    refine ⟨fun hs => absurd hs Bool.true_eq_false_eq_False, fun hc => absurd ⟨hc.1, hc.2.2⟩ hnot⟩
  | false =>
    obtain ⟨hlim, hwin⟩ := h.tooOldOrInvalid_iff.mp hold
    rw [← Bool.not_eq_true, h.checkReplay_snd hold]
    exact ⟨fun hnew => ⟨hlim, hnew, hwin⟩, fun hc => hc.2.1⟩

theorem Exact.checkReplay (h : Exact w acc) :
    Exact (w.checkReplay counter).1 (if (w.checkReplay counter).2 then acc else insert counter acc) := by
  have hnext : w.tooOldOrInvalid counter = false → (w.checkReplay counter).1.next =
    max w.next (counter + 1) := fun hold => by
    rw [checkReplay_eq hold]
    exact next_advance
  cases hs : (w.checkReplay counter).2 with
  | true =>
    refine ⟨h.toTracks.checkReplay.2 hs, fun hpos => ?_⟩
    simp only [if_true]
    cases hold : w.tooOldOrInvalid counter with
    | true =>
      rw [checkReplay_of_tooOld hold] at hpos ⊢
      exact h.highest hpos
    | false =>
      -- a counter seen before does not move the window
      have hmem := h.lt_next counter ((h.checkReplay_snd hold).mp hs)
      rw [hnext hold, max_eq_left (by omega)]
      exact h.highest (by omega)
  | false =>
    have hold := h.tooOldOrInvalid_iff.mpr ⟨(h.accepts_iff.mp hs).1, (h.accepts_iff.mp hs).2.2⟩
    refine ⟨h.checkReplay_fst hold, fun _ => ?_⟩
    simp only [Bool.false_eq_true, if_false, hnext hold]
    rcases le_total w.next (counter + 1) with hle | hle
    · rw [max_eq_right hle]
      exact Set.mem_insert counter acc
    · rw [max_eq_left hle]
      exact Set.mem_insert_of_mem counter (h.highest (by omega))

/-- Asking gives the answer that checking would. -/
theorem Tracks.isReplay_eq (h : Tracks w acc) : w.isReplay counter = (w.checkReplay counter).2 := by
  cases hold : w.tooOldOrInvalid counter with
  | true => rw [checkReplay_of_tooOld hold, isReplay, if_pos hold]
  | false =>
    rw [isReplay, if_neg (by rw [hold]; decide), Bool.eq_iff_iff, h.checkReplay_snd hold]
    simp only [and_slot_ne_zero, Bool.and_eq_true, decide_eq_true_eq]
    constructor
    · rintro ⟨hlt, hbit⟩
      refine (h.bit counter ?_).mp hbit
      have hlive := live_advance hold
      rwa [SlidingWindow.advance, if_neg (by omega)] at hlive
    · intro hmem
      have hlt := h.lt_next counter hmem
      have hlive := live_advance hold
      rw [SlidingWindow.advance, if_neg (by omega)] at hlive
      exact ⟨hlt, (h.bit counter hlive).mpr hmem⟩

/-- The window after some counters, and those of them that were accepted. -/
def run (counters : List ℕ) : SlidingWindow × List ℕ :=
  counters.foldl (fun s c => ((s.1.checkReplay c).1, if (s.1.checkReplay c).2 then s.2 else s.2 ++ [c])) (new, [])

theorem exact_run (counters : List ℕ) : Exact (run counters).1 { c | c ∈ (run counters).2 } := by
  suffices ∀ (w : SlidingWindow) (acc : List ℕ), Exact w { c | c ∈ acc } →
      let s := counters.foldl (fun s c => ((s.1.checkReplay c).1,
        if (s.1.checkReplay c).2 then s.2 else s.2 ++ [c])) (w, acc)
      Exact s.1 { c | c ∈ s.2 } by
    exact this new [] (by simpa using exact_new)
  induction counters with
  | nil => exact fun w acc h => h
  | cons c cs ih =>
    intro w acc h
    refine ih _ _ ?_
    convert (h.checkReplay : Exact (w.checkReplay c).1 _) using 1
    split
    · rfl
    · ext m
      simp [or_comm]

/-- **The replay filter is exact.** -/
theorem checkReplay_exact (counters : List ℕ) (counter : ℕ) :
    (((run counters).1.checkReplay counter).2 = false ↔
      counter < REJECT_AFTER_MESSAGES ∧ counter ∉ (run counters).2 ∧ ∀ m ∈ (run counters).2, m ≤
        counter + WINDOW) ∧
      (run counters).1.isReplay counter = ((run counters).1.checkReplay counter).2 :=
  ⟨(exact_run counters).accepts_iff, (exact_run counters).isReplay_eq⟩

/-- A counter `WINDOW_SIZE` below the highest accepted is refused. -/
theorem window_size_below_refused :
    (run [WINDOW_SIZE]).2 = [WINDOW_SIZE] ∧ 0 < REJECT_AFTER_MESSAGES ∧ 0 ∉ (run [WINDOW_SIZE]).2 ∧
      (∀ m ∈ (run [WINDOW_SIZE]).2, m ≤ 0 + WINDOW_SIZE) ∧ ((run [WINDOW_SIZE]).1.checkReplay 0).2 = true := by
  decide +kernel

end SlidingWindow

end PktKit.Wg
