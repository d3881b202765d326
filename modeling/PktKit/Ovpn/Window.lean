import PktKit.Foundations.Words

/-! # The replay window

A ring of 64-bit words that starts at the block of the first packet id and is moved up, whole blocks
at a time, as higher ids arrive. It stands for the set of ids accepted.
-/

namespace PktKit.Ovpn
open Foundations

@[irreducible] def REPLAY_WINDOW_SIZE : ℕ := 2048
def WORDS : ℕ := REPLAY_WINDOW_SIZE / 64

structure Window where
  bitmap : ℕ → BitVec 64 := fun _ => 0
  /-- the id at the start of the bitmap -/
  position : ℕ := 0
  /-- the word the bitmap starts at -/
  offset : ℕ := 0
  init : Bool := false

namespace Window

/-- The window with the first id in its first word. -/
def start (w : Window) (counter : ℕ) : Window :=
  if w.init then w
  else { bitmap := fun _ => 0, position := counter - counter % 64, offset := 0, init := true }

/-- How far the window moves to take in an id past it. -/
def shift (w : Window) (counter : ℕ) : ℕ :=
  let diff := counter - (w.position + REPLAY_WINDOW_SIZE) + 1
  let n := diff % 64
  if n ≠ 0 then diff + (64 - n) else diff

/-- Clear the last `n` words of a ring that starts at `offset`. -/
def clear (bitmap : ℕ → BitVec 64) (offset n : ℕ) : ℕ → BitVec 64 :=
  (List.range n).foldl (fun m i => Function.update m ((offset + WORDS - 1 - i) % WORDS) 0) bitmap

def advance (w : Window) (counter : ℕ) : Window :=
  let diff := w.shift counter
  let w := { w with position := w.position + diff }
  if REPLAY_WINDOW_SIZE ≤ diff then { w with bitmap := fun _ => 0, offset := 0 }
  else
    let wordShift := diff / 64
    let newOffset := (w.offset + wordShift) % WORDS
    { w with bitmap := clear w.bitmap newOffset wordShift, offset := newOffset }

def wordIndex (w : Window) (counter : ℕ) : ℕ := (w.offset + (counter - w.position) / 64) % WORDS

def mask (w : Window) (counter : ℕ) : BitVec 64 := bit 64 ((counter - w.position) % 64)

def record (w : Window) (counter : ℕ) : Window :=
  let word := w.wordIndex counter
  { w with bitmap := Function.update w.bitmap word (w.bitmap word ||| w.mask counter) }

def check (w : Window) (id : BitVec 32) : Window × Bool :=
  if id = 0 then (w, false)
  else
    let counter := id.toNat
    let w := w.start counter
    if counter < w.position then (w, false)
    else if w.position + REPLAY_WINDOW_SIZE ≤ counter then ((w.advance counter).record counter, true)
    else if (w.bitmap (w.wordIndex counter) &&& w.mask counter) != 0 then (w, false)
    else (w.record counter, true)

/-! ## The set of ids a window stands for -/

/-- A window that began at `base` and has accepted the ids `acc`. -/
structure Tracks (w : Window) (base : ℕ) (acc : Set ℕ) : Prop where
  init : w.init = true
  aligned : w.position % 64 = 0
  base_le : base ≤ w.position
  /-- the window moves no further than an id accepted needs -/
  moved : w.position = base ∨ ∃ c ∈ acc, w.position + 1984 ≤ c
  lt_stop : ∀ c ∈ acc, c < w.position + REPLAY_WINDOW_SIZE
  seen : ∀ c, w.position ≤ c → c < w.position + REPLAY_WINDOW_SIZE →
    ((w.bitmap (w.wordIndex c)).getLsbD (c % 64) = true ↔ c ∈ acc)

variable {w : Window} {base c n x : ℕ} {acc : Set ℕ}

theorem size_eq : REPLAY_WINDOW_SIZE = 2048 := by unfold REPLAY_WINDOW_SIZE; rfl

theorem words_eq : WORDS = 32 := by rw [WORDS, size_eq]

theorem mask_eq (h : w.position % 64 = 0) (hc : w.position ≤ c) : w.mask c = bit 64 (c % 64) := by
  rw [mask, show (c - w.position) % 64 = c % 64 by omega]

theorem and_mask_ne_zero (h : w.position % 64 = 0) (hc : w.position ≤ c) (x : BitVec 64) :
    ((x &&& w.mask c) != 0) = x.getLsbD (c % 64) := by
  rw [mask_eq h hc, and_bit_ne_zero x (Nat.mod_lt c (by norm_num))]

theorem clear_apply (m : ℕ → BitVec 64) (offset n x : ℕ) :
    clear m offset n x = if ∃ i < n, x = (offset + WORDS - 1 - i) % WORDS then 0 else m x := by
  induction n with
  | zero => simp [clear]
  | succ n ih =>
    simp only [clear, List.range_succ, List.foldl_append, List.foldl_cons, List.foldl_nil] at ih ⊢
    by_cases hx : x = (offset + WORDS - 1 - n) % WORDS
    · rw [hx, Function.update_self, if_pos ⟨n, Nat.lt_succ_self n, rfl⟩]
    · rw [Function.update_of_ne hx, ih]
      have hiff : (∃ i < n, x = (offset + WORDS - 1 - i) % WORDS) ↔
          ∃ i < n + 1, x = (offset + WORDS - 1 - i) % WORDS := by
        constructor
        · rintro ⟨i, hi, he⟩
          exact ⟨i, Nat.lt_succ_of_lt hi, he⟩
        · rintro ⟨i, hi, he⟩
          rcases Nat.lt_succ_iff_lt_or_eq.mp hi with h | h
          · exact ⟨i, h, he⟩
          · exact absurd (h ▸ he) hx
      simp only [hiff]

/-- The window moves by whole blocks, just far enough. -/
theorem shift_spec (hc : w.position + REPLAY_WINDOW_SIZE ≤ c) : w.shift c % 64 = 0 ∧ 0 < w.shift c ∧
    c < w.position + w.shift c + REPLAY_WINDOW_SIZE ∧ w.position + w.shift c + 1984 ≤ c := by
  have hsize := size_eq
  unfold shift
  simp only
  split <;> omega

theorem tracks_start (h : w.init = false) : Tracks (w.start c) (c - c % 64) ∅ where
  init := by simp [start, h]
  aligned := by
    simp only [start, h, Bool.false_eq_true, if_false]
    omega
  base_le := by simp [start, h]
  moved := .inl (by simp [start, h])
  lt_stop := by simp
  seen := by simp [start, h]

theorem start_of_init (h : w.init = true) : w.start c = w := if_pos h

theorem advance_position : (w.advance c).position = w.position + w.shift c := by
  simp only [advance]
  split <;> rfl

theorem advance_init : (w.advance c).init = w.init := by
  simp only [advance]
  split <;> rfl

/-- What the moved window knows of an id: nothing if it was not in the window before. -/
theorem advance_bitmap (hc : w.position + REPLAY_WINDOW_SIZE ≤ c) (hx : w.position + w.shift c ≤ x)
    (hx' : x < w.position + w.shift c + REPLAY_WINDOW_SIZE) :
    (w.advance c).bitmap ((w.advance c).wordIndex x) =
      if x < w.position + REPLAY_WINDOW_SIZE then w.bitmap (w.wordIndex x) else 0 := by
  have hsize := size_eq
  have hwords := words_eq
  obtain ⟨hmul, hpos, -, -⟩ := shift_spec hc
  by_cases hfar : REPLAY_WINDOW_SIZE ≤ w.shift c
  · have hold : ¬x < w.position + REPLAY_WINDOW_SIZE := by omega
    simp only [advance, if_pos hfar, if_neg hold]
  · simp only [advance, if_neg hfar, wordIndex, clear_apply]
    by_cases hold : x < w.position + REPLAY_WINDOW_SIZE
    · -- a word of before: the words cleared lie behind it
      rw [if_neg, if_pos hold]
      · congr 1
        rw [hwords]
        omega
      · rintro ⟨i, hi, he⟩
        rw [hwords] at he
        omega
    · rw [if_neg hold, if_pos]
      refine ⟨31 - (x - (w.position + w.shift c)) / 64, by omega, ?_⟩
      rw [hwords]
      omega

theorem Tracks.not_mem_of_stop_le (h : Tracks w base acc) (hc : w.position + REPLAY_WINDOW_SIZE ≤ c) : c ∉ acc :=
  fun hmem => absurd (h.lt_stop c hmem) (not_lt.mpr hc)

theorem Tracks.record (h : Tracks w base acc) (hc : w.position ≤ c) (hc' : c < w.position + REPLAY_WINDOW_SIZE) :
    Tracks (w.record c) base (insert c acc) where
  init := h.init
  aligned := h.aligned
  base_le := h.base_le
  moved := h.moved.imp id fun ⟨m, hm, hle⟩ => ⟨m, Set.mem_insert_of_mem c hm, hle⟩
  lt_stop := by
    intro m hm
    rcases Set.mem_insert_iff.mp hm with rfl | hm
    · exact hc'
    · exact h.lt_stop m hm
  seen := by
    intro m hm hm'
    change w.position ≤ m at hm
    change m < w.position + REPLAY_WINDOW_SIZE at hm'
    have hseen := h.seen m hm hm'
    have halign := h.aligned
    have hsize := size_eq
    change (Function.update w.bitmap (w.wordIndex c) (w.bitmap (w.wordIndex c) ||| w.mask c)
      (w.wordIndex m)).getLsbD (m % 64) = true ↔ m ∈ insert c acc
    by_cases hword : w.wordIndex m = w.wordIndex c
    · have hsame : c % 64 = m % 64 ↔ m = c := by
        simp only [wordIndex, words_eq] at hword
        omega
      rw [hword, Function.update_self, mask_eq halign hc, getLsbD_or_bit _ (Nat.mod_lt c (by norm_num)),
        Bool.or_eq_true, decide_eq_true_eq, hsame, ← hword, hseen, Set.mem_insert_iff]
      exact or_comm
    · have hne : m ≠ c := fun he => hword (by rw [he])
      rw [Function.update_of_ne hword, hseen, Set.mem_insert_iff]
      exact (or_iff_right hne).symm

/-- A window moved up to an id past it forgets nothing that it still reaches. -/
theorem Tracks.advance (h : Tracks w base acc) (hc : w.position + REPLAY_WINDOW_SIZE ≤ c) :
    Tracks (w.advance c) (w.advance c).position acc where
  init := advance_init.trans h.init
  aligned := by
    have hmul := (shift_spec hc).1
    have halign := h.aligned
    rw [advance_position]
    omega
  base_le := le_rfl
  moved := .inl rfl
  lt_stop := by
    intro m hm
    have hlt := h.lt_stop m hm
    rw [advance_position]
    omega
  seen := by
    intro m hm hm'
    rw [advance_position] at hm hm'
    rw [advance_bitmap hc hm hm']
    by_cases hold : m < w.position + REPLAY_WINDOW_SIZE
    · rw [if_pos hold]
      exact h.seen m (by omega) hold
    · rw [if_neg hold]
      have hnot := h.not_mem_of_stop_le (not_lt.mp hold)
      simpa using hnot

theorem Tracks.record_advance (h : Tracks w base acc) (hc : w.position + REPLAY_WINDOW_SIZE ≤ c) :
    Tracks ((w.advance c).record c) base (insert c acc) := by
  obtain ⟨-, -, hlt, hle⟩ := shift_spec hc
  have hrec := (h.advance hc).record (c := c) (by rw [advance_position]; omega)
    (by rw [advance_position]; exact hlt)
  refine { hrec with base_le := ?_, moved := .inr ⟨c, Set.mem_insert c acc, ?_⟩ }
  · change base ≤ (w.advance c).position
    rw [advance_position]
    exact h.base_le.trans (Nat.le_add_right _ _)
  · change (w.advance c).position + 1984 ≤ c
    rwa [advance_position]

/-- What a window that has begun accepts, exactly. -/
theorem Tracks.check {id : BitVec 32} (h : Tracks w base acc) (hid : id ≠ 0) :
    ((w.check id).2 = true ↔ w.position ≤ id.toNat ∧ id.toNat ∉ acc) ∧
      Tracks (w.check id).1 base (if (w.check id).2 then insert id.toNat acc else acc) := by
  unfold Window.check
  simp only [if_neg hid, start_of_init h.init]
  by_cases hold : id.toNat < w.position
  · rw [if_pos hold]
    exact ⟨by simp [hold], h⟩
  rw [if_neg hold]
  by_cases hpast : w.position + REPLAY_WINDOW_SIZE ≤ id.toNat
  · rw [if_pos hpast]
    exact ⟨by simp [not_lt.mp hold, h.not_mem_of_stop_le hpast], h.record_advance hpast⟩
  rw [if_neg hpast, and_mask_ne_zero h.aligned (not_lt.mp hold)]
  have hseen := h.seen id.toNat (not_lt.mp hold) (not_le.mp hpast)
  by_cases hmem : id.toNat ∈ acc
  · rw [if_pos (hseen.mpr hmem)]
    exact ⟨by simp [hmem], h⟩
  · rw [if_neg (mt hseen.mp hmem)]
    exact ⟨by simp [not_lt.mp hold, hmem], h.record (not_lt.mp hold) (not_le.mp hpast)⟩

theorem Tracks.check_position {id : BitVec 32} (h : Tracks w base acc) (hid : id ≠ 0) :
    w.position ≤ (w.check id).1.position ∧ id.toNat < (w.check id).1.position + REPLAY_WINDOW_SIZE := by
  unfold Window.check
  simp only [if_neg hid, start_of_init h.init]
  by_cases hold : id.toNat < w.position
  · rw [if_pos hold]
    exact ⟨le_rfl, hold.trans_le (Nat.le_add_right _ _)⟩
  rw [if_neg hold]
  by_cases hpast : w.position + REPLAY_WINDOW_SIZE ≤ id.toNat
  · rw [if_pos hpast]
    change w.position ≤ (w.advance id.toNat).position ∧ id.toNat < (w.advance id.toNat).position + _
    rw [advance_position]
    exact ⟨Nat.le_add_right _ _, (shift_spec hpast).2.2.1⟩
  rw [if_neg hpast]
  split <;> exact ⟨le_rfl, not_le.mp hpast⟩

theorem check_start {id : BitVec 32} (hid : id ≠ 0) (h : w.init = false) :
    w.check id = (w.start id.toNat).check id := by
  have hinit := (tracks_start (c := id.toNat) h).init
  simp only [check, if_neg hid, start_of_init hinit]

/-- A window reaches down to what lies in or after its first block and is not far behind. -/
theorem Tracks.position_le (h : Tracks w base acc) (hbase : base ≤ c) (hhigh : ∀ m ∈ acc, m ≤ c + 1984) :
    w.position ≤ c := by
  rcases h.moved with heq | ⟨m, hm, hle⟩
  · exact heq ▸ hbase
  · have := hhigh m hm
    omega

/-! ## Sequences of ids -/

/-- The window after some ids, and those of them that were accepted. -/
def run (ids : List (BitVec 32)) : Window × List (BitVec 32) :=
  ids.foldl (fun s id => ((s.1.check id).1, if (s.1.check id).2 then s.2 ++ [id] else s.2)) ({}, [])

def accepted (ids : List (BitVec 32)) : List (BitVec 32) := (run ids).2

/-- Whether an id is accepted after some others. -/
def accepts (ids : List (BitVec 32)) (id : BitVec 32) : Bool := ((run ids).1.check id).2

def block (id : BitVec 32) : ℕ := id.toNat - id.toNat % 64

def numbers (ids : List (BitVec 32)) : Set ℕ := { c | ∃ id ∈ ids, id.toNat = c }

theorem mem_numbers {ids : List (BitVec 32)} {id : BitVec 32} : id.toNat ∈ numbers ids ↔ id ∈ ids := by
  constructor
  · rintro ⟨x, hx, he⟩
    exact BitVec.eq_of_toNat_eq he ▸ hx
  · exact fun h => ⟨id, h, rfl⟩

theorem numbers_concat {ids : List (BitVec 32)} {id : BitVec 32} :
    numbers (ids ++ [id]) = insert id.toNat (numbers ids) := by
  ext c
  simp only [numbers, List.mem_append, List.mem_singleton, Set.mem_ofPred_eq, Set.mem_insert_iff]
  constructor
  · rintro ⟨x, hx | rfl, rfl⟩
    · exact .inr ⟨x, hx, rfl⟩
    · exact .inl rfl
  · rintro (rfl | ⟨x, hx, rfl⟩)
    · exact ⟨id, .inr rfl, rfl⟩
    · exact ⟨x, .inl hx, rfl⟩

/-- The state after the ids `ids`, of which `acc` were accepted: nothing has come but 0, or the window
began with the first of `acc`. -/
structure Knows (ids : List (BitVec 32)) (w : Window) (acc : List (BitVec 32)) : Prop where
  nodup : acc.Nodup
  zero : 0 ∉ acc
  idle : acc = [] → w.init = false ∧ ∀ id ∈ ids, id = 0
  begun : ∀ first ∈ acc.head?, Tracks w (block first) (numbers acc)
  given : acc ≠ [] → ∀ id ∈ ids, id.toNat < w.position + REPLAY_WINDOW_SIZE

theorem run_concat (ids : List (BitVec 32)) (id : BitVec 32) : run (ids ++ [id]) =
    (((run ids).1.check id).1, if accepts ids id then accepted ids ++ [id] else accepted ids) := by
  rw [run, List.foldl_append]
  rfl

theorem accepted_concat (ids : List (BitVec 32)) (id : BitVec 32) :
    accepted (ids ++ [id]) = if accepts ids id then accepted ids ++ [id] else accepted ids := by
  rw [accepted, run_concat]

variable {ids acc : List (BitVec 32)} {id : BitVec 32}

theorem zero_lt_stop : (0 : BitVec 32).toNat < w.position + REPLAY_WINDOW_SIZE := by
  rw [size_eq]
  exact Nat.succ_pos _

theorem Knows.check_first (h : Knows ids w []) (hid : id ≠ 0) :
    (w.check id).2 = true ∧ Knows (ids ++ [id]) (w.check id).1 [id] := by
  obtain ⟨hinit, hzero⟩ := h.idle rfl
  have hstart := tracks_start (c := id.toNat) hinit
  have hpos : (w.start id.toNat).position = block id := by simp [start, hinit, block]
  obtain ⟨hiff, htracks⟩ := hstart.check hid
  have hmoves := (hstart.check_position hid).2
  rw [← check_start hid hinit] at hiff htracks hmoves
  have hok : (w.check id).2 = true := hiff.mpr ⟨by rw [hpos]; exact Nat.sub_le _ _, Set.notMem_empty _⟩
  refine ⟨hok, List.nodup_singleton id, by simpa using Ne.symm hid, by simp, ?_, ?_⟩
  · intro first hfirst
    obtain rfl : id = first := by simpa using hfirst
    rw [if_pos hok] at htracks
    simpa [numbers, block] using htracks
  · intro _ x hx
    rcases List.mem_append.mp hx with hx | hx
    · rw [hzero x hx]
      exact zero_lt_stop
    · rwa [List.mem_singleton.mp hx]

/-- Every further id is accepted exactly if the window reaches down to it and it is new. -/
theorem Knows.check_next {first : BitVec 32} (h : Knows ids w (first :: acc)) (hid : id ≠ 0) :
    ((w.check id).2 = true ↔ w.position ≤ id.toNat ∧ id ∉ first :: acc) ∧
      Knows (ids ++ [id]) (w.check id).1 (if (w.check id).2 then first :: acc ++ [id] else first :: acc) := by
  have hbegun := h.begun first rfl
  obtain ⟨hiff, htracks⟩ := hbegun.check hid
  rw [mem_numbers] at hiff
  obtain ⟨hup, hreach⟩ := hbegun.check_position hid
  have hgiven : ∀ x ∈ ids ++ [id], x.toNat < (w.check id).1.position + REPLAY_WINDOW_SIZE := by
    intro x hx
    rcases List.mem_append.mp hx with hx | hx
    · have hlt := h.given (List.cons_ne_nil _ _) x hx
      omega
    · rwa [List.mem_singleton.mp hx]
  refine ⟨hiff, ?_⟩
  cases hok : (w.check id).2 with
  | false =>
    rw [hok] at htracks
    exact
      { nodup := h.nodup
        zero := h.zero
        idle := fun hnil => absurd hnil (List.cons_ne_nil _ _)
        begun := fun x hx => (Option.some.inj hx : first = x) ▸ htracks
        given := fun _ => hgiven }
  | true =>
    rw [if_pos hok, ← numbers_concat] at htracks
    have hnew := (hiff.mp hok).2
    exact
      { nodup := List.concat_eq_append ▸ h.nodup.concat hnew
        zero := fun hmem => (List.mem_append.mp hmem).elim h.zero fun hlast =>
          hid (List.mem_singleton.mp hlast).symm
        idle := fun hnil => absurd hnil (List.cons_ne_nil _ _)
        begun := fun x hx => (Option.some.inj hx : first = x) ▸ htracks
        given := fun _ => hgiven }

theorem check_zero : w.check 0 = (w, false) := rfl

theorem Knows.check (h : Knows ids w acc) (id : BitVec 32) :
    Knows (ids ++ [id]) (w.check id).1 (if (w.check id).2 then acc ++ [id] else acc) := by
  by_cases hid : id = 0
  · subst hid
    rw [check_zero]
    refine ⟨h.nodup, h.zero, ?_, h.begun, ?_⟩
    · intro hnil
      refine ⟨(h.idle hnil).1, fun x hx => ?_⟩
      rcases List.mem_append.mp hx with hx | hx
      · exact (h.idle hnil).2 x hx
      · exact List.mem_singleton.mp hx
    · intro hne x hx
      rcases List.mem_append.mp hx with hx | hx
      · exact h.given hne x hx
      · rw [List.mem_singleton.mp hx]
        exact zero_lt_stop
  · cases acc with
    | nil =>
      obtain ⟨hok, hknows⟩ := h.check_first hid
      rwa [hok]
    | cons first acc => exact (h.check_next hid).2

theorem knows_run (ids : List (BitVec 32)) : Knows ids (run ids).1 (accepted ids) := by
  induction ids using List.reverseRecOn with
  | nil => exact ⟨List.nodup_nil, List.not_mem_nil, fun _ => ⟨rfl, by simp⟩, by simp [accepted, run], by simp⟩
  | append_singleton ids id ih =>
    have hstep := ih.check id
    rw [accepted_concat, run_concat]
    exact hstep

theorem accepts_iff {first : BitVec 32} (hfirst : first ∈ (accepted ids).head?) :
    accepts ids id = true ↔ id ≠ 0 ∧ (run ids).1.position ≤ id.toNat ∧ id ∉ accepted ids := by
  have hknows := knows_run ids
  obtain ⟨acc, hacc⟩ : ∃ acc, accepted ids = first :: acc := List.head?_eq_some_iff.mp hfirst
  rw [hacc] at hknows ⊢
  by_cases hid : id = 0
  · subst hid
    simp [accepts, show (run ids).1.check 0#32 = ((run ids).1, false) from check_zero]
  · rw [accepts, (hknows.check_next hid).1]
    exact (and_iff_right hid).symm

/-- Until an id but 0 has come, every other is accepted. -/
theorem accepts_of_idle (hnil : accepted ids = []) (hid : id ≠ 0) : accepts ids id = true := by
  have hknows := knows_run ids
  rw [hnil] at hknows
  exact (hknows.check_first hid).1

theorem accepts_fresh (hid : id ≠ 0) (hfresh : id ∉ accepted ids)
    (hhigh : ∀ m ∈ accepted ids, m.toNat ≤ id.toNat + 1984)
    (hbase : ∀ first ∈ (accepted ids).head?, block first ≤ id.toNat) : accepts ids id = true := by
  cases hacc : (accepted ids).head? with
  | none => exact accepts_of_idle (List.head?_eq_none_iff.mp hacc) hid
  | some first =>
    have htracks := (knows_run ids).begun first hacc
    refine (accepts_iff hacc).mpr ⟨hid, htracks.position_le (hbase first hacc) ?_, hfresh⟩
    rintro c ⟨m, hm, rfl⟩
    exact hhigh m hm

theorem accepted_subset (ids : List (BitVec 32)) : accepted ids ⊆ ids := by
  induction ids using List.reverseRecOn with
  | nil => exact List.nil_subset _
  | append_singleton ids id ih =>
    intro x hx
    rw [accepted_concat] at hx
    rw [List.mem_append]
    split at hx
    · exact (List.mem_append.mp hx).imp_left fun h => ih h
    · exact .inl (ih hx)

/-- The id the window began with stays the first. -/
theorem head_accepted_append {first : BitVec 32} (hfirst : first ∈ (accepted ids).head?)
    (post : List (BitVec 32)) :
    first ∈ (accepted (ids ++ post)).head? := by
  induction post using List.reverseRecOn with
  | nil => simpa using hfirst
  | append_singleton post id ih =>
    rw [← List.append_assoc, accepted_concat]
    split
    · rw [List.head?_append, Option.mem_def.mp ih]
      rfl
    · exact ih

/-- One id accepted more keeps no window from reaching down to a higher one. -/
theorem position_le_insert {a : BitVec 32} {post : List (BitVec 32)} (ha : accepts ids a = true) (hlt : a < id)
    (hid : accepts (ids ++ post) id = true) : (run (ids ++ a :: post)).1.position ≤ id.toNat := by
  have hlt' : a.toNat < id.toNat := hlt
  -- the window with `a` began at `a`, or where it began without
  obtain ⟨first, hfirst, hbase⟩ : ∃ first ∈ (accepted (ids ++ a :: post)).head?, block first ≤ id.toNat := by
    have hadd : ids ++ a :: post = ids ++ [a] ++ post := by simp
    rw [hadd]
    cases hacc : (accepted ids).head? with
    | none =>
      refine ⟨a, head_accepted_append ?_ post, ?_⟩
      · rw [accepted_concat, if_pos ha, List.head?_eq_none_iff.mp hacc]
        rfl
      · unfold block
        omega
    | some first =>
      refine ⟨first, head_accepted_append (head_accepted_append hacc [a]) post, ?_⟩
      have hwithout := head_accepted_append hacc post
      exact ((knows_run _).begun first hwithout).base_le.trans ((accepts_iff hwithout).mp hid).2.1
  have hwith := (knows_run (ids ++ a :: post)).begun first hfirst
  rcases hwith.moved with heq | ⟨c, ⟨x, hx, rfl⟩, hle⟩
  · exact heq ▸ hbase
  · -- the id that moved the window came in the other run too
    have hgiven : x = a ∨ x ∈ ids ++ post := by
      have hmem := accepted_subset _ hx
      simp only [List.mem_append, List.mem_cons] at hmem ⊢
      tauto
    rcases hgiven with rfl | hgiven
    · omega
    · have hwithout := knows_run (ids ++ post)
      cases hacc : (accepted (ids ++ post)).head? with
      | none =>
        have hzero := (hwithout.idle (List.head?_eq_none_iff.mp hacc)).2 x hgiven
        subst hzero
        exact absurd hx (knows_run _).zero
      | some other =>
        have htracks := hwithout.begun other hacc
        have hreach := hwithout.given (fun hnil => by simp [hnil] at hacc) x hgiven
        have hpos := ((accepts_iff hacc).mp hid).2.1
        have haligned := htracks.aligned
        have haligned' := hwith.aligned
        rw [size_eq] at hreach
        omega

/-- An id accepted makes no higher fresh one be refused later. -/
theorem accepts_insert {a : BitVec 32} {post : List (BitVec 32)} (ha : accepts ids a = true) (hlt : a < id)
    (hfresh : id ∉ accepted (ids ++ a :: post)) (hid : accepts (ids ++ post) id = true) :
    accepts (ids ++ a :: post) id = true := by
  have hne : id ≠ 0 := by
    rintro rfl
    exact absurd hlt BitVec.not_lt_zero
  cases hacc : (accepted (ids ++ a :: post)).head? with
  | none => exact accepts_of_idle (List.head?_eq_none_iff.mp hacc) hne
  | some first => exact (accepts_iff hacc).mpr ⟨hne, position_le_insert ha hlt hid, hfresh⟩

/-- An id above one that is accepted would be accepted too, if it is fresh. -/
theorem accepts_of_lt {a : BitVec 32} (ha : accepts ids a = true) (hlt : a < id) (hfresh : id ∉ accepted ids) :
    accepts ids id = true := by
  have hne : id ≠ 0 := by
    rintro rfl
    exact absurd hlt BitVec.not_lt_zero
  cases hacc : (accepted ids).head? with
  | none => exact accepts_of_idle (List.head?_eq_none_iff.mp hacc) hne
  | some first =>
    obtain ⟨-, hpos, -⟩ := (accepts_iff hacc).mp ha
    exact (accepts_iff hacc).mpr ⟨hne, hpos.trans (le_of_lt hlt), hfresh⟩

/-- **Each id is accepted at most once, and no fresh one is lost.** -/
theorem check_exactly_once (ids : List (BitVec 32)) :
    (accepted ids).Nodup ∧ 0 ∉ accepted ids ∧
      (∀ id, id ≠ 0 → id ∉ accepted ids → (∀ m ∈ accepted ids, m.toNat - 1984 ≤ id.toNat) →
        (∀ first ∈ (accepted ids).head?, block first ≤ id.toNat) → accepts ids id = true) ∧
      (∀ a id, accepts ids a = true → a < id → id ∉ accepted ids → accepts (ids ++ [a]) id = true) ∧
      ∀ a post id, accepts ids a = true → a < id → id ∉ accepted (ids ++ a :: post) →
        accepts (ids ++ post) id = true → accepts (ids ++ a :: post) id = true := by
  have hknows := knows_run ids
  refine ⟨hknows.nodup, hknows.zero, ?_, ?_, fun a post id => accepts_insert⟩
  · intro id hid hfresh hhigh hbase
    exact accepts_fresh hid hfresh (fun m hm => Nat.sub_le_iff_le_add.mp (hhigh m hm)) hbase
  · intro a id ha hlt hfresh
    have hnext : id ∉ accepted (ids ++ a :: []) := by
      rw [accepted_concat, if_pos ha, List.mem_append, List.mem_singleton]
      rintro (hmem | rfl)
      · exact hfresh hmem
      · exact absurd hlt (BitVec.lt_irrefl _)
    exact accepts_insert ha hlt hnext (by simpa using accepts_of_lt ha hlt hfresh)

/-- An id 1985 below the highest can lie before the window. -/
example : accepts [1, 2112] 128 = true ∧ accepts [1, 2112] 127 = false := by decide +kernel

end Window

end PktKit.Ovpn
