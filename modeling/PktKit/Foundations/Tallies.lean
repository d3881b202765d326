import PktKit.Foundations.Tables

/-! # Tallies

How often a table's entries take a value, and 32-bit counters kept in step with it: a counter that
falls to zero is dropped.
-/

namespace PktKit.Foundations

variable {κ ν α : Type*} [DecidableEq α]

namespace Table

/-- How many entries take a value. -/
def tally (t : Table κ ν) (f : ν → Option α) (a : α) : ℕ := t.entries.countP fun e => f e.2 = some a

variable {t : Table κ ν} {f : ν → Option α} {a : α} {k : κ} {v : ν}

theorem tally_le : t.tally f a ≤ t.entries.length := List.countP_le_length

theorem tally_retain {p : κ → ν → Bool} :
    t.tally f a = (t.retain p).tally f a + (t.entries.filter fun e => !p e.1 e.2).countP fun e =>
      f e.2 = some a := by
  simp only [tally, retain]
  exact List.countP_eq_countP_filter_add _ _ _

variable [DecidableEq κ]

theorem tally_insert : tally (t.insert k v) f a = tally (t.erase k) f a + if f v = some a then 1 else 0 := by
  simp only [tally, AList.insert, List.kinsert, List.countP_cons, decide_eq_true_eq]
  rfl

theorem tally_erase (h : t.lookup k = some v) :
    t.tally f a = tally (t.erase k) f a + if f v = some a then 1 else 0 := by
  obtain ⟨l₁, l₂, hl, herase⟩ := entries_erase h
  simp only [tally, herase, hl, List.countP_append, List.countP_cons, decide_eq_true_eq]
  omega

theorem tally_erase_of_none (h : t.lookup k = none) : tally (t.erase k) f a = t.tally f a := by
  have hk : k ∉ t.entries.keys := AList.lookup_eq_none.mp h
  simp only [tally, AList.erase, List.kerase_of_notMem_keys hk]

end Table

/-! ## Counters -/

namespace Counters

def bump (c : Table α ℕ) (a : α) : Table α ℕ := c.insert a (((c.lookup a).getD 0 + 1) % 2 ^ 32)

def drop (c : Table α ℕ) (a : α) : Table α ℕ :=
  match c.lookup a with
  | none => c
  | some n => if (n + (2 ^ 32 - 1)) % 2 ^ 32 = 0 then c.erase a else c.insert a ((n + (2 ^ 32 - 1)) % 2 ^ 32)

def Hold (c : Table α ℕ) (g : α → ℕ) : Prop := ∀ a, c.lookup a = if g a = 0 then none else some (g a)

variable {c : Table α ℕ} {g : α → ℕ} {a : α}

theorem Hold.congr {g' : α → ℕ} (h : Hold c g) (hg : ∀ a, g a = g' a) : Hold c g' := funext hg ▸ h

theorem Hold.getD (h : Hold c g) : (c.lookup a).getD 0 = g a := by
  rw [h a]
  split
  · next hz => exact hz.symm
  · rfl

theorem Hold.bump (h : Hold c g) (hlt : g a + 1 < 2 ^ 32) : Hold (bump c a) fun b =>
    g b + if a = b then 1 else 0 := by
  intro b
  rw [Counters.bump, h.getD, Nat.mod_eq_of_lt hlt, Table.lookup_insert_eq]
  by_cases hb : b = a
  · subst hb
    simp
  · simp [hb, Ne.symm hb, h b]

theorem Hold.drop (h : Hold c g) (hpos : 0 < g a) (hlt : g a < 2 ^ 32) :
    Hold (drop c a) fun b => g b - if a = b then 1 else 0 := by
  have hmod : (g a + (2 ^ 32 - 1)) % 2 ^ 32 = g a - 1 := by omega
  have ha : c.lookup a = some (g a) := by rw [h a, if_neg (by omega)]
  intro b
  simp only [Counters.drop, ha, hmod]
  by_cases hb : b = a
  · subst hb
    split
    · next hz => rw [AList.lookup_erase]; simp [hz]
    · next hz => rw [AList.lookup_insert]; simp [hz]
  · have hsame : g b - (if a = b then 1 else 0) = g b := by rw [if_neg (Ne.symm hb), Nat.sub_zero]
    rw [hsame, ← h b]
    split
    · rw [Table.lookup_erase_eq, if_neg hb]
    · rw [Table.lookup_insert_eq, if_neg hb]

end Counters

end PktKit.Foundations
