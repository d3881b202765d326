import Mathlib

/-! # Texts cut into lines

A line ends with two distinct symbols `c` and `d`, one after the other, such as CR and LF. The head of a
message ends at its first blank line, which two ends of line in a row make.
-/

namespace PktKit.Foundations

section Defs

variable {α : Type*} [DecidableEq α]

def findIn (needle : List α) : List α → Option ℕ
  | [] => none
  | x :: l => if needle.isPrefixOf (x :: l) then some 0 else (findIn needle l).map (· + 1)

/-- The lines of a text, without the symbols that end each but the last. -/
def lines (c d : α) : List α → List (List α)
  | [] => [[]]
  | [x] => [[x]]
  | x :: y :: l => if x = c ∧ y = d then [] :: lines c d l else (lines c d (y :: l)).modifyHead (x :: ·)

end Defs

variable {α : Type*} {c d : α} {l : List α} {ls : List (List α)}

def unlines (c d : α) : List (List α) → List α
  | [] => []
  | [l] => l
  | l :: l' :: ls => l ++ c :: d :: unlines c d (l' :: ls)

/-- No line ends within the text. -/
def Unbroken (c d : α) (l : List α) : Prop := l.IsChain fun x y => ¬(x = c ∧ y = d)

theorem unlines_cons (hls : ls ≠ []) : unlines c d (l :: ls) = l ++ c :: d :: unlines c d ls := by
  cases ls with
  | nil => exact absurd rfl hls
  | cons l' ls => rfl

theorem unlines_append {ls' : List (List α)} (hls : ls ≠ []) (hls' : ls' ≠ []) :
    unlines c d (ls ++ ls') = unlines c d ls ++ c :: d :: unlines c d ls' := by
  induction ls with
  | nil => exact absurd rfl hls
  | cons a as ih =>
    cases as with
    | nil => rw [List.singleton_append, unlines_cons hls', unlines]
    | cons b bs =>
      rw [List.cons_append, unlines_cons (by simp), ih (by simp), unlines, List.append_assoc, List.cons_append,
        List.cons_append]

theorem unlines_modifyHead (x : α) (hls : ls ≠ []) :
    unlines c d (ls.modifyHead (x :: ·)) = x :: unlines c d ls := by
  match ls with
  | [] => exact absurd rfl hls
  | [a] => rfl
  | a :: b :: as => rfl

/-- A stretch with neither symbol in it joins unbroken texts. -/
theorem Unbroken.join {x y z : List α} (hx : Unbroken c d x) (hz : Unbroken c d z) (hy : y ≠ [])
    (hc : c ∉ y) (hd : d ∉ y) : Unbroken c d (x ++ y ++ z) := by
  have hmid : Unbroken c d y := by
    apply List.Pairwise.isChain
    exact List.pairwise_of_forall_mem_list fun a ha b _ h => hc (h.1 ▸ ha)
  have hleft : Unbroken c d (x ++ y) := by
    refine hx.append hmid fun a _ b hb h => hd ?_
    exact h.2 ▸ List.mem_of_mem_head? hb
  refine hleft.append hz fun a ha b _ h => hc ?_
  rw [List.getLast?_append_of_ne_nil _ hy] at ha
  exact h.1 ▸ List.mem_of_getLast? ha

variable [DecidableEq α]

/-- No line of the text is blank, except perhaps the first. -/
def Solid (c d : α) (l : List α) : Prop := [] ∉ (lines c d l).tail

theorem lines_ne_nil (l : List α) : lines c d l ≠ [] := by
  induction l using lines.induct c d with
  | case1 => simp [lines]
  | case2 x => simp [lines]
  | case3 x y l h ih => simp [lines, h]
  | case4 x y l h ih =>
    rw [lines, if_neg h]
    cases he : lines c d (y :: l) with
    | nil => exact absurd he ih
    | cons a as => simp [List.modifyHead]

theorem lines_cons (l : List α) : ∃ a as, lines c d l = a :: as := List.exists_cons_of_ne_nil (lines_ne_nil l)

theorem unlines_lines (l : List α) : unlines c d (lines c d l) = l := by
  induction l using lines.induct c d with
  | case1 => rfl
  | case2 x => rfl
  | case3 x y l h ih => rw [lines, if_pos h, unlines_cons (lines_ne_nil l), ih, h.1, h.2, List.nil_append]
  | case4 x y l h ih => rw [lines, if_neg h, unlines_modifyHead x (lines_ne_nil _), ih]

/-- Lines before and after an end of line are cut apart from each other. -/
theorem lines_append (hcd : c ≠ d) (x y : List α) : lines c d (x ++ c :: d :: y) = lines c d x ++ lines c d y := by
  induction x using lines.induct c d with
  | case1 => simp [lines]
  | case2 z =>
    have hz : ¬(z = c ∧ c = d) := fun h => hcd h.2
    simp [lines, hz]
  | case3 z w l h ih => simp [lines, h, ih]
  | case4 z w l h ih =>
    obtain ⟨a, as, he⟩ := lines_cons (c := c) (d := d) (w :: l)
    rw [he, List.cons_append] at ih
    simp [lines, h, he, ih]

/-- The first line starts as the text does. -/
theorem head_lines {x y : α} {a : List α} {as : List (List α)} (h : lines c d (y :: l) = (x :: a) :: as) :
    x = y := by
  have he := unlines_lines (c := c) (d := d) (y :: l)
  rw [h] at he
  cases as with
  | nil => exact (List.cons.inj he).1
  | cons b bs => exact (List.cons.inj he).1

theorem unbroken_of_mem {t : List α} (hl : l ∈ lines c d t) : Unbroken c d l := by
  induction t using lines.induct c d generalizing l with
  | case1 =>
    rw [lines, List.mem_singleton] at hl
    simp [hl, Unbroken]
  | case2 x =>
    rw [lines, List.mem_singleton] at hl
    simp [hl, Unbroken]
  | case3 x y t h ih =>
    rw [lines, if_pos h, List.mem_cons] at hl
    rcases hl with rfl | hl
    · simp [Unbroken]
    · exact ih hl
  | case4 x y t h ih =>
    obtain ⟨a, as, he⟩ := lines_cons (c := c) (d := d) (y :: t)
    rw [lines, if_neg h, he, List.modifyHead_cons, List.mem_cons] at hl
    rcases hl with rfl | hl
    · refine List.isChain_cons.2 ⟨fun z hz => ?_, ih (by rw [he]; exact List.mem_cons_self)⟩
      cases a with
      | nil => simp at hz
      | cons w a =>
        obtain rfl : w = z := by simpa using hz
        rw [head_lines he]
        exact h
    · exact ih (by rw [he]; exact List.mem_cons_of_mem _ hl)

theorem lines_of_unbroken (h : Unbroken c d l) : lines c d l = [l] := by
  induction l using lines.induct c d with
  | case1 => rfl
  | case2 x => rfl
  | case3 x y l hxy ih => exact absurd hxy (List.isChain_cons_cons.1 h).1
  | case4 x y l hxy ih => rw [lines, if_neg hxy, ih (List.isChain_cons_cons.1 h).2, List.modifyHead_cons]

theorem lines_unlines (hcd : c ≠ d) (hls : ls ≠ []) (h : ∀ l ∈ ls, Unbroken c d l) :
    lines c d (unlines c d ls) = ls := by
  induction ls with
  | nil => exact absurd rfl hls
  | cons a as ih =>
    have ha : lines c d a = [a] := lines_of_unbroken (h a List.mem_cons_self)
    cases as with
    | nil => exact ha
    | cons b bs =>
      rw [unlines, lines_append hcd, ha, ih (by simp) fun l hl => h l (List.mem_cons_of_mem _ hl),
        List.singleton_append]

/-- The first line of a text is blank if the text is empty or starts with an end of line. -/
theorem head_lines_eq_nil (hcd : c ≠ d) (l t : List α) :
    (lines c d l).head? = some [] ↔ [c, d] <+: l ++ c :: d :: t := by
  match l with
  | [] => simp [lines]
  | [x] =>
    have hx : ¬(c = x ∧ d = c) := fun h => hcd h.2.symm
    simp [lines, List.cons_prefix_cons, hx]
  | x :: y :: l =>
    by_cases h : x = c ∧ y = d
    · simp [lines, h]
    · have h' : ¬(c = x ∧ d = y) := fun he => h ⟨he.1.symm, he.2.symm⟩
      obtain ⟨a, as, he⟩ := lines_cons (c := c) (d := d) (y :: l)
      simp [lines, h, he, List.cons_prefix_cons, h']

theorem findIn_eq_some {n : List α} {k : ℕ} (h : findIn n l = some k) :
    ∃ x y, l = x ++ n ++ y ∧ x.length = k := by
  induction l generalizing k with
  | nil => simp [findIn] at h
  | cons a l ih =>
    rw [findIn] at h
    split at h
    · rename_i hn
      obtain ⟨y, hy⟩ := List.isPrefixOf_iff_prefix.1 hn
      exact ⟨[], y, hy.symm, Option.some.inj h⟩
    · obtain ⟨k', hk', rfl⟩ := Option.map_eq_some_iff.1 h
      obtain ⟨x, y, rfl, hx⟩ := ih hk'
      exact ⟨a :: x, y, rfl, by rw [List.length_cons, hx]⟩

theorem findIn_cons {n : List α} {x : α} {k : ℕ} (h : ¬n <+: x :: l) :
    findIn n (x :: l) = some (k + 1) ↔ findIn n l = some k := by
  rw [← List.isPrefixOf_iff_prefix] at h
  rw [findIn, if_neg h]
  simp

/-- The first blank line of a text is the one after a solid head. -/
theorem findIn_blank (hcd : c ≠ d) (h b : List α) :
    findIn [c, d, c, d] (h ++ c :: d :: c :: d :: b) = some h.length ↔ Solid c d h := by
  induction h using lines.induct c d with
  | case1 => simp [findIn, Solid, lines]
  | case2 x =>
    have hx : ¬[c, d, c, d] <+: x :: c :: d :: c :: d :: b := by
      simp only [List.cons_prefix_cons]
      exact fun h => hcd h.2.1.symm
    rw [List.singleton_append, List.length_singleton, findIn_cons hx]
    simp [findIn, Solid, lines]
  | case3 x y l h ih =>
    obtain ⟨rfl, rfl⟩ := h
    obtain ⟨a, as, he⟩ := lines_cons (c := x) (d := y) l
    -- The blank line is here if the next line is blank.
    have hblank : [x, y, x, y] <+: x :: y :: (l ++ x :: y :: x :: y :: b) ↔ a = [] := by
      have hhead := head_lines_eq_nil hcd l (x :: y :: b)
      rw [he, List.head?_cons, Option.some.injEq] at hhead
      simp only [List.cons_prefix_cons, true_and, hhead]
    have hsecond : ¬[x, y, x, y] <+: y :: (l ++ x :: y :: x :: y :: b) := by
      simp only [List.cons_prefix_cons]
      exact fun h => hcd h.1
    simp only [Solid, he, List.tail_cons] at ih
    rw [List.cons_append, List.cons_append, List.length_cons, List.length_cons]
    by_cases ha : a = []
    · have hp := List.isPrefixOf_iff_prefix.2 (hblank.2 ha)
      simp [findIn, Solid, lines, he, ha, hp]
    · have ha' : ¬[] = a := fun h => ha h.symm
      rw [findIn_cons fun hp => ha (hblank.1 hp), findIn_cons hsecond, ih]
      simp [Solid, lines, he, ha']
  | case4 x y l h ih =>
    have hp : ¬[c, d, c, d] <+: x :: y :: (l ++ c :: d :: c :: d :: b) := by
      simp only [List.cons_prefix_cons]
      exact fun hp => h ⟨hp.1.symm, hp.2.1.symm⟩
    obtain ⟨a, as, he⟩ := lines_cons (c := c) (d := d) (y :: l)
    rw [List.cons_append, List.cons_append, List.length_cons, findIn_cons hp, ← List.cons_append, ih]
    simp [Solid, lines, h, he]

end PktKit.Foundations
