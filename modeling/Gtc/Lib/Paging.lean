/-
Lists cut into pages.

A list of `m` elements has `m / c + 1` pages of size `c`: the full ones, and a
last one that is short and may be empty. A reader who asks for `c` elements at a
time and stops at the first short answer sees exactly these. What such an answer
is, when the list is sorted, is said by `eq_take_of_initial`: a sorted selection
that leaves out nothing, or only what comes after it.
-/
import Mathlib.Data.List.Basic

namespace Lib

variable {α : Type} {c : ℕ}

/-- Page `j` of a list. -/
def page (c : ℕ) (l : List α) (j : ℕ) : List α := (l.drop (j * c)).take c

/-- All pages, with the short one at the end. -/
def pages (c : ℕ) (l : List α) : List (List α) := (List.range (l.length / c + 1)).map (page c l)

@[simp] theorem length_page (c : ℕ) (l : List α) (j : ℕ) : (page c l j).length = min c (l.length - j * c) := by
  rw [page, List.length_take, List.length_drop]

/-- A page and what follows it. -/
theorem page_append_drop (c : ℕ) (l : List α) (j : ℕ) : page c l j ++ l.drop ((j + 1) * c) = l.drop (j * c) := by
  rw [page, Nat.succ_mul, ← List.drop_drop, List.take_append_drop]

theorem flatMap_page (c : ℕ) (l : List α) (n : ℕ) : (List.range n).flatMap (page c l) = l.take (n * c) := by
  induction n with
  | zero => simp
  | succ n ih =>
    rw [List.range_succ, List.flatMap_append, ih, Nat.succ_mul, List.take_add]
    simp [page]

theorem length_lt_pages (hc : 0 < c) (l : List α) : l.length < (l.length / c + 1) * c := by
  have hmod := Nat.mod_lt l.length hc
  have hdiv := Nat.div_add_mod' l.length c
  rw [Nat.succ_mul]
  omega

/-- **The pages of a list are the list.** -/
theorem flatten_pages (hc : 0 < c) (l : List α) : (pages c l).flatten = l := by
  rw [pages, ← List.flatMap_def, flatMap_page]
  exact List.take_of_length_le (Nat.le_of_lt (length_lt_pages hc l))

theorem mul_le_length {l : List α} {j : ℕ} (hj : j ≤ l.length / c) : j * c ≤ l.length :=
  Nat.le_trans (Nat.mul_le_mul_right c hj) (Nat.div_mul_le_self l.length c)

/-- Only the last page is short. -/
theorem length_page_lt_iff (hc : 0 < c) {l : List α} {j : ℕ} (hj : j ≤ l.length / c) :
    (page c l j).length < c ↔ j = l.length / c := by
  rw [length_page]
  constructor
  · intro hshort
    by_contra hne
    have hfull : (j + 1) * c ≤ l.length := mul_le_length (Nat.lt_of_le_of_ne hj hne)
    rw [Nat.succ_mul] at hfull
    omega
  · rintro rfl
    have hlt := length_lt_pages hc l
    rw [Nat.succ_mul] at hlt
    omega

/-- A sorted selection of at most `n` elements that leaves an element out only
when it is full, and then one that comes after it, is the beginning of the
list. -/
theorem eq_take_of_initial {r : α → α → Prop} (hirrefl : ∀ a, ¬ r a a) (htrans : ∀ a b d, r a b → r b d → r a d)
    {l selected : List α} {n : ℕ} (hsorted : l.Pairwise r) (hselected : selected.Pairwise r)
    (hsubset : ∀ a ∈ selected, a ∈ l) (hlength : selected.length ≤ n)
    (hrest : ∀ a ∈ l, a ∈ selected ∨ selected.length = n ∧ ∀ b ∈ selected, r b a) : selected = l.take n := by
  induction l generalizing selected n with
  | nil =>
    rw [List.take_nil, List.eq_nil_iff_forall_not_mem]
    exact fun a ha => List.not_mem_nil (hsubset a ha)
  | cons x xs ih =>
    rw [List.pairwise_cons] at hsorted
    cases selected with
    | nil =>
      rcases hrest x (by simp) with hx | ⟨hn, -⟩
      · cases hx
      · rw [← hn]
        rfl
    | cons y ys =>
      rw [List.pairwise_cons] at hselected
      -- the first of the list is in the selection, and nothing there comes before it
      obtain rfl : y = x := by
        rcases List.mem_cons.mp (hsubset y (by simp)) with hyx | hy
        · exact hyx
        · have hxy := hsorted.1 y hy
          rcases hrest x (by simp) with hx | ⟨-, hbefore⟩
          · rcases List.mem_cons.mp hx with hxy' | hx
            · exact hxy'.symm
            · exact absurd (htrans _ _ _ hxy (hselected.1 x hx)) (hirrefl x)
          · exact absurd (htrans _ _ _ hxy (hbefore y (by simp))) (hirrefl x)
      cases n with
      | zero => cases hlength
      | succ n =>
        rw [List.take_succ_cons]
        refine congrArg (y :: ·) (ih hsorted.2 hselected.2 (fun a ha => ?_) (Nat.le_of_succ_le_succ hlength) fun a ha => ?_)
        · rcases List.mem_cons.mp (hsubset a (by simp [ha])) with rfl | hmem
          · exact absurd (hselected.1 a ha) (hirrefl a)
          · exact hmem
        · rcases hrest a (by simp [ha]) with hmem | ⟨hfull, hbefore⟩
          · rcases List.mem_cons.mp hmem with rfl | hmem
            · exact absurd (hsorted.1 a ha) (hirrefl a)
            · exact .inl hmem
          · exact .inr ⟨Nat.succ.inj hfull, fun b hb => hbefore b (by simp [hb])⟩

end Lib
