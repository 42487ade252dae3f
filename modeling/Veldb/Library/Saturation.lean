import Mathlib.Algebra.BigOperators.Group.List.Basic
import Mathlib.Algebra.Order.Ring.Int

/-! Sums whose every step is held within bounds, and the sequences whose sum does not depend
on the order of the steps. -/

namespace Saturation

def clamp (lo hi n : Int) : Int :=
  max lo (min n hi)

/-- A running sum that stops at the bounds. -/
def runSum (lo hi : Int) (xs : List Int) (a : Int) : Int :=
  xs.foldl (fun a x => clamp lo hi (a + x)) a

def gains (xs : List Int) : Int :=
  (xs.map (max · 0)).sum

def losses (xs : List Int) : Int :=
  (xs.map (min · 0)).sum

/-- Steps up and steps down do not meet at a bound. -/
def Unmixed (lo hi : Int) (xs : List Int) : Prop :=
  losses xs = 0 ∨ gains xs = 0 ∨ gains xs ≤ hi ∧ lo ≤ losses xs

variable {lo hi a : Int} {xs ys : List Int}

theorem gains_nonneg (xs : List Int) : 0 ≤ gains xs := by
  induction xs with
  | nil => rfl
  | cons x xs ih =>
    simp only [gains, List.map_cons, List.sum_cons] at ih ⊢
    omega

theorem losses_nonpos (xs : List Int) : losses xs ≤ 0 := by
  induction xs with
  | nil => rfl
  | cons x xs ih =>
    simp only [losses, List.map_cons, List.sum_cons] at ih ⊢
    omega

theorem sum_eq (xs : List Int) : xs.sum = gains xs + losses xs := by
  induction xs with
  | nil => rfl
  | cons x xs ih =>
    simp only [gains, losses, List.map_cons, List.sum_cons] at ih ⊢
    omega

theorem gains_append (xs ys : List Int) : gains (xs ++ ys) = gains xs + gains ys := by
  simp [gains]

theorem losses_append (xs ys : List Int) : losses (xs ++ ys) = losses xs + losses ys := by
  simp [losses]

theorem gains_perm (h : xs.Perm ys) : gains xs = gains ys :=
  (h.map _).sum_eq

theorem losses_perm (h : xs.Perm ys) : losses xs = losses ys :=
  (h.map _).sum_eq

theorem runSum_append (xs ys : List Int) (a : Int) :
    runSum lo hi (xs ++ ys) a = runSum lo hi ys (runSum lo hi xs a) :=
  List.foldl_append

/-- From `a` on the sum is right when no steps down follow what the upper bound cuts off,
and none up what the lower one does. -/
theorem runSum_eq_clamp (ha : lo ≤ a ∧ a ≤ hi) (hup : a + gains xs ≤ hi ∨ losses xs = 0)
    (hdown : lo ≤ a + losses xs ∨ gains xs = 0) :
    runSum lo hi xs a = clamp lo hi (a + xs.sum) := by
  induction xs generalizing a with
  | nil =>
    simp only [runSum, List.foldl_nil, List.sum_nil, clamp]
    omega
  | cons x xs ih =>
    have hg := gains_nonneg xs
    have hl := losses_nonpos xs
    have hs := sum_eq xs
    have hgx : gains (x :: xs) = max x 0 + gains xs := rfl
    have hlx : losses (x :: xs) = min x 0 + losses xs := rfl
    have hstep : runSum lo hi (x :: xs) a = runSum lo hi xs (clamp lo hi (a + x)) := rfl
    rw [hstep, ih (by unfold clamp; omega) (by unfold clamp; omega) (by unfold clamp; omega)]
    rw [List.sum_cons]
    unfold clamp
    omega

theorem gains_filter (xs : List Int) :
    gains (xs.filter (0 ≤ ·)) = gains xs ∧ losses (xs.filter (0 ≤ ·)) = 0 := by
  induction xs with
  | nil => exact ⟨rfl, rfl⟩
  | cons x xs ih =>
    obtain ⟨hg, hl⟩ := ih
    by_cases hx : 0 ≤ x
    · rw [List.filter_cons_of_pos (by simpa using hx)]
      simp only [gains, losses, List.map_cons, List.sum_cons] at hg hl ⊢
      omega
    · rw [List.filter_cons_of_neg (by simpa using hx)]
      simp only [gains, losses, List.map_cons, List.sum_cons] at hg hl ⊢
      omega

theorem losses_filter (xs : List Int) :
    gains (xs.filter (fun x => !decide (0 ≤ x))) = 0 ∧
      losses (xs.filter (fun x => !decide (0 ≤ x))) = losses xs := by
  have hperm := List.filter_append_perm (fun x : Int => decide (0 ≤ x)) xs
  obtain ⟨hg, hl⟩ := gains_filter xs
  have hgains := gains_perm hperm
  have hlosses := losses_perm hperm
  rw [gains_append] at hgains
  rw [losses_append] at hlosses
  constructor <;> omega

/-- The sum is the same in every order exactly for an unmixed sequence. -/
theorem runSum_perm_iff (hlo : lo ≤ 0) (hhi : 0 ≤ hi) (hlt : lo < hi) :
    (∀ ys, ys.Perm xs → runSum lo hi ys 0 = clamp lo hi xs.sum) ↔ Unmixed lo hi xs := by
  constructor
  · intro h
    let up := xs.filter (0 ≤ ·)
    let down := xs.filter (fun x => !decide (0 ≤ x))
    obtain ⟨hug, hul⟩ := gains_filter xs
    obtain ⟨hdg, hdl⟩ := losses_filter xs
    have hperm : (up ++ down).Perm xs := List.filter_append_perm _ xs
    have hbound : ∀ n, lo ≤ clamp lo hi n ∧ clamp lo hi n ≤ hi := fun n => by
      unfold clamp
      omega
    have hclimb : ∀ a, lo ≤ a ∧ a ≤ hi → runSum lo hi up a = clamp lo hi (a + gains xs) := by
      intro a ha
      rw [runSum_eq_clamp ha (Or.inr hul) (Or.inl (by omega)), sum_eq up, hug, hul, add_zero]
    have hfall : ∀ a, lo ≤ a ∧ a ≤ hi → runSum lo hi down a = clamp lo hi (a + losses xs) := by
      intro a ha
      rw [runSum_eq_clamp ha (Or.inl (by omega)) (Or.inr hdg), sum_eq down, hdg, hdl, zero_add]
    have h₁ := h (up ++ down) hperm
    have h₂ := h (down ++ up) (List.perm_append_comm.trans hperm)
    rw [runSum_append, hclimb 0 ⟨hlo, hhi⟩, hfall _ (hbound _)] at h₁
    rw [runSum_append, hfall 0 ⟨hlo, hhi⟩, hclimb _ (hbound _)] at h₂
    have hg := gains_nonneg xs
    have hl := losses_nonpos xs
    rw [sum_eq xs] at h₁ h₂
    unfold clamp at h₁ h₂
    unfold Unmixed
    omega
  · intro h ys hperm
    have hgains := gains_perm hperm
    have hlosses := losses_perm hperm
    have hg := gains_nonneg xs
    have hl := losses_nonpos xs
    unfold Unmixed at h
    rw [runSum_eq_clamp ⟨hlo, hhi⟩ (by omega) (by omega), zero_add, hperm.sum_eq]

end Saturation
