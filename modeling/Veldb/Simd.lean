import Mathlib.Algebra.MvPolynomial.Basic
import Mathlib.Algebra.Ring.Rat
import Mathlib.Tactic.LinearCombination
import Veldb.Library.Attempts
import Veldb.Machine

/-! The vector kernels, over exact arithmetic: the blocked loops with four accumulators and a
scalar tail add up the same terms as the scalar loops. -/

namespace Veldb

open Attempts

namespace Simd

/-- The numbers handled in one round of the main loop: four registers of four lanes. -/
def lanes : Nat := 16

/-- A register of four lanes. -/
structure Float32x4 (α : Type) where
  lane0 : α
  lane1 : α
  lane2 : α
  lane3 : α
  deriving DecidableEq, Repr

section Kernels

variable {α : Type}

/-- Loads four numbers in a row; outside the slice there is nothing to load. -/
def vld1q (p : List α) (off : Nat) : Exec (Float32x4 α) := do
  return ⟨← index p off, ← index p (off + 1), ← index p (off + 2), ← index p (off + 3)⟩

theorem vld1q_ok {p : List α} {off : Nat} (h : off + 4 ≤ p.length) :
    ∃ x, vld1q p off = .ok x ∧ p[off]? = some x.lane0 ∧ p[off + 1]? = some x.lane1 ∧
      p[off + 2]? = some x.lane2 ∧ p[off + 3]? = some x.lane3 := by
  have hget : ∀ j, j < p.length → ∃ x, p[j]? = some x := fun j hj =>
    ⟨_, List.getElem?_eq_getElem hj⟩
  obtain ⟨x0, h0⟩ := hget off (by omega)
  obtain ⟨x1, h1⟩ := hget (off + 1) (by omega)
  obtain ⟨x2, h2⟩ := hget (off + 2) (by omega)
  obtain ⟨x3, h3⟩ := hget (off + 3) (by omega)
  refine ⟨⟨x0, x1, x2, x3⟩, ?_, h0, h1, h2, h3⟩
  rw [vld1q, index_eq_ok.mpr h0, index_eq_ok.mpr h1, index_eq_ok.mpr h2, index_eq_ok.mpr h3]
  rfl

variable [CommRing α]

def vdupq (x : α) : Float32x4 α :=
  ⟨x, x, x, x⟩

def vaddq (x y : Float32x4 α) : Float32x4 α :=
  ⟨x.lane0 + y.lane0, x.lane1 + y.lane1, x.lane2 + y.lane2, x.lane3 + y.lane3⟩

def vsubq (x y : Float32x4 α) : Float32x4 α :=
  ⟨x.lane0 - y.lane0, x.lane1 - y.lane1, x.lane2 - y.lane2, x.lane3 - y.lane3⟩

/-- `a + b * c` in every lane. -/
def vfmaq (a b c : Float32x4 α) : Float32x4 α :=
  ⟨a.lane0 + b.lane0 * c.lane0, a.lane1 + b.lane1 * c.lane1, a.lane2 + b.lane2 * c.lane2,
    a.lane3 + b.lane3 * c.lane3⟩

/-- The lanes added up. -/
def vaddvq (x : Float32x4 α) : α :=
  x.lane0 + x.lane1 + (x.lane2 + x.lane3)

/-- One accumulator of the main loop: `fma` takes in the lanes of both slices. -/
def takeIn (fma : Float32x4 α → Float32x4 α → Float32x4 α → Float32x4 α) (a b : List α) (i : Nat)
    (acc : Float32x4 α × Nat) : Exec (Float32x4 α) := do
  let off := i + acc.2 * 4
  return fma acc.1 (← vld1q a off) (← vld1q b off)

def mainLoop (fma : Float32x4 α → Float32x4 α → Float32x4 α → Float32x4 α) (a b : List α)
    (i : Nat) (acc : List (Float32x4 α)) : Exec (Nat × List (Float32x4 α)) :=
  if i + lanes ≤ a.length then do
    let acc ← acc.zipIdx.mapM (takeIn fma a b i)
    mainLoop fma a b (i + lanes) acc
  else .ok (i, acc)
termination_by a.length - i
decreasing_by
  simp only [lanes] at *
  omega

def tailLoop (term : α → α → α) (a b : List α) (i : Nat) (sum : α) : Exec α :=
  if i < a.length then do
    let x ← index a i
    let y ← index b i
    tailLoop term a b (i + 1) (sum + term x y)
  else .ok sum
termination_by a.length - i

/-- What both kernels are: the main loop, the lanes of four accumulators added up, the tail. -/
def kernel (fma : Float32x4 α → Float32x4 α → Float32x4 α → Float32x4 α) (term : α → α → α)
    (a b : List α) : Exec α := do
  let (i, acc) ← mainLoop fma a b 0 (List.replicate 4 (vdupq 0))
  let left := vaddq (← index acc 0) (← index acc 1)
  let right := vaddq (← index acc 2) (← index acc 3)
  tailLoop term a b i (vaddvq (vaddq left right))

def dotNeon (a b : List α) : Exec α :=
  kernel vfmaq (fun x y => x * y) a b

def l2SqNeon (a b : List α) : Exec α :=
  kernel (fun acc x y => vfmaq acc (vsubq x y) (vsubq x y)) (fun x y => (x - y) * (x - y)) a b

def dotScalar (a b : List α) : α :=
  ((a.zip b).map (fun p => p.1 * p.2)).sum

def l2SqScalar (a b : List α) : α :=
  ((a.zip b).map (fun p => (p.1 - p.2) * (p.1 - p.2))).sum

section Sums

variable {fma : Float32x4 α → Float32x4 α → Float32x4 α → Float32x4 α} {term : α → α → α}
  {a b : List α} {i : Nat}

/-- The lanes of a register grow by the terms of the lanes it takes in. -/
def Adds (fma : Float32x4 α → Float32x4 α → Float32x4 α → Float32x4 α) (term : α → α → α) : Prop :=
  ∀ acc x y, vaddvq (fma acc x y) = vaddvq acc + (term x.lane0 y.lane0 + term x.lane1 y.lane1 +
    term x.lane2 y.lane2 + term x.lane3 y.lane3)

theorem vfmaq_adds : Adds (α := α) vfmaq (fun x y => x * y) := by
  intro acc x y
  simp only [vaddvq, vfmaq]
  ring

theorem vsubq_adds : Adds (α := α) (fun acc x y => vfmaq acc (vsubq x y) (vsubq x y))
    (fun x y => (x - y) * (x - y)) := by
  intro acc x y
  simp only [vaddvq, vfmaq, vsubq]
  ring

/-- The terms from a place on. -/
def termsFrom (term : α → α → α) (a b : List α) (i : Nat) : α :=
  (List.zipWith term (a.drop i) (b.drop i)).sum

theorem termsFrom_zero : termsFrom term a b 0 = ((a.zip b).map (fun p => term p.1 p.2)).sum := by
  rw [termsFrom, List.drop_zero, List.drop_zero, List.map_zip_eq_zipWith]
  rfl

theorem termsFrom_end (h : a.length ≤ i) : termsFrom term a b i = 0 := by
  rw [termsFrom, List.drop_eq_nil_of_le h, List.zipWith_nil_left, List.sum_nil]

theorem termsFrom_next {x y : α} (hx : a[i]? = some x) (hy : b[i]? = some y) :
    termsFrom term a b i = term x y + termsFrom term a b (i + 1) := by
  obtain ⟨ha, rfl⟩ := List.getElem?_eq_some_iff.mp hx
  obtain ⟨hb, rfl⟩ := List.getElem?_eq_some_iff.mp hy
  rw [termsFrom, List.drop_eq_getElem_cons ha, List.drop_eq_getElem_cons hb, List.zipWith_cons_cons,
    List.sum_cons]
  rfl

theorem takeIn_ok (hadds : Adds fma term) (hlen : a.length = b.length) {k : Nat}
    (h : i + k * 4 + 4 ≤ a.length) (acc : Float32x4 α) :
    ∃ acc', takeIn fma a b i (acc, k) = .ok acc' ∧
      vaddvq acc' + termsFrom term a b (i + k * 4 + 4) =
        vaddvq acc + termsFrom term a b (i + k * 4) := by
  obtain ⟨x, hx, hx0, hx1, hx2, hx3⟩ := vld1q_ok h
  obtain ⟨y, hy, hy0, hy1, hy2, hy3⟩ := vld1q_ok (hlen ▸ h)
  refine ⟨fma acc x y, ?_, ?_⟩
  · simp only [takeIn]
    rw [hx, hy]
    rfl
  · rw [hadds, termsFrom_next hx0 hy0, termsFrom_next hx1 hy1, termsFrom_next hx2 hy2,
      termsFrom_next hx3 hy3]
    ring

/-- All lanes of all accumulators. -/
def total (acc : List (Float32x4 α)) : α :=
  (acc.map vaddvq).sum

theorem takeIn_round (hadds : Adds fma term) (hlen : a.length = b.length)
    (h : i + lanes ≤ a.length) {acc : List (Float32x4 α)} (hacc : acc.length = 4) :
    ∃ acc', acc.zipIdx.mapM (takeIn fma a b i) = .ok acc' ∧ acc'.length = 4 ∧
      total acc' + termsFrom term a b (i + lanes) = total acc + termsFrom term a b i := by
  unfold lanes at *
  obtain ⟨p, q, r, s, rfl⟩ := List.length_eq_four.mp hacc
  obtain ⟨p', hp, hpsum⟩ := takeIn_ok (i := i) hadds hlen (k := 0) (by omega) p
  obtain ⟨q', hq, hqsum⟩ := takeIn_ok (i := i) hadds hlen (k := 1) (by omega) q
  obtain ⟨r', hr, hrsum⟩ := takeIn_ok (i := i) hadds hlen (k := 2) (by omega) r
  obtain ⟨s', hs, hssum⟩ := takeIn_ok (i := i) hadds hlen (k := 3) (by omega) s
  refine ⟨[p', q', r', s'], ?_, rfl, ?_⟩
  · refine mapM_eq_ok.mpr ?_
    exact .cons hp (.cons hq (.cons hr (.cons hs .nil)))
  · simp only [total, List.map_cons, List.map_nil, List.sum_cons, List.sum_nil]
    simp only [Nat.reduceMul, Nat.add_zero, Nat.add_assoc, Nat.reduceAdd] at hpsum hqsum hrsum hssum
    linear_combination hpsum + hqsum + hrsum + hssum

/-- After the main loop what the accumulators hold and what is still to come make up the same. -/
theorem mainLoop_ok (hadds : Adds fma term) (hlen : a.length = b.length) (i : Nat)
    (acc : List (Float32x4 α)) (hacc : acc.length = 4) :
    ∃ j acc', mainLoop fma a b i acc = .ok (j, acc') ∧ acc'.length = 4 ∧
      total acc' + termsFrom term a b j = total acc + termsFrom term a b i := by
  unfold mainLoop
  by_cases h : i + lanes ≤ a.length
  · rw [if_pos h]
    obtain ⟨next, hnext, hcount, hsum⟩ := takeIn_round hadds hlen h hacc
    obtain ⟨j, acc', hloop, hcount', hrest⟩ := mainLoop_ok hadds hlen (i + lanes) next hcount
    refine ⟨j, acc', ?_, hcount', hrest.trans hsum⟩
    rw [hnext, ok_bind, hloop]
  · rw [if_neg h]
    exact ⟨i, acc, rfl, hacc, rfl⟩
termination_by a.length - i
decreasing_by
  simp only [lanes] at *
  omega

theorem tailLoop_ok (hlen : a.length = b.length) (i : Nat) (sum : α) :
    tailLoop term a b i sum = .ok (sum + termsFrom term a b i) := by
  unfold tailLoop
  by_cases h : i < a.length
  · have hx : a[i]? = some a[i] := List.getElem?_eq_getElem h
    have hy : b[i]? = some b[i] := List.getElem?_eq_getElem (hlen ▸ h)
    rw [if_pos h, index_eq_ok.mpr hx, index_eq_ok.mpr hy, ok_bind, ok_bind,
      tailLoop_ok hlen (i + 1), termsFrom_next hx hy, add_assoc]
  · rw [if_neg h, termsFrom_end (Nat.le_of_not_lt h), add_zero]
termination_by a.length - i

theorem kernel_ok (hadds : Adds fma term) (hlen : a.length = b.length) :
    kernel fma term a b = .ok ((a.zip b).map (fun p => term p.1 p.2)).sum := by
  obtain ⟨j, acc, hloop, hcount, hsum⟩ := mainLoop_ok hadds hlen 0 (List.replicate 4 (vdupq 0)) rfl
  obtain ⟨p, q, r, s, rfl⟩ := List.length_eq_four.mp hcount
  have hstart : total (List.replicate 4 (vdupq (0 : α))) = 0 := by
    simp [total, vdupq, vaddvq]
  have hlanes : vaddvq (vaddq (vaddq p q) (vaddq r s)) = total [p, q, r, s] := by
    simp only [total, vaddvq, vaddq, List.map_cons, List.map_nil, List.sum_cons, List.sum_nil]
    ring
  rw [hstart, zero_add, termsFrom_zero, ← hlanes] at hsum
  have htail : tailLoop term a b j (vaddvq (vaddq (vaddq p q) (vaddq r s))) =
      .ok (vaddvq (vaddq (vaddq p q) (vaddq r s)) + termsFrom term a b j) := tailLoop_ok hlen j _
  rw [hsum] at htail
  rw [kernel, hloop]
  exact htail

/-- Over exact arithmetic, in any commutative ring, the vector kernels return what the scalar
ones do and never read outside a slice. -/
theorem neon_eq_scalar (hlen : a.length = b.length) :
    dotNeon a b = .ok (dotScalar a b) ∧ l2SqNeon a b = .ok (l2SqScalar a b) :=
  ⟨kernel_ok vfmaq_adds hlen, kernel_ok vsubq_adds hlen⟩

theorem neon_eq_scalar_nineteen :
    dotNeon (List.replicate 19 (2 : ℚ)) (List.replicate 19 5) = .ok 190 ∧
    l2SqNeon (List.replicate 19 (2 : ℚ)) (List.replicate 19 5) = .ok 171 := by
  obtain ⟨hdot, hl2⟩ := neon_eq_scalar (a := List.replicate 19 (2 : ℚ)) (b := List.replicate 19 5) rfl
  rw [hdot, hl2]
  exact ⟨congrArg Except.ok (by decide +kernel), congrArg Except.ok (by decide +kernel)⟩

open MvPolynomial in
/-- On variables in place of numbers: every place is used once, together with its own. -/
theorem dotNeon_variables (n : Nat) :
    dotNeon ((List.range n).map fun i => (X (i, false) : MvPolynomial (ℕ × Bool) ℤ))
      ((List.range n).map fun i => X (i, true)) =
      .ok ((List.range n).map fun i => X (i, false) * X (i, true)).sum := by
  have hlen : ((List.range n).map fun i => (X (i, false) : MvPolynomial (ℕ × Bool) ℤ)).length =
      ((List.range n).map fun i => (X (i, true) : MvPolynomial (ℕ × Bool) ℤ)).length := by simp
  rw [(neon_eq_scalar hlen).1, dotScalar, List.zip_map', List.map_map]
  rfl

end Sums

end Kernels

end Simd

end Veldb
