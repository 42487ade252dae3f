import Veldb.Crashes
import Veldb.Planner

/-! The calls of scalar functions that panic, among those with an accepted number of
arguments. -/

namespace Veldb

open Attempts Arr

/-- A call on values it cannot take: a start of `substring` that has no predecessor; for
`date_trunc` no first unit, or seconds whose unit begins before the least `i64`. -/
def CallOverflows (rt : Runtime) (func : ScalarFunc) (args : List Arr) : Prop :=
  match func, args with
  | .substring, .str _ :: start :: rest =>
    ∃ x, start.toF64 = .ok x ∧ (∃ count, rest.head?.mapM Arr.toF64 = .ok count) ∧
      ∃ i s, i < callLen args ∧ pick x i = .ok s ∧ s.toI64 = Int64.minValue
  | .dateTrunc, .str unit :: secs :: _ =>
    ∃ x, secs.toF64 = .ok x ∧ (unit = [] ∨
      ∃ u step, unit.head? = some u ∧ dateStep (rt.toLowercase u) = .ok step ∧
        ∃ s ∈ x, s.toI64.toInt / step * step < -2 ^ 63)
  | _, _ => False

variable {rt : Runtime} {α : Type} {n : Nat} {args : List Arr}

theorem sized_callLen (hA : ∀ a ∈ args, a.Sized n) {a : Arr} (ha : a ∈ args) :
    a.Sized (callLen args) := by
  rcases callLen_cases args with h1 | ⟨b, hb, hlen⟩
  · exact Or.inr (callLen_one h1 a ha)
  · rcases hA b hb with hbn | hb1
    · have heq : callLen args = n := hlen.symm.trans hbn
      exact heq ▸ hA a ha
    · exact Or.inr (callLen_one (hlen.symm.trans hb1) a ha)

theorem toF64_sized {a : Arr} {v : List F64} (ha : a.Sized n) (h : a.toF64 = .ok v) :
    v.length = n ∨ v.length = 1 := by
  rw [toF64_length h]
  exact ha

end Veldb
