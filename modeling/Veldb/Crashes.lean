import Veldb.CallRows

/-! Which operations on arrays panic. Arrays have one value, or one for each row of the
selection; with that only a few calls do, on certain values. -/

namespace Veldb

open Attempts Arr

def Fault.IsCrash : Fault → Prop
  | .crash _ => True
  | .bail _ => False

/-- The computation panics. -/
abbrev Crashes {α : Type} (x : Exec α) : Prop :=
  Raises Fault.IsCrash x

variable {rt : Runtime} {α β γ : Type} {n i : Nat}

theorem crashes_crash (place : String) : Crashes (crash place : Exec α) :=
  ⟨_, rfl, trivial⟩

theorem not_crashes_bail (m : String) : ¬ Crashes (bail m : Exec α) := by
  rintro ⟨e, h, he⟩
  obtain rfl := Except.error.inj h
  exact he

theorem not_crashes_of_ok {x : Exec α} {a : α} (h : x = .ok a) : ¬ Crashes x :=
  h ▸ not_raises_ok a

theorem crashes_withContext {what : String} {x : Exec α} :
    Crashes (withContext what x) ↔ Crashes x := by
  cases x with
  | ok a => exact Iff.rfl
  | error e =>
    cases e with
    | crash place => exact Iff.rfl
    | bail m => exact iff_of_false (not_crashes_bail _) (not_crashes_bail _)

theorem crashes_index {v : List α} : Crashes (index v i) ↔ v.length ≤ i := by
  rw [← List.getElem?_eq_none_iff]
  unfold index
  cases v[i]? with
  | none => exact iff_of_true (crashes_crash _) rfl
  | some a => exact iff_of_false (not_raises_ok a) nofun

theorem toF64_length {a : Arr} {v : List F64} (h : a.toF64 = .ok v) : v.length = a.len := by
  cases a with
  | f64 w => obtain rfl := Except.ok.inj h; rfl
  | i64 w => obtain rfl := Except.ok.inj h; exact List.length_map _
  | bool w => obtain rfl := Except.ok.inj h; exact List.length_map _
  | _ => cases h

theorem asBool_length {a : Arr} {v : List UInt8} (h : a.asBool = .ok v) : v.length = a.len := by
  cases a with
  | bool w => obtain rfl := Except.ok.inj h; rfl
  | _ => cases h

section Binary

variable {op : BinOp} {l r : Arr}

end Binary

section Unary

variable {v a : Arr}

end Unary

end Veldb
