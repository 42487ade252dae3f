import Mathlib.Data.List.Basic
import Mathlib.Data.Int.Log

/-! What the source takes from the language: byte strings, the two ways a call
ends without a value, 64-bit sizes and floating-point numbers as bit patterns. -/

namespace Veldb

abbrev Bytes := List UInt8

/-- `bail` carries the text of an error with its context, as `{:#}` prints it;
`crash` is a panic and names its place. -/
inductive Fault where
  | bail (msg : String)
  | crash (place : String)
  deriving DecidableEq, Repr

abbrev Exec := Except Fault

def bail {α : Type} (msg : String) : Exec α :=
  .error (.bail msg)

def crash {α : Type} (place : String) : Exec α :=
  .error (.crash place)

@[simp] theorem bail_ne_ok {α : Type} (msg : String) (a : α) : bail msg ≠ .ok a := nofun

@[simp] theorem crash_ne_ok {α : Type} (place : String) (a : α) : crash place ≠ .ok a := nofun

def withContext {α : Type} (what : String) : Exec α → Exec α
  | .error (.bail msg) => .error (.bail (what ++ ": " ++ msg))
  | r => r

@[simp] theorem withContext_ok {α : Type} (what : String) (a : α) :
    withContext what (.ok a) = .ok a := rfl

theorem withContext_eq_ok {α : Type} {what : String} {x : Exec α} {a : α} :
    withContext what x = .ok a ↔ x = .ok a := by
  cases x with
  | ok b => rfl
  | error e => cases e <;> exact iff_of_false nofun nofun

def usizeRange : Nat := 2 ^ 64

/-- No vector or string of the source owns more bytes than this. -/
def isizeMax : Nat := 2 ^ 63 - 1

def withCapacity (size n : Nat) : Exec Unit :=
  if n * size ≤ isizeMax then .ok () else crash "capacity overflow"

theorem withCapacity_eq_ok {size n : Nat} : withCapacity size n = .ok () ↔ n * size ≤ isizeMax := by
  unfold withCapacity
  by_cases h : n * size ≤ isizeMax
  · rw [if_pos h]
    exact iff_of_true rfl h
  · rw [if_neg h]
    exact iff_of_false (crash_ne_ok _ _) h

def mulUsize (a b : Nat) : Exec Nat :=
  if a * b < usizeRange then .ok (a * b) else crash "attempt to multiply with overflow"

theorem withCapacity_error {size n : Nat} (h : ¬ n * size ≤ isizeMax) :
    withCapacity size n = crash "capacity overflow" :=
  if_neg h

def index {α : Type} (v : List α) (i : Nat) : Exec α :=
  match v[i]? with
  | some a => .ok a
  | none => crash "index out of bounds"

theorem index_eq_ok {α : Type} {v : List α} {i : Nat} {x : α} :
    index v i = .ok x ↔ v[i]? = some x := by
  unfold index
  cases v[i]? <;> simp

def slice (data : Bytes) (start stop : Nat) : Bytes :=
  (data.take stop).drop start

structure F64 where
  bits : UInt64
  deriving DecidableEq, Repr

structure F32 where
  bits : UInt32
  deriving DecidableEq, Repr

/-- The bits of the double nearest to `m`, ties to even. -/
def F64.bitsOfNat (m : Nat) : Nat :=
  if m = 0 then 0
  else
    let e := m.log2
    if e ≤ 52 then (e + 1023) <<< 52 + ((m <<< (52 - e)) - 2 ^ 52)
    else
      let s := e - 52
      let q := m >>> s
      let r := m % 2 ^ s
      let half := 2 ^ (s - 1)
      let q' := if half < r ∨ (r = half ∧ q % 2 = 1) then q + 1 else q
      -- a carry out of the significand moves the exponent on by itself
      (e + 1023) <<< 52 + (q' - 2 ^ 52)

def F64.ofI64 (x : Int64) : F64 :=
  let sign := if x.toInt < 0 then 2 ^ 63 else 0
  ⟨UInt64.ofNat (sign + bitsOfNat x.toInt.natAbs)⟩

example : F64.ofI64 (-3) = ⟨0xC008000000000000⟩ := by decide

end Veldb
