import Veldb.CallCrashes
import Veldb.Grouping

/-! Evaluation of an expression panics exactly when it comes to a part that has no value:
a call that overflows or a text that its arena does not hold. -/

namespace Veldb

open Attempts Arr

/-- Calls have as many arguments as the planner lets through. -/
def Expr.Callable (e : Expr) : Prop :=
  ∀ func args, .func func args ∈ e.subexprs → arityOk func args.length = true

theorem Expr.Callable.child {e c : Expr} (h : e.Callable) (hc : c ∈ e.children) : c.Callable :=
  fun func args hmem => h func args (mem_subexprs_child hc hmem)

variable {rt : Runtime} {f : Frame} {s : Sel} {n : Nat}

theorem evaluated_sized {es : List Expr} {A : List Arr} (h : es.mapM (eval rt f s) = .ok A) :
    ∀ a ∈ A, a.Sized s.len := by
  intro a ha
  obtain ⟨e, -, he⟩ := exists_of_mem_mapM h ha
  exact eval_sized he

theorem evalArgs_sized {args : List Expr} {A : List Arr} (h : evalArgs rt f s args = .ok A) :
    A.length = args.length ∧ ∀ a ∈ A, a.Sized s.len := by
  rw [evalArgs_eq_mapM] at h
  exact ⟨mapM_length h, evaluated_sized h⟩

end Veldb
