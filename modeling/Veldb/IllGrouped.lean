import Veldb.QueryTypes

/-! When an ill-grouped query is refused. Beside the width of the frame of keys and aggregates, which the
code compares a stray number with, only the types and the rows stop such a query, and they stop it with
the stray number read as a column of that frame. -/

namespace Veldb

open Attempts Arr Predictions

section Units

variable {rt : Runtime} {f : Frame} {s : Sel} {e : Expr} {a : Arr} {A : List Arr}

end Units

section Answers

variable {rt : Runtime} {f : Frame} {s : Sel} {plan : Select} {table : Option Table}
  {r : QueryResult}

end Answers

def Refused (rt : Runtime) (plan : Select) (table : Option Table) : Prop :=
  ∀ r, runSelect rt plan table ≠ .ok r

end Veldb
