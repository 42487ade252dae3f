import Veldb.AggregateRewriting
import Veldb.Library.FirstOccurrences
import Veldb.RowSemantics

/-! What a `SELECT` means as a whole. With groups, rows of equal keys make one, where the first of
them stands; an aggregate is taken over the rows of its group, a key is that of its first row, and
the rest of an expression is put together from these. -/

namespace Veldb

open FirstOccurrences

/-- The argument of an aggregate in each row. Where there is no row, the types of the columns give
its type. -/
def argRows (rt : Runtime) (types : List DataType) (rows : List (List Value)) (a : Expr) :
    Exec Arr := do
  match ← rows.mapM (cell rt · a) with
  | [] => (← eval rt ⟨types.map Column.empty⟩ (.all 0) a).select []
  | x :: xs => xs.foldlM Arr.append x

def aggRows (rt : Runtime) (types : List DataType) (rows : List (List Value)) : Expr → Exec Arr
  | .agg _ none _ => .ok (countOf rows.length)
  | .agg func (some a) distinct => do
    let v ← argRows rt types rows a
    if distinct then distinctOf rt rows.length v
    else
      match func with
      | .count => return countOf rows.length
      | .sum => sumOf rt v
      | .avg => avgOf rt v
      | .min => extremeOf rt true v
      | .max => extremeOf rt false v
  | _ => bail "run_agg вызван не на агрегате"

/-- The key of a group. -/
def keyRows (rt : Runtime) (rows : List (List Value)) (key : Expr) : Exec Arr :=
  match rows.head? with
  | some row => cell rt row key
  | none => crash "index out of bounds"

def groupLeaf (rt : Runtime) (plan : Select) (types : List DataType) (rows : List (List Value))
    (e : Expr) : Option (Exec Arr) :=
  if e.isAgg then some (aggRows rt types rows e)
  else (plan.groupBy.find? (fun k => e.eq k)).map (keyRows rt rows)

/-- The value of an expression in a group. -/
def groupCell (rt : Runtime) (plan : Select) (types : List DataType) (rows : List (List Value))
    (e : Expr) : Exec Arr :=
  evalWith rt (groupLeaf rt plan types rows) e

namespace Select

def rowKeys (rt : Runtime) (plan : Select) (row : List Value) : Exec (List Arr) :=
  plan.groupBy.mapM (cell rt row)

/-- Without keys there is one group, also of no rows. -/
def groups (rt : Runtime) (plan : Select) (rows : List (List Value)) :
    Exec (List (List (List Value))) := do
  if plan.groupBy.isEmpty then return [rows]
  else
    let keys ← rows.mapM (plan.rowKeys rt)
    return (firsts keys).map (fun k => marked rows (keys.map (· == k)))

/-- The answer over a list of rows. -/
def answer (rt : Runtime) (plan : Select) (types : List DataType) (rows : List (List Value)) :
    Exec (List (List Value)) := do
  let picked ← chosen (cell rt) plan.filter rows
  if plan.isAggregate then
    let groups ← plan.groups rt picked
    plan.page (groupCell rt plan types) (← chosen (groupCell rt plan types) plan.having groups)
  else plan.page (cell rt) picked

end Select

end Veldb
