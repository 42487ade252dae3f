import Mathlib.Data.Finset.Card
import Veldb.Eval
import Veldb.Codec

/-! Running a `SELECT`: filter, grouping, `HAVING`, order and the select list. After
grouping the expressions are rewritten onto a frame of keys and aggregates. -/

namespace Veldb

structure QueryResult where
  columns : List String
  types : List DataType
  rows : List (List Value)
  deriving DecidableEq

/-- `n as u32`. -/
def asU32 (n : Nat) : Nat := n % 2 ^ 32

def addUsize (a b : Nat) : Exec Nat :=
  if a + b < usizeRange then .ok (a + b) else crash "attempt to add with overflow"

def cmpArr (a : Arr) (i j : Nat) : Exec Ordering :=
  match a with
  | .i64 v => return compare (← index v i) (← index v j)
  | .f64 v => return (← index v i).totalCmp (← index v j)
  | .bool v => return compare (← index v i) (← index v j)
  | .str v => return compare (← index v i) (← index v j)
  | .vector _ _ => .ok .eq

/-- The comparison of `order_and_limit`: key by key, then by position. -/
def cmpKeys : List (Arr × Bool) → Nat → Nat → Exec Ordering
  | [], a, b => .ok (compare a b)
  | (arr, up) :: keys, a, b => do
    match ← cmpArr arr a b with
    | .eq => cmpKeys keys a b
    | o => return if up then o else o.swap

/-- `start as u32..end as u32`. -/
def u32Range (start stop : Nat) : List Nat :=
  (List.range (asU32 stop - asU32 start)).map (asU32 start + ·)

def evalKeys (rt : Runtime) (f : Frame) (sel : Sel) (keys : List OrderKey) :
    Exec (List (Arr × Bool)) :=
  keys.mapM (fun k => do return (← eval rt f sel k.expr, k.asc))

def orderAndLimit (rt : Runtime) (f : Frame) (sel : Sel) (keys : List OrderKey)
    (limit : Option Nat) (offset : Nat) : Exec Sel := do
  let n := sel.len
  if keys.isEmpty then
    let start := min offset n
    let stop ← match limit with
      | none => pure n
      | some l => (min · n) <$> addUsize start l
    if start = 0 ∧ stop = n then return sel else sel.permute (u32Range start stop)
  else
    let arrays ← evalKeys rt f sel keys
    let idx := List.range (asU32 n)
    let need ← limit.mapM (fun l => (min · n) <$> addUsize offset l)
    let idx ← match need with
      | some k =>
        if k * 4 < n then do
          let part ← rt.selectNthUnstableBy k (cmpKeys arrays) idx
          rt.sortUnstableBy (cmpKeys arrays) (part.take k)
        else rt.sortUnstableBy (cmpKeys arrays) idx
      | none => rt.sortUnstableBy (cmpKeys arrays) idx
    let start := min offset idx.length
    let stop ← match limit with
      | none => pure idx.length
      | some l => (min · idx.length) <$> addUsize start l
    sel.permute ((idx.take stop).drop start)

/-- The bytes of one key in the composite key of a row. -/
def keyBytes (k : Arr) (i : Nat) : Exec Bytes :=
  match k with
  | .i64 v => return Writer.u64 (← pick v i).toUInt64
  | .f64 v => return Writer.u64 (← pick v i).bits
  | .bool v => return [← pick v i]
  | .str v => do
    let s ← pick v i
    return Writer.u32 (UInt32.ofNat (utf8 s).length) ++ utf8 s
  | .vector _ _ => bail "группировка по векторной колонке не поддерживается"

def rowKey (keys : List Arr) (i : Nat) : Exec Bytes := do
  return (← keys.mapM (fun k => keyBytes k i)).flatten

/-- One row of `assign_groups`: the composite keys seen, with their ids, and the ids so far. -/
def assignStep (keys : List Arr) (s : List (Bytes × Nat) × List Nat) (i : Nat) :
    Exec (List (Bytes × Nat) × List Nat) := do
  let buf ← rowKey keys i
  match s.1.lookup buf with
  | some id => return (s.1, s.2 ++ [id])
  | none => return (s.1 ++ [(buf, asU32 s.1.length)], s.2 ++ [asU32 s.1.length])

def assignGroups (keys : List Arr) (n : Nat) : Exec (List Nat × Nat) := do
  if keys.isEmpty then return (List.replicate n 0, 1)
  else
    let s ← (List.range n).foldlM (assignStep keys) ([], [])
    return (s.2, s.1.length)

/-- `acc[g] = f(acc[g])`. -/
def bump {α : Type} (acc : List α) (g : Nat) (f : α → α) : Exec (List α) := do
  let a ← index acc g
  return acc.set g (f a)

def pickFirstPerGroup (a : Arr) (groupOf : List Nat) (ngroups : Nat) : Exec Arr := do
  let src ← (groupOf.zip (List.range groupOf.length)).foldlM (fun (src : List (Option Nat)) p =>
    bump src p.1 (fun s => s.orElse (fun _ => some (if a.len = 1 then 0 else p.2))))
    (List.replicate ngroups none)
  let entry {α : Type} (v : List α) (s : Option Nat) : Exec α :=
    match s with
    | some i => index v i
    | none => crash "index out of bounds"
  match a with
  | .i64 v => return .i64 (← src.mapM (entry v))
  | .f64 v => return .f64 (← src.mapM (entry v))
  | .bool v => return .bool (← src.mapM (entry v))
  | .str v => return .str (← src.mapM (entry v))
  | .vector dim rows => return .vector dim (← src.mapM (entry rows))

def valueKey (rt : Runtime) (a : Arr) (i : Nat) : Exec UInt64 :=
  match a with
  | .i64 v => return (← pick v i).toUInt64
  | .f64 v => return (← pick v i).bits
  | .bool v => return (← pick v i).toUInt64
  | .str v => return rt.fxHash (← pick v i)
  | .vector _ _ => .ok 0

/-- The loop of an aggregate: `f` takes the accumulator of the row's group on. -/
def foldGroups {α β : Type} (n : Nat) (groupOf : List Nat) (v : Nat → Exec β) (f : β → α → α)
    (acc : List α) : Exec (List α) :=
  (List.range n).foldlM (fun acc i => do
    let g ← index groupOf i
    let x ← v i
    bump acc g (f x)) acc

def countRows (n : Nat) (groupOf : List Nat) (ngroups : Nat) : Exec Column := do
  let counts ← (groupOf.take n).foldlM (fun counts g => bump counts g (· + 1))
    (List.replicate ngroups (0 : Nat))
  return .i64 (counts.map Int64.ofNat)

def better {α : Type} (choose : α → α → α) (x : α) : Option α → Option α
  | none => some x
  | some cur => some (choose cur x)

def sumAgg (rt : Runtime) (v : Arr) (n : Nat) (groupOf : List Nat) (ngroups : Nat) :
    Exec Column :=
  match v with
  | .i64 x =>
    return .i64 (← foldGroups n groupOf (pick x) (fun x a => saturatingI64 (a.toInt + x.toInt))
      (List.replicate ngroups 0))
  | other => do
    let x ← other.toF64
    return .f64 (← foldGroups n groupOf (pick x) (fun x a => rt.add a x)
      (List.replicate ngroups F64.zero))

/-- A group without rows has average 0. -/
def avgAgg (rt : Runtime) (v : Arr) (n : Nat) (groupOf : List Nat) (ngroups : Nat) :
    Exec Column := do
  let x ← v.toF64
  let sums ← foldGroups n groupOf (pick x) (fun x a => (rt.add a.1 x, rt.add a.2 F64.one))
    (List.replicate ngroups (F64.zero, F64.zero))
  return .f64 (sums.map (fun s => if s.2.eq F64.zero then F64.zero else rt.div s.1 s.2))

def extremeAgg (rt : Runtime) (isMin : Bool) (v : Arr) (n : Nat) (groupOf : List Nat) (ngroups : Nat) :
    Exec Column :=
  match v with
  | .str x => do
    let acc ← foldGroups n groupOf (pick x)
      (better (fun cur s => if decide (s < cur) == isMin then s else cur))
      (List.replicate ngroups none)
    return .str ((acc.map (·.getD "")).foldl StrColumn.push StrColumn.new)
  | .i64 x => do
    let acc ← foldGroups n groupOf (pick x)
      (better (fun cur val => if isMin then min cur val else max cur val))
      (List.replicate ngroups none)
    return .i64 (acc.map (·.getD 0))
  | other => do
    let x ← other.toF64
    let acc ← foldGroups n groupOf (pick x)
      (better (fun cur val => if isMin then rt.min cur val else rt.max cur val))
      (List.replicate ngroups none)
    return .f64 (acc.map (·.getD F64.zero))

def distinctAgg (rt : Runtime) (v : Arr) (n : Nat) (groupOf : List Nat) (ngroups : Nat) :
    Exec Column := do
  let sets ← foldGroups n groupOf (valueKey rt v) (fun x (s : Finset UInt64) => insert x s)
    (List.replicate ngroups ∅)
  return .i64 (sets.map (fun s => Int64.ofNat s.card))

def runAgg (rt : Runtime) (agg : Expr) (base : Frame) (sel : Sel) (groupOf : List Nat)
    (ngroups : Nat) : Exec Column :=
  match agg with
  | .agg func arg distinct =>
    match arg with
    | none => countRows sel.len groupOf ngroups
    | some arg => do
      let v ← eval rt base sel arg
      if distinct then distinctAgg rt v sel.len groupOf ngroups
      else
        match func with
        | .count => countRows sel.len groupOf ngroups
        | .sum => sumAgg rt v sel.len groupOf ngroups
        | .avg => avgAgg rt v sel.len groupOf ngroups
        | .min => extremeAgg rt true v sel.len groupOf ngroups
        | .max => extremeAgg rt false v sel.len groupOf ngroups
  | _ => bail "run_agg вызван не на агрегате"

structure Grouped where
  columns : List Column
  ngroups : Nat
  projection : List Projection
  orderBy : List OrderKey
  having : Option Expr

/-- One aggregate for each different expression, in the order of the walk. -/
def collectAggs (e : Expr) (aggs : List Expr) : List Expr :=
  e.walk (fun node aggs =>
    if node.isAgg then (true, if aggs.any (fun a => node.eq a) then aggs else aggs ++ [node])
    else (false, aggs)) aggs

namespace Select

def aggs (plan : Select) : List Expr :=
  let aggs := plan.projection.foldl (fun aggs p => collectAggs p.expr aggs) []
  let aggs := plan.orderBy.foldl (fun aggs o => collectAggs o.expr aggs) aggs
  match plan.having with
  | some h => collectAggs h aggs
  | none => aggs

/-- Aggregates come before the keys, so that `sum(x)` of a key `x` is taken as a whole. -/
def pats (plan : Select) : List (Expr × Expr) :=
  plan.aggs.zipIdx.map (fun a => (a.1, .col (plan.groupBy.length + a.2))) ++
    plan.groupBy.zipIdx.map (fun g => (g.1, .col g.2))

def rewrite (plan : Select) (e : Expr) : Expr :=
  e.substitute plan.pats

/-- The plan over the intermediate frame. -/
def rewritten (plan : Select) : Select :=
  { plan with
    having := plan.having.map plan.rewrite
    projection := plan.projection.map (fun p => { p with expr := plan.rewrite p.expr })
    orderBy := plan.orderBy.map (fun o => { o with expr := plan.rewrite o.expr }) }

end Select

def isColFrom (width : Nat) : Expr → Bool
  | .col i => decide (width ≤ i)
  | _ => false

def refersPast (width : Nat) (e : Expr) : Bool :=
  e.walk (fun node bad => (bad || isColFrom width node, bad || isColFrom width node)) false

def checkProjection (width : Nat) : List Projection → Exec Unit
  | [] => .ok ()
  | p :: ps =>
    if refersPast width p.expr then bail s!"'{p.aliasName}' не агрегат и не входит в GROUP BY"
    else checkProjection width ps

/-- The keys of the groups and the aggregates over them, and the number of groups. -/
def groupColumns (rt : Runtime) (plan : Select) (base : Frame) (sel : Sel) :
    Exec (List Column × Nat) := do
  let keys ← plan.groupBy.mapM (eval rt base sel)
  let (groupOf, ngroups) ← assignGroups keys sel.len
  let keyCols ← keys.mapM (fun a => do
    return (← pickFirstPerGroup a groupOf ngroups).intoColumn)
  let aggCols ← plan.aggs.mapM (fun agg => runAgg rt agg base sel groupOf ngroups)
  return (keyCols ++ aggCols, ngroups)

def aggregate (rt : Runtime) (plan : Select) (base : Frame) (sel : Sel) : Exec Grouped := do
  let (columns, ngroups) ← groupColumns rt plan base sel
  checkProjection columns.length plan.rewritten.projection
  return ⟨columns, ngroups, plan.rewritten.projection, plan.rewritten.orderBy, plan.rewritten.having⟩

def runFilter (rt : Runtime) (base : Frame) (nrows : Nat) (filter : Option Expr) : Exec Sel := do
  match filter with
  | none => return .all nrows
  | some f =>
    let mask ← eval rt base (.all nrows) f
    let mask ← withContext "WHERE должен давать логическое значение" mask.asBool
    match mask with
    | [m] => return if m ≠ 0 then .all nrows else .ids []
    | mask => return .ids ((mask.zipIdx.filter (fun m => m.1 ≠ 0)).map (fun m => asU32 m.2))

def runHaving (rt : Runtime) (f : Frame) (sel : Sel) (having : Option Expr) : Exec Sel := do
  match having with
  | none => return sel
  | some h =>
    let mask ← eval rt f sel h
    let mask ← withContext "HAVING должен давать логическое значение" mask.asBool
    match mask with
    | [m] => return if m ≠ 0 then sel else .ids []
    | mask =>
      let ids ← (List.range sel.len).filterMapM (fun i => do
        if (← index mask i) ≠ 0 then return some (asU32 (← sel.row i)) else return none)
      return .ids ids

/-- The last part of `run_select`: `HAVING`, order, limit and the select list over a frame. -/
def finishSelect (rt : Runtime) (f : Frame) (sel : Sel) (having : Option Expr)
    (orderBy : List OrderKey) (limit : Option Nat) (offset : Nat) (projection : List Projection) :
    Exec QueryResult := do
  let sel ← runHaving rt f sel having
  let sel ← orderAndLimit rt f sel orderBy limit offset
  let arrays ← projection.mapM (fun p => eval rt f sel p.expr)
  let rows ← (List.range sel.len).mapM (fun i => arrays.mapM (fun a => a.value i))
  return ⟨projection.map (·.aliasName), arrays.map Arr.dataType, rows⟩

def sourceFrame : Option Table → Frame
  | some t => .ofTable t
  | none => ⟨[]⟩

/-- Without a table there is one row and no column. -/
def sourceRows : Option Table → Nat
  | some t => t.nrows
  | none => 1

def runSelect (rt : Runtime) (plan : Select) (table : Option Table) : Exec QueryResult := do
  let base := sourceFrame table
  let sel ← runFilter rt base (sourceRows table) plan.filter
  if plan.isAggregate then
    let g ← aggregate rt plan base sel
    finishSelect rt ⟨g.columns⟩ (.all g.ngroups) g.having g.orderBy plan.limit plan.offset
      g.projection
  else finishSelect rt base sel none plan.orderBy plan.limit plan.offset plan.projection

end Veldb
