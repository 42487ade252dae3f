import Veldb.Library.Attempts
import Veldb.Like
import Veldb.Plan
import Veldb.Table

/-! Vectorised evaluation: every node of an expression is computed for the whole
selection; an array of length 1 is a constant. -/

namespace Veldb

/-- What evaluation takes from the standard library and from rounded arithmetic.
The sorts are given the comparison, which may panic, and an index list. -/
structure Runtime where
  add : F64 → F64 → F64
  sub : F64 → F64 → F64
  mul : F64 → F64 → F64
  div : F64 → F64 → F64
  rem : F64 → F64 → F64
  floor : F64 → F64
  ceil : F64 → F64
  round : F64 → F64
  sqrt : F64 → F64
  /-- Which of two equal zeros `f64::min` gives is left open. -/
  min : F64 → F64 → F64
  max : F64 → F64 → F64
  powi : F64 → Int32 → F64
  ofF32 : F32 → F64
  dot : List F32 → List F32 → F32
  l2Sq : List F32 → List F32 → F32
  cosineDistance : List F32 → List F32 → F32
  toLowercase : String → String
  toUppercase : String → String
  /-- `x.trim().parse::<i64>()` -/
  parseI64 : String → Option Int64
  parseF64 : String → Option F64
  showF64 : F64 → String
  showF32 : F32 → String
  fxHash : String → UInt64
  sortUnstableBy : (Nat → Nat → Exec Ordering) → List Nat → Exec (List Nat)
  selectNthUnstableBy : Nat → (Nat → Nat → Exec Ordering) → List Nat → Exec (List Nat)

/-- The element of row `i`, an array of length 1 being broadcast. -/
def pick {α : Type} (v : List α) (i : Nat) : Exec α :=
  index v (if v.length = 1 then 0 else i)

/-- Integer arithmetic is checked, as in a build with overflow checks. -/
def checkedI64 (n : Int) : Exec Int64 :=
  if -2 ^ 63 ≤ n ∧ n < 2 ^ 63 then .ok (Int64.ofInt n) else crash "arithmetic overflow"

def saturatingI64 (n : Int) : Int64 :=
  if n < -2 ^ 63 then Int64.minValue else if 2 ^ 63 ≤ n then Int64.maxValue else Int64.ofInt n

def boolByte (b : Bool) : UInt8 :=
  if b then 1 else 0

structure Frame where
  cols : List Column

def Frame.ofTable (t : Table) : Frame :=
  ⟨t.columns⟩

/-- Row numbers are `u32` in the source; what makes them is reduced there. -/
inductive Sel where
  | all (n : Nat)
  | ids (v : List Nat)

namespace Sel

def len : Sel → Nat
  | .all n => n
  | .ids v => v.length

def row (s : Sel) (i : Nat) : Exec Nat :=
  match s with
  | .all _ => .ok i
  | .ids v => index v i

def permute (s : Sel) (order : List Nat) : Exec Sel := do
  return .ids (← order.mapM (fun i => do return (← s.row i) % 2 ^ 32))

end Sel

inductive Arr where
  | i64 (v : List Int64)
  | f64 (v : List F64)
  | bool (v : List UInt8)
  | str (v : List String)
  | vector (dim : UInt64) (rows : List (List F32))
  deriving DecidableEq

namespace Arr

def len : Arr → Nat
  | .i64 v => v.length
  | .f64 v => v.length
  | .bool v => v.length
  | .str v => v.length
  | .vector _ rows => rows.length

def dataType : Arr → DataType
  | .i64 _ => .i64
  | .f64 _ => .f64
  | .bool _ => .bool
  | .str _ => .str
  | .vector dim _ => .vector dim

def value (a : Arr) (i : Nat) : Exec Value :=
  match a with
  | .i64 v => return .i64 (← pick v i)
  | .f64 v => return .f64 (← pick v i)
  | .bool v => return .bool ((← pick v i) != 0)
  | .str v => return .str (← pick v i)
  | .vector _ rows => return .vector (← pick rows i)

def asBool : Arr → Exec (List UInt8)
  | .bool v => .ok v
  | other => bail s!"ожидалось логическое выражение, получено {other.dataType.name}"

def toF64 : Arr → Exec (List F64)
  | .f64 v => .ok v
  | .i64 v => .ok (v.map F64.ofI64)
  | .bool v => .ok (v.map (fun x => F64.ofI64 (Int64.ofNat x.toNat)))
  | other => bail s!"ожидалось число, получено {other.dataType.name}"

def intoColumn : Arr → Column
  | .i64 v => .i64 v
  | .f64 v => .f64 v
  | .bool v => .bool v
  | .str v => .str (v.foldl StrColumn.push StrColumn.new)
  | .vector dim rows => .vector dim rows.flatten

end Arr

/-- What is done where two lengths do not go together. -/
structure LengthErrors where
  pair : Nat → Nat → Exec Nat
  node : Nat → Arr → Exec Arr

namespace LengthErrors

/-- The errors of the source. -/
def source : LengthErrors where
  pair l r := bail s!"несовместимые длины операндов: {l} и {r}"
  node n a := bail s!"выражение дало {a.len} значений вместо {n}"

variable (errs : LengthErrors)

def pairLen (l r : Nat) : Exec Nat :=
  if l = r then .ok l
  else if l = 1 then .ok r
  else if r = 1 then .ok l
  else errs.pair l r

/-- Broadcasting relies on this: a result has one value, or one for each row. -/
def checkLen (n : Nat) (a : Arr) : Exec Arr :=
  if a.len = n ∨ a.len = 1 then .ok a else errs.node n a

end LengthErrors

def pairLen : Nat → Nat → Exec Nat :=
  LengthErrors.source.pairLen

def checkLen : Nat → Arr → Exec Arr :=
  LengthErrors.source.checkLen

theorem pairLen_source (l r : Nat) : pairLen l r =
    if l = r then .ok l
    else if l = 1 then .ok r
    else if r = 1 then .ok l
    else bail s!"несовместимые длины операндов: {l} и {r}" := rfl

theorem checkLen_source (n : Nat) (a : Arr) : checkLen n a =
    if a.len = n ∨ a.len = 1 then .ok a
    else bail s!"выражение дало {a.len} значений вместо {n}" := rfl

def zipMap {α β γ : Type} (n : Nat) (l : List α) (r : List β) (f : α → β → Exec γ) :
    Exec (List γ) :=
  (List.range n).mapM (fun i => do f (← pick l i) (← pick r i))

def BinOp.isCmp (op : BinOp) : Bool :=
  op ∈ [.eq, .notEq, .lt, .ltEq, .gt, .gtEq]

def cmpOk (op : BinOp) (o : Ordering) : Exec Bool :=
  match op with
  | .eq => .ok (o == .eq)
  | .notEq => .ok (o != .eq)
  | .lt => .ok (o == .lt)
  | .ltEq => .ok (o != .gt)
  | .gt => .ok (o == .gt)
  | .gtEq => .ok (o != .lt)
  | _ => crash "unreachable"

def intArith (op : BinOp) (a b : Int64) : Exec Int64 :=
  match op with
  | .add => .ok (saturatingI64 (a.toInt + b.toInt))
  | .sub => .ok (saturatingI64 (a.toInt - b.toInt))
  | .mul => .ok (saturatingI64 (a.toInt * b.toInt))
  | .mod => .ok (if b = 0 then 0 else a % b)
  | _ => crash "unreachable"

def floatArith (rt : Runtime) (op : BinOp) (a b : F64) : Exec F64 :=
  match op with
  | .add => .ok (rt.add a b)
  | .sub => .ok (rt.sub a b)
  | .mul => .ok (rt.mul a b)
  | .div => .ok (rt.div a b)
  | .mod => .ok (rt.rem a b)
  | _ => crash "unreachable"

def logic (op : BinOp) (a b : UInt8) : Exec UInt8 :=
  .ok (boolByte (if op = .and then a != 0 && b != 0 else a != 0 || b != 0))

/-- NaN equals nothing, itself included. -/
def floatCmp (op : BinOp) (a b : F64) : Exec UInt8 :=
  match a.partialCmp b with
  | some o => return boolByte (← cmpOk op o)
  | none => .ok (boolByte (op == .notEq))

/-- The path over `f64`, for operands that are not both integers, and for division. -/
def evalFloats (rt : Runtime) (op : BinOp) (n : Nat) (l r : Arr) : Exec Arr := do
  let lf ← l.toF64
  let rf ← r.toF64
  if op.isCmp then return .bool (← zipMap n lf rf (floatCmp op))
  else return .f64 (← zipMap n lf rf (floatArith rt op))

/-- A binary operation behind `pair_len`. -/
def binaryAt (rt : Runtime) (op : BinOp) (l r : Arr) (n : Nat) : Exec Arr :=
  if op = .and ∨ op = .or then do
    let lb ← l.asBool
    let rb ← r.asBool
    return .bool (← zipMap n lb rb (logic op))
  else
    match l, r with
    | .str ls, .str rs =>
      if op.isCmp then do
        return .bool (← zipMap n ls rs (fun a b => do return boolByte (← cmpOk op (compare a b))))
      else bail "арифметический оператор применён к строкам"
    | .str _, _ => bail "сравнение строки с числом: приведите типы явно через CAST"
    | _, .str _ => bail "сравнение строки с числом: приведите типы явно через CAST"
    | .i64 ls, .i64 rs =>
      if op.isCmp then do
        return .bool (← zipMap n ls rs (fun a b => do return boolByte (← cmpOk op (compare a b))))
      else if op ≠ .div then do return .i64 (← zipMap n ls rs (intArith op))
      else evalFloats rt op n l r
    | l, r => evalFloats rt op n l r

def LengthErrors.evalBinary (errs : LengthErrors) (rt : Runtime) (op : BinOp) (l r : Arr) :
    Exec Arr :=
  errs.pairLen l.len r.len >>= binaryAt rt op l r

def evalBinary (rt : Runtime) : BinOp → Arr → Arr → Exec Arr :=
  LengthErrors.source.evalBinary rt

theorem evalBinary_eq_at (rt : Runtime) (op : BinOp) (l r : Arr) :
    evalBinary rt op l r = pairLen l.len r.len >>= binaryAt rt op l r := rfl

/-- A dense column is handed over whole when every row is selected. -/
def gatherDense {α : Type} (mk : List α → Arr) (v : List α) : Sel → Exec Arr
  | .all _ => .ok (mk v)
  | .ids ids => return mk (← ids.mapM (index v))

def gather (col : Column) (sel : Sel) : Exec Arr :=
  match col with
  | .i64 v => gatherDense .i64 v sel
  | .f64 v => gatherDense .f64 v sel
  | .bool v => gatherDense .bool v sel
  | .str s => return .str (← (List.range sel.len).mapM (fun i => do s.get (← sel.row i)))
  | .vector dim data =>
    return .vector dim (← (List.range sel.len).mapM (fun i => do
      match ← (Column.vector dim data).vectorAt (← sel.row i) with
      | some v => return v
      | none => crash "Option::unwrap"))

def distanceOf (rt : Runtime) (metric : Metric) (v q : List F32) : F64 :=
  rt.ofF32 (match metric with
    | .l2 => rt.l2Sq v q
    | .cosine => rt.cosineDistance v q
    | .negInnerProduct => (rt.dot v q).neg)

def distances (rt : Runtime) (col : Column) (sel : Sel) (metric : Metric) (q : List F32) :
    Exec (List F64) :=
  match col with
  | .vector dim _ =>
    if dim.toNat ≠ q.length then
      bail s!"вектор запроса длины {q.length}, колонка VECTOR({dim.toNat})"
    else
      (List.range sel.len).mapM (fun i => do
        match ← col.vectorAt (← sel.row i) with
        | some v => return distanceOf rt metric v q
        | none => crash "Option::unwrap")
  | _ => bail "метрика применима только к VECTOR-колонке"

def render (rt : Runtime) : Value → String
  | .i64 x => toString x.toInt
  | .f64 x => rt.showF64 x
  | .bool x => toString x
  | .str x => x
  | .vector x => "[" ++ String.intercalate "," (x.map rt.showF32) ++ "]"

def cast (rt : Runtime) (v : Arr) (ty : DataType) : Exec Arr :=
  match ty with
  | .i64 =>
    match v with
    | .str s => .ok (.i64 (s.map (fun x => (rt.parseI64 x).getD 0)))
    | other => return .i64 ((← other.toF64).map F64.toI64)
  | .f64 =>
    match v with
    | .str s => .ok (.f64 (s.map (fun x => (rt.parseF64 x).getD F64.zero)))
    | other => return .f64 (← other.toF64)
  | .bool => return .bool ((← v.toF64).map (fun x => boolByte (!x.eq F64.zero)))
  | .str => return .str (← (List.range v.len).mapM (fun i => do return render rt (← v.value i)))
  | .vector _ => bail "CAST в VECTOR не поддерживается"

/-- Days since the epoch to year, month and day of the Gregorian calendar. -/
def civilFromDays (z : Int) : Int × Int × Int :=
  let z := z + 719468
  let era := z / 146097
  let doe := z % 146097
  let yoe := (doe - doe / 1460 + doe / 36524 - doe / 146096) / 365
  let y := yoe + era * 400
  let doy := doe - (365 * yoe + yoe / 4 - yoe / 100)
  let mp := (5 * doy + 2) / 153
  let d := doy - (153 * mp + 2) / 5 + 1
  let m := if mp < 10 then mp + 3 else mp - 9
  (if m ≤ 2 then y + 1 else y, m, d)

def extractPart (func : ScalarFunc) (ts : Int64) : Int64 :=
  let days := ts.toInt / 86400
  let secs := ts.toInt % 86400
  Int64.ofInt (match func with
    | .extractHour => secs / 3600
    | .extractMinute => secs % 3600 / 60
    | .extractDay => (civilFromDays days).2.2
    | .extractMonth => (civilFromDays days).2.1
    | _ => (civilFromDays days).1)

example : civilFromDays 19782 = (2024, 2, 29) := by decide

def dateStep (unit : String) : Exec Int :=
  if unit = "second" then .ok 1
  else if unit = "minute" then .ok 60
  else if unit = "hour" then .ok 3600
  else if unit = "day" then .ok 86400
  else bail s!"date_trunc: единица '{unit}' не поддерживается"

def substringOf (rt : Runtime) (src : String) (start : F64) (count : Option F64) : Exec String := do
  -- SQL counts characters from one
  let from1 ← checkedI64 (start.toI64.toInt - 1)
  let rest := src.toList.drop (max from1.toInt 0).toNat
  match count with
  | some c => return String.ofList (rest.take (rt.max c F64.zero).toUsize)
  | none => return String.ofList rest

/-- The digits of `round` are read from the first entry of the argument. -/
def roundDigits : Option Arr → Exec Int32
  | none => .ok 0
  | some a => return ((← a.toF64).head?.getD F64.zero).toI32

/-- A constant next to an empty selection must not give a value, so the first
argument that is not one value sets the length. -/
def callLen (args : List Arr) : Nat :=
  ((args.map Arr.len).find? (· != 1)).getD 1

def floatCall (g : F64 → F64) (args : List Arr) : Exec Arr := do
  return .f64 ((← (← index args 0).toF64).map g)

def caseCall (g : String → String) (args : List Arr) : Exec Arr := do
  match ← index args 0 with
  | .str s => return .str (s.map g)
  | other => bail s!"lower/upper применимы к строкам, получено {other.dataType.name}"

def extractCall (func : ScalarFunc) (args : List Arr) : Exec Arr := do
  return .i64 ((← (← index args 0).toF64).map (fun x => extractPart func x.toI64))

def roundCall (rt : Runtime) (args : List Arr) : Exec Arr := do
  let v ← (← index args 0).toF64
  let k := rt.powi F64.ten (← roundDigits args[1]?)
  return .f64 (v.map (fun x => rt.div (rt.round (rt.mul x k)) k))

def substringCall (rt : Runtime) (args : List Arr) : Exec Arr := do
  match ← index args 0 with
  | .str s =>
    let start ← (← index args 1).toF64
    let count ← args[2]?.mapM Arr.toF64
    return .str (← (List.range (callLen args)).mapM (fun i => do
      substringOf rt (← pick s i) (← pick start i) (← count.mapM (fun c => pick c i))))
  | _ => bail "substring применим к строкам"

/-- The unit is read from the first entry of its argument. -/
def dateTruncCall (rt : Runtime) (args : List Arr) : Exec Arr := do
  match ← index args 0 with
  | .str unit =>
    let secs ← (← index args 1).toF64
    let step ← dateStep (rt.toLowercase (← index unit 0))
    return .i64 (← secs.mapM (fun x => checkedI64 (x.toI64.toInt / step * step)))
  | _ => bail "date_trunc: первым аргументом единица времени, например 'minute'"

def ifPick {α : Type} (n : Nat) (cond : List UInt8) (x y : List α) : Exec (List α) :=
  (List.range n).mapM (fun i => do if (← pick cond i) ≠ 0 then pick x i else pick y i)

def ifBranches (n : Nat) (cond : List UInt8) (a b : Arr) : Exec Arr :=
  match a, b with
  | .str x, .str y => return .str (← ifPick n cond x y)
  | a, b => return .f64 (← ifPick n cond (← a.toF64) (← b.toF64))

def ifCall (args : List Arr) : Exec Arr := do
  let cond ← (← index args 0).asBool
  ifBranches (callLen args) cond (← index args 1) (← index args 2)

def scalarFunc (rt : Runtime) (func : ScalarFunc) (args : List Arr) : Exec Arr :=
  match func with
  | .length => do
    match ← index args 0 with
    | .str s => return .i64 (s.map (fun x => Int64.ofNat x.length))
    | other => bail s!"length применим к строкам, получено {other.dataType.name}"
  | .lower => caseCall rt.toLowercase args
  | .upper => caseCall rt.toUppercase args
  | .abs => do
    match ← index args 0 with
    | .i64 v => return .i64 (v.map (fun x => saturatingI64 x.toInt.natAbs))
    | other => return .f64 ((← other.toF64).map F64.abs)
  | .floor => floatCall rt.floor args
  | .ceil => floatCall rt.ceil args
  | .sqrt => floatCall rt.sqrt args
  | .round => roundCall rt args
  | .substring => substringCall rt args
  | .extractHour | .extractMinute | .extractDay | .extractMonth | .extractYear =>
    extractCall func args
  | .dateTrunc => dateTruncCall rt args
  | .coalesce => index args 0
  | .ifThen => ifCall args

def evalLit : Value → Exec Arr
  | .i64 x => .ok (.i64 [x])
  | .f64 x => .ok (.f64 [x])
  | .bool x => .ok (.bool [boolByte x])
  | .str x => .ok (.str [x])
  | .vector _ => bail "вектор допустим только как аргумент метрики"

def evalUnary (op : UnOp) (v : Arr) : Exec Arr :=
  match op with
  | .not => return .bool ((← v.asBool).map (fun x => boolByte (x == 0)))
  | .neg =>
    match v with
    | .i64 x => .ok (.i64 (x.map (fun v => saturatingI64 (-v.toInt))))
    | other => return .f64 ((← other.toF64).map F64.neg)

def evalLike (rt : Runtime) (v : Arr) (pattern : String) (negated caseInsensitive : Bool) :
    Exec Arr :=
  match v with
  | .str items =>
    let pat := Pattern.compile (if caseInsensitive then rt.toLowercase pattern else pattern)
    .ok (.bool (items.map (fun s =>
      boolByte ((pat.matches (if caseInsensitive then rt.toLowercase s else s)) != negated))))
  | _ => bail "LIKE применим только к строкам"

/-- `*m |= b` over the two arrays side by side. -/
def orMask : List UInt8 → List UInt8 → List UInt8
  | m :: ms, b :: bs => (m ||| b) :: orMask ms bs
  | ms, _ => ms

def flipMask (mask : List UInt8) : List UInt8 :=
  mask.map (fun m => boolByte (m == 0))

def negateMask (negated : Bool) : Arr → Arr
  | .bool b => .bool (if negated then flipMask b else b)
  | m => m

namespace LengthErrors

variable (errs : LengthErrors) (rt : Runtime)

def inListStep (n : Nat) (v : Arr) (mask : List UInt8) (lit : Value) : Exec (List UInt8) := do
  let cmp ← errs.evalBinary rt .eq v (← errs.checkLen n (← evalLit lit))
  return orMask mask (← cmp.asBool)

def evalInList (n : Nat) (v : Arr) (list : List Value) (negated : Bool) : Exec Arr := do
  let mask ← list.foldlM (errs.inListStep rt n v) (List.replicate v.len 0)
  return .bool (if negated then flipMask mask else mask)

def evalBetween (v low : Arr) (high : Exec Arr) (negated : Bool) : Exec Arr := do
  let lo ← errs.evalBinary rt .gtEq v low
  let hi ← errs.evalBinary rt .ltEq v (← high)
  return negateMask negated (← errs.evalBinary rt .and lo hi)

mutual

def eval (f : Frame) (sel : Sel) (e : Expr) : Exec Arr :=
  (match e with
    | .col i =>
      match f.cols[i]? with
      | some c => gather c sel
      | none => bail "индекс колонки вне схемы кадра"
    | .lit v => evalLit v
    | .binary op l r => do errs.evalBinary rt op (← eval f sel l) (← eval f sel r)
    | .unary op e => do evalUnary op (← eval f sel e)
    | .like e pattern negated ci => do evalLike rt (← eval f sel e) pattern negated ci
    | .inList e list negated => do errs.evalInList rt sel.len (← eval f sel e) list negated
    | .between e low high negated => do
      errs.evalBetween rt (← eval f sel e) (← eval f sel low) (eval f sel high) negated
    | .cast e ty => do cast rt (← eval f sel e) ty
    | .func func args => do scalarFunc rt func (← evalArgs f sel args)
    | .distance metric col query =>
      match f.cols[col]? with
      | some c => Arr.f64 <$> distances rt c sel metric query
      | none => bail "индекс векторной колонки вне схемы"
    | .agg _ _ _ => bail "агрегат вычисляется на этапе группировки, а не здесь") >>=
  errs.checkLen sel.len

def evalArgs (f : Frame) (sel : Sel) (as : List Expr) : Exec (List Arr) :=
  match as with
  | [] => .ok []
  | a :: as => do
    let v ← eval f sel a
    return v :: (← evalArgs f sel as)

end

end LengthErrors

def inListStep (rt : Runtime) : Nat → Arr → List UInt8 → Value → Exec (List UInt8) :=
  LengthErrors.source.inListStep rt

def evalInList (rt : Runtime) : Nat → Arr → List Value → Bool → Exec Arr :=
  LengthErrors.source.evalInList rt

def evalBetween (rt : Runtime) : Arr → Arr → Exec Arr → Bool → Exec Arr :=
  LengthErrors.source.evalBetween rt

def eval (rt : Runtime) : Frame → Sel → Expr → Exec Arr :=
  LengthErrors.source.eval rt

def evalArgs (rt : Runtime) : Frame → Sel → List Expr → Exec (List Arr) :=
  LengthErrors.source.evalArgs rt

theorem inListStep_source (rt : Runtime) (n : Nat) (v : Arr) (mask : List UInt8) (lit : Value) :
    inListStep rt n v mask lit = (do
      let cmp ← evalBinary rt .eq v (← checkLen n (← evalLit lit))
      return orMask mask (← cmp.asBool)) := rfl

theorem evalInList_source (rt : Runtime) (n : Nat) (v : Arr) (list : List Value) (negated : Bool) :
    evalInList rt n v list negated = (do
      let mask ← list.foldlM (inListStep rt n v) (List.replicate v.len 0)
      return .bool (if negated then flipMask mask else mask)) := rfl

theorem evalBetween_source (rt : Runtime) (v low : Arr) (high : Exec Arr) (negated : Bool) :
    evalBetween rt v low high negated = (do
      let lo ← evalBinary rt .gtEq v low
      let hi ← evalBinary rt .ltEq v (← high)
      return negateMask negated (← evalBinary rt .and lo hi)) := rfl

section

variable (rt : Runtime) (f : Frame) (sel : Sel)

theorem eval_col (c : Nat) : eval rt f sel (.col c) =
    f.cols[c]?.elim (bail "индекс колонки вне схемы кадра") (fun col => gather col sel) >>=
      checkLen sel.len := by
  rw [eval, LengthErrors.eval]
  cases f.cols[c]? <;> rfl

theorem eval_lit (v : Value) : eval rt f sel (.lit v) = evalLit v >>= checkLen sel.len := rfl

theorem eval_binary (op : BinOp) (l r : Expr) : eval rt f sel (.binary op l r) =
    (do evalBinary rt op (← eval rt f sel l) (← eval rt f sel r)) >>= checkLen sel.len := rfl

theorem eval_unary (op : UnOp) (e : Expr) : eval rt f sel (.unary op e) =
    (eval rt f sel e >>= evalUnary op) >>= checkLen sel.len := rfl

theorem eval_like (e : Expr) (pattern : String) (negated ci : Bool) :
    eval rt f sel (.like e pattern negated ci) =
      (eval rt f sel e >>= fun v => evalLike rt v pattern negated ci) >>= checkLen sel.len := rfl

theorem eval_inList (e : Expr) (list : List Value) (negated : Bool) :
    eval rt f sel (.inList e list negated) =
      (eval rt f sel e >>= fun v => evalInList rt sel.len v list negated) >>= checkLen sel.len := rfl

theorem eval_between (e low high : Expr) (negated : Bool) :
    eval rt f sel (.between e low high negated) =
      (do evalBetween rt (← eval rt f sel e) (← eval rt f sel low) (eval rt f sel high) negated) >>=
        checkLen sel.len := rfl

theorem eval_cast (e : Expr) (ty : DataType) : eval rt f sel (.cast e ty) =
    (eval rt f sel e >>= fun v => cast rt v ty) >>= checkLen sel.len := rfl

theorem eval_func (func : ScalarFunc) (args : List Expr) : eval rt f sel (.func func args) =
    (evalArgs rt f sel args >>= scalarFunc rt func) >>= checkLen sel.len := rfl

theorem eval_distance (metric : Metric) (c : Nat) (query : List F32) :
    eval rt f sel (.distance metric c query) =
      f.cols[c]?.elim (bail "индекс векторной колонки вне схемы")
        (fun col => Arr.f64 <$> distances rt col sel metric query) >>= checkLen sel.len := by
  rw [eval, LengthErrors.eval]
  cases f.cols[c]? <;> rfl

theorem eval_agg (func : AggFunc) (arg : Option Expr) (distinct : Bool) :
    eval rt f sel (.agg func arg distinct) =
      bail "агрегат вычисляется на этапе группировки, а не здесь" := rfl

theorem eval_checked (e : Expr) : ∃ r, eval rt f sel e = r >>= checkLen sel.len := by
  cases e <;> exact ⟨_, rfl⟩

/-- The check of the length does not change what a node computed. -/
theorem eval_node {rt : Runtime} {f : Frame} {sel : Sel} {e : Expr} {a : Arr} {r : Exec Arr}
    (heq : eval rt f sel e = r >>= checkLen sel.len) (h : eval rt f sel e = .ok a) : r = .ok a := by
  rw [heq] at h
  obtain ⟨b, hb, hcheck⟩ := Attempts.bind_eq_ok.mp h
  rw [checkLen_source] at hcheck
  split at hcheck
  · obtain rfl := Except.ok.inj hcheck
    exact hb
  · cases hcheck

theorem evalArgs_nil : evalArgs rt f sel [] = .ok [] := rfl

theorem evalArgs_cons (a : Expr) (as : List Expr) : evalArgs rt f sel (a :: as) =
    (do
      let v ← eval rt f sel a
      return v :: (← evalArgs rt f sel as)) := rfl

theorem evalArgs_eq_mapM (as : List Expr) :
    evalArgs rt f sel as = as.mapM (eval rt f sel) := by
  induction as with
  | nil => rfl
  | cons a as ih => rw [evalArgs_cons, ih, List.mapM_cons]

end

def insertBy (cmp : Nat → Nat → Exec Ordering) (x : Nat) : List Nat → Exec (List Nat)
  | [] => return [x]
  | y :: ys => do
    if (← cmp x y) = .gt then return y :: (← insertBy cmp x ys) else return x :: y :: ys

def sortBy (cmp : Nat → Nat → Exec Ordering) : List Nat → Exec (List Nat)
  | [] => return []
  | x :: xs => do insertBy cmp x (← sortBy cmp xs)

def selectBy (k : Nat) (cmp : Nat → Nat → Exec Ordering) (rows : List Nat) : Exec (List Nat) :=
  if k < rows.length then sortBy cmp rows else crash "index past the end of the slice"

/-- Enough for inputs that need no rounded arithmetic: ASCII case and the sorts do what
the library does, a float operation returns an operand. -/
def plainRuntime : Runtime where
  add a _ := a
  sub a _ := a
  mul a _ := a
  div a _ := a
  rem a _ := a
  floor a := a
  ceil a := a
  round a := a
  sqrt a := a
  min a b := if b.key < a.key then b else a
  max a b := if a.key < b.key then b else a
  powi a _ := a
  ofF32 _ := F64.zero
  dot _ _ := ⟨0⟩
  l2Sq _ _ := ⟨0⟩
  cosineDistance _ _ := ⟨0⟩
  toLowercase s := String.ofList (s.toList.map Char.toLower)
  toUppercase s := String.ofList (s.toList.map Char.toUpper)
  parseI64 _ := none
  parseF64 _ := none
  showF64 _ := ""
  showF32 _ := ""
  fxHash _ := 0
  sortUnstableBy := sortBy
  selectNthUnstableBy := selectBy

end Veldb
