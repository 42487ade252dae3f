import Veldb.Column
import Veldb.Floats

/-! The query plan: bound expressions, and the walk and substitution over them. -/

namespace Veldb

inductive BinOp where
  | add | sub | mul | div | mod | eq | notEq | lt | ltEq | gt | gtEq | and | or
  deriving DecidableEq, Repr

inductive UnOp where
  | not | neg
  deriving DecidableEq, Repr

inductive AggFunc where
  | count | sum | avg | min | max
  deriving DecidableEq, Repr

inductive Metric where
  | l2 | cosine | negInnerProduct
  deriving DecidableEq, Repr

inductive ScalarFunc where
  | length | lower | upper | abs | floor | ceil | round | sqrt | substring
  | extractHour | extractMinute | extractDay | extractMonth | extractYear
  | coalesce | ifThen | dateTrunc
  deriving DecidableEq, Repr

/-- `==` on values, as derived: floating-point numbers compare by IEEE rules. -/
def Value.eq : Value → Value → Bool
  | .i64 a, .i64 b => a == b
  | .f64 a, .f64 b => a.eq b
  | .bool a, .bool b => a == b
  | .str a, .str b => a == b
  | .vector a, .vector b => a.length == b.length && (a.zip b).all (fun p => p.1.eq p.2)
  | _, _ => false

def valuesEq (a b : List Value) : Bool :=
  a.length == b.length && (a.zip b).all (fun p => p.1.eq p.2)

/-- `col` indexes the source schema: of the table, or of the frame after grouping. -/
inductive Expr where
  | col (i : Nat)
  | lit (v : Value)
  | binary (op : BinOp) (l r : Expr)
  | unary (op : UnOp) (e : Expr)
  | like (e : Expr) (pattern : String) (negated caseInsensitive : Bool)
  | inList (e : Expr) (list : List Value) (negated : Bool)
  | between (e low high : Expr) (negated : Bool)
  | func (func : ScalarFunc) (args : List Expr)
  | distance (metric : Metric) (col : Nat) (query : List F32)
  | agg (func : AggFunc) (arg : Option Expr) (distinct : Bool)
  | cast (e : Expr) (ty : DataType)

namespace Expr

theorem induct {P : Expr → Prop}
    (col : ∀ i, P (.col i)) (lit : ∀ v, P (.lit v))
    (binary : ∀ op l r, P l → P r → P (.binary op l r))
    (unary : ∀ op e, P e → P (.unary op e))
    (like : ∀ e pattern negated ci, P e → P (.like e pattern negated ci))
    (inList : ∀ e list negated, P e → P (.inList e list negated))
    (between : ∀ e low high negated, P e → P low → P high → P (.between e low high negated))
    (func : ∀ f args, (∀ a ∈ args, P a) → P (.func f args))
    (distance : ∀ metric c query, P (.distance metric c query))
    (agg : ∀ f arg distinct, (∀ a ∈ arg, P a) → P (.agg f arg distinct))
    (cast : ∀ e ty, P e → P (.cast e ty)) (e : Expr) : P e :=
  @Expr.rec P (fun as => ∀ a ∈ as, P a) (fun o => ∀ a ∈ o, P a)
    col lit binary unary like inList between func distance agg cast
    (by simp) (fun a as ha has => by simpa using ⟨ha, has⟩)
    (by simp) (fun a ha => by simpa using ha) e

mutual

def eq : Expr → Expr → Bool
  | .col i, .col j => i == j
  | .lit v, .lit w => v.eq w
  | .binary op l r, .binary op' l' r' => op == op' && eq l l' && eq r r'
  | .unary op e, .unary op' e' => op == op' && eq e e'
  | .like e p n c, .like e' p' n' c' => eq e e' && p == p' && n == n' && c == c'
  | .inList e vs n, .inList e' vs' n' => eq e e' && valuesEq vs vs' && n == n'
  | .between e lo hi n, .between e' lo' hi' n' => eq e e' && eq lo lo' && eq hi hi' && n == n'
  | .func f as, .func f' as' => f == f' && eqArgs as as'
  | .distance m c q, .distance m' c' q' =>
    m == m' && c == c' && (q.length == q'.length && (q.zip q').all (fun p => p.1.eq p.2))
  | .agg f a d, .agg f' a' d' => f == f' && eqArg a a' && d == d'
  | .cast e ty, .cast e' ty' => eq e e' && ty == ty'
  | _, _ => false

def eqArgs : List Expr → List Expr → Bool
  | [], [] => true
  | a :: as, b :: bs => eq a b && eqArgs as bs
  | _, _ => false

def eqArg : Option Expr → Option Expr → Bool
  | none, none => true
  | some a, some b => eq a b
  | _, _ => false

end

mutual

/-- `walk` threads what the closure captures; `true` stops the descent. -/
def walk {σ : Type} (f : Expr → σ → Bool × σ) (e : Expr) (s : σ) : σ :=
  if (f e s).1 then (f e s).2
  else
    let s := (f e s).2
    match e with
    | .binary _ l r => walk f r (walk f l s)
    | .unary _ e => walk f e s
    | .cast e _ => walk f e s
    | .like e _ _ _ => walk f e s
    | .inList e _ _ => walk f e s
    | .between e low high _ => walk f high (walk f low (walk f e s))
    | .func _ args => walkArgs f args s
    | .agg _ arg _ => walkArg f arg s
    | .col _ => s
    | .lit _ => s
    | .distance _ _ _ => s

def walkArgs {σ : Type} (f : Expr → σ → Bool × σ) (as : List Expr) (s : σ) : σ :=
  match as with
  | [] => s
  | a :: as => walkArgs f as (walk f a s)

def walkArg {σ : Type} (f : Expr → σ → Bool × σ) (a : Option Expr) (s : σ) : σ :=
  match a with
  | none => s
  | some a => walk f a s

end

def isAgg : Expr → Bool
  | .agg _ _ _ => true
  | _ => false

def containsAgg (e : Expr) : Bool :=
  e.walk (fun e found => (found || e.isAgg, found || e.isAgg)) false

mutual

/-- Replaces the topmost nodes equal to a pattern; a replacement is not searched again. -/
def substitute (pats : List (Expr × Expr)) (e : Expr) : Expr :=
  match pats.find? (fun p => e.eq p.1) with
  | some p => p.2
  | none =>
    match e with
    | .binary op l r => .binary op (substitute pats l) (substitute pats r)
    | .unary op e => .unary op (substitute pats e)
    | .cast e ty => .cast (substitute pats e) ty
    | .like e pattern negated ci => .like (substitute pats e) pattern negated ci
    | .inList e list negated => .inList (substitute pats e) list negated
    | .between e low high negated =>
      .between (substitute pats e) (substitute pats low) (substitute pats high) negated
    | .func f args => .func f (substituteArgs pats args)
    | .agg f arg distinct => .agg f (substituteArg pats arg) distinct
    | .col i => .col i
    | .lit v => .lit v
    | .distance m c q => .distance m c q

def substituteArgs (pats : List (Expr × Expr)) (as : List Expr) : List Expr :=
  match as with
  | [] => []
  | a :: as => substitute pats a :: substituteArgs pats as

def substituteArg (pats : List (Expr × Expr)) (a : Option Expr) : Option Expr :=
  match a with
  | none => none
  | some a => some (substitute pats a)

end

def children : Expr → List Expr
  | .binary _ l r => [l, r]
  | .unary _ e => [e]
  | .like e _ _ _ => [e]
  | .inList e _ _ => [e]
  | .between e low high _ => [e, low, high]
  | .func _ args => args
  | .agg _ arg _ => arg.toList
  | .cast e _ => [e]
  | .col _ => []
  | .lit _ => []
  | .distance _ _ _ => []

theorem induct_children {P : Expr → Prop} (step : ∀ e, (∀ c ∈ e.children, P c) → P e)
    (e : Expr) : P e := by
  induction e using Expr.induct with
  | func f args ih => exact step _ ih
  | agg f arg distinct ih => exact step _ (fun c hc => ih c (by simpa [children] using hc))
  | binary op l r hl hr => exact step _ (by simp [children, hl, hr])
  | between e low high negated he hl hh => exact step _ (by simp [children, he, hl, hh])
  | unary op e he => exact step _ (by simp [children, he])
  | like e pattern negated ci he => exact step _ (by simp [children, he])
  | inList e list negated he => exact step _ (by simp [children, he])
  | cast e ty he => exact step _ (by simp [children, he])
  | col i => exact step _ (by simp [children])
  | lit v => exact step _ (by simp [children])
  | distance metric c query => exact step _ (by simp [children])

mutual

def subexprs (e : Expr) : List Expr :=
  e :: match e with
    | .binary _ l r => subexprs l ++ subexprs r
    | .unary _ e => subexprs e
    | .like e _ _ _ => subexprs e
    | .inList e _ _ => subexprs e
    | .between e low high _ => subexprs e ++ (subexprs low ++ subexprs high)
    | .func _ args => subexprsArgs args
    | .agg _ arg _ => subexprsArg arg
    | .cast e _ => subexprs e
    | .col _ => []
    | .lit _ => []
    | .distance _ _ _ => []

def subexprsArgs (as : List Expr) : List Expr :=
  match as with
  | [] => []
  | a :: as => subexprs a ++ subexprsArgs as

def subexprsArg (a : Option Expr) : List Expr :=
  match a with
  | none => []
  | some a => subexprs a

end

theorem mem_subexprsArgs {as : List Expr} {d : Expr} :
    d ∈ subexprsArgs as ↔ ∃ a ∈ as, d ∈ a.subexprs := by
  induction as with
  | nil => simp [subexprsArgs]
  | cons b as ih => simp [subexprsArgs, ih]

theorem mem_subexprs {e d : Expr} :
    d ∈ e.subexprs ↔ d = e ∨ ∃ c ∈ e.children, d ∈ c.subexprs := by
  cases e with
  | func f args => simp [subexprs, children, mem_subexprsArgs]
  | agg f arg distinct => cases arg <;> simp [subexprs, children, subexprsArg]
  | _ => simp [subexprs, children]

theorem mem_subexprs_self (e : Expr) : e ∈ e.subexprs :=
  mem_subexprs.mpr (Or.inl rfl)

theorem mem_subexprs_child {e c d : Expr} (hc : c ∈ e.children) (hd : d ∈ c.subexprs) :
    d ∈ e.subexprs :=
  mem_subexprs.mpr (Or.inr ⟨c, hc, hd⟩)

theorem mem_subexprs_trans {e d c : Expr} (hc : c ∈ d.subexprs) (hd : d ∈ e.subexprs) :
    c ∈ e.subexprs := by
  induction e using Expr.induct_children with
  | step e ih =>
    rcases mem_subexprs.mp hd with rfl | ⟨a, ha, hda⟩
    · exact hc
    · exact mem_subexprs_child ha (ih a ha hda)

end Expr

structure Projection where
  expr : Expr
  aliasName : String

structure OrderKey where
  expr : Expr
  asc : Bool

structure Select where
  table : Option String
  filter : Option Expr
  groupBy : List Expr
  having : Option Expr
  projection : List Projection
  orderBy : List OrderKey
  limit : Option Nat
  offset : Nat

def Select.isAggregate (s : Select) : Bool :=
  !s.groupBy.isEmpty || s.projection.any (·.expr.containsAgg) || s.orderBy.any (·.expr.containsAgg)

end Veldb
