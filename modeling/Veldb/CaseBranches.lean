import Veldb.CallCrashes
import Veldb.DroppedClauses
import Veldb.IntExact

/-! CASE as nested conditionals against the choice of the first branch that applies. -/

namespace Veldb

open Attempts Arr

/-- A bound CASE; with an operand the first part of a branch is a value, else a condition. -/
structure Case where
  operand : Option Expr
  whens : List (Expr × Expr)
  els : Option Expr

namespace Case

def condition (c : Case) (w : Expr) : Expr :=
  c.operand.elim w (fun op => .binary .eq op w)

/-- The conditions with their results. -/
def branches (c : Case) : List (Expr × Expr) :=
  c.whens.map fun w => (c.condition w.1, w.2)

/-- The parts are what planning makes of the parts of the text. -/
structure Binds (tx : Texts) (schema : Schema) (operand : Option Sa.Expr)
    (conditions : List Sa.CaseWhen) (elseResult : Option Sa.Expr) (c : Case) : Prop where
  operand : bindOption tx schema operand = c.operand.map .ok
  whens : List.Forall₂ (fun w p => ∃ condition result, w = .mk condition result ∧
    bindExpr tx schema condition = .ok p.1 ∧ bindExpr tx schema result = .ok p.2) conditions c.whens
  els : bindOption tx schema elseResult = c.els.map .ok

end Case

def nestedIf (branches : List (Expr × Expr)) (out : Expr) : Expr :=
  branches.foldr (fun w out => .func .ifThen [w.1, w.2, out]) out

/-- What CASE is bound to. -/
def Case.nested (c : Case) : Expr :=
  nestedIf c.branches (c.els.getD (.lit (.str "")))

/-- The types the results of a CASE may share. -/
inductive ResultKind where
  | text
  | number

namespace ResultKind

def neutral : ResultKind → Value
  | .text => .str ""
  | .number => .i64 0

def Has : ResultKind → Arr → Prop
  | .text, a => a.dataType = .str
  | .number, a => a.dataType = .i64 ∨ a.dataType = .f64

end ResultKind

section Choice

variable (rt : Runtime) (f : Frame) (sel : Sel) (i : Nat)

def valueAt (e : Expr) : Exec Value := do
  (← eval rt f sel e).value i

def holdsAt (e : Expr) : Bool :=
  valueAt rt f sel i e = .ok (.bool true)

/-- The result of the first branch whose condition holds, else that of ELSE. -/
def firstMatch (branches : List (Expr × Expr)) (els : Option Expr) : Option Expr :=
  ((branches.find? fun w => holdsAt rt f sel i w.1).map Prod.snd).or els

/-- The value of a CASE at a row. -/
def Case.value (kind : ResultKind) (c : Case) : Exec Value :=
  (firstMatch rt f sel i c.branches c.els).elim (.ok kind.neutral) (valueAt rt f sel i)

end Choice

/-- What a finite double without its sign is, as a multiple of the least positive one. -/
def F64.unitsOf (magnitude : Nat) : Nat :=
  ((if magnitude / 2 ^ 52 = 0 then 0 else 2 ^ 52) + magnitude % 2 ^ 52) *
    2 ^ (magnitude / 2 ^ 52 - 1)

def F64.units (x : F64) : Int :=
  if x.isNegative then -(unitsOf x.magnitude : Int) else unitsOf x.magnitude

/-- The double is finite and equal to the integer. -/
def F64.IsInt (x : F64) (n : Int) : Prop :=
  x.magnitude < 0x7FF0000000000000 ∧ x.units = n * 2 ^ 1074

/-- The values are equal, an INT being equal to a DOUBLE that is this integer. -/
def Value.Same : Value → Value → Prop
  | .i64 n, .f64 x => x.IsInt n.toInt
  | v, w => v = w

/-- Evaluation succeeds and gives in every selected row the value of the CASE. -/
def Case.FirstMatch (rt : Runtime) (f : Frame) (sel : Sel) (kind : ResultKind) (c : Case)
    (e : Expr) : Prop :=
  ∃ a, eval rt f sel e = .ok a ∧ ∀ i < sel.len, ∃ v w, c.value rt f sel i kind = .ok v ∧
    a.value i = .ok w ∧ v.Same w

/-- The results as far as they have values: THEN of every branch, and ELSE. -/
def Case.results (c : Case) : List Expr :=
  c.whens.map Prod.snd ++ c.els.toList

def Case.ResultsAre (rt : Runtime) (f : Frame) (sel : Sel) (kind : ResultKind) (c : Case) : Prop :=
  ∀ r ∈ c.results, ∀ a, eval rt f sel r = .ok a → kind.Has a

/-- Every part has values on the selected rows, the conditions truth values. -/
def Case.Evaluates (rt : Runtime) (f : Frame) (sel : Sel) (c : Case) : Prop :=
  (∀ w ∈ c.branches, ∃ b, eval rt f sel w.1 = .ok (.bool b)) ∧
    ∀ r ∈ c.results, ∃ a, eval rt f sel r = .ok a

section Binding

variable {tx : Texts} {schema : Schema} {operand : Option Sa.Expr} {conditions : List Sa.CaseWhen}
  {elseResult : Option Sa.Expr} {e : Expr}

theorem bindOption_getD {o : Option Sa.Expr} {d r : Expr}
    (h : (bindOption tx schema o).getD (.ok d) = .ok r) :
    ∃ x : Option Expr, bindOption tx schema o = x.map .ok ∧ x.getD d = r := by
  cases o with
  | none => exact ⟨none, rfl, Except.ok.inj h⟩
  | some s => exact ⟨some r, congrArg some h, rfl⟩

theorem bindWhens_cons {o : Option (Exec Expr)} (condition result : Sa.Expr) (out : Expr) :
    bindWhens tx schema o (.mk condition result :: conditions) out = (do
      let out ← bindWhens tx schema o conditions out
      let cond ← whenCondition o (bindExpr tx schema condition)
      return .func .ifThen [cond, ← bindExpr tx schema result, out]) := rfl

/-- The operand is bound anew for every branch, each time to the same expression. -/
theorem whenCondition_operand {condition : Sa.Expr} {cond : Expr}
    (h : whenCondition (bindOption tx schema operand) (bindExpr tx schema condition) = .ok cond) :
    ∃ o : Option Expr, bindOption tx schema operand = o.map .ok := by
  cases operand with
  | none => exact ⟨none, rfl⟩
  | some s =>
    obtain ⟨op, hop, -⟩ := bind_eq_ok.mp h
    exact ⟨some op, congrArg some hop⟩

theorem whenCondition_eq_ok {o : Option Expr} {condition : Sa.Expr} {cond : Expr}
    (h : whenCondition (o.map .ok) (bindExpr tx schema condition) = .ok cond) :
    ∃ w, bindExpr tx schema condition = .ok w ∧ o.elim w (fun op => .binary .eq op w) = cond := by
  cases o with
  | none => exact ⟨cond, h, rfl⟩
  | some op => exact bind_pure_eq_ok.mp h

theorem bindWhens_nested {o : Option Expr} {out : Expr}
    (h : bindWhens tx schema (o.map .ok) conditions out = .ok e) :
    ∃ whens : List (Expr × Expr),
      List.Forall₂ (fun w p => ∃ condition result, w = Sa.CaseWhen.mk condition result ∧
        bindExpr tx schema condition = .ok p.1 ∧ bindExpr tx schema result = .ok p.2)
        conditions whens ∧
      nestedIf (whens.map fun w => (o.elim w.1 (fun op => .binary .eq op w.1), w.2)) out = e := by
  induction conditions generalizing e with
  | nil => exact ⟨[], .nil, Except.ok.inj h⟩
  | cons w conditions ih =>
    cases w with
    | mk condition result =>
      rw [bindWhens_cons] at h
      obtain ⟨inner, hinner, h⟩ := bind_eq_ok.mp h
      obtain ⟨cond, hcond, h⟩ := bind_eq_ok.mp h
      obtain ⟨r, hr, rfl⟩ := bind_pure_eq_ok.mp h
      obtain ⟨whens, hwhens, rfl⟩ := ih hinner
      obtain ⟨p, hp, rfl⟩ := whenCondition_eq_ok hcond
      exact ⟨(p, r) :: whens, .cons ⟨condition, result, rfl, hp, hr⟩ hwhens, rfl⟩

theorem bindExpr_case {w : Sa.CaseWhen}
    (h : bindExpr tx schema (.case operand (w :: conditions) elseResult) = .ok e) :
    ∃ c : Case, c.Binds tx schema operand (w :: conditions) elseResult ∧ c.nested = e := by
  obtain ⟨out, hout, h⟩ := bind_eq_ok.mp h
  obtain ⟨els, hels, rfl⟩ := bindOption_getD hout
  have ho : ∃ o : Option Expr, bindOption tx schema operand = o.map .ok := by
    cases w with
    | mk condition result =>
      rw [bindWhens_cons] at h
      obtain ⟨inner, -, h⟩ := bind_eq_ok.mp h
      obtain ⟨cond, hcond, -⟩ := bind_eq_ok.mp h
      exact whenCondition_operand hcond
  obtain ⟨o, ho⟩ := ho
  rw [ho] at h
  obtain ⟨whens, hwhens, rfl⟩ := bindWhens_nested h
  exact ⟨⟨o, whens, els⟩, ⟨ho, hwhens, hels⟩, rfl⟩

theorem bound_inj {o o' : Option Expr} (h : o.map (Except.ok : Expr → Exec Expr) = o'.map .ok) :
    o = o' :=
  Option.map_injective (fun _ _ => Except.ok.inj) h

/-- The text determines the parts. -/
theorem Case.Binds.unique {c c' : Case} (h : c.Binds tx schema operand conditions elseResult)
    (h' : c'.Binds tx schema operand conditions elseResult) : c = c' := by
  have hwhens : c.whens = c'.whens := by
    refine List.forall₂_eq_eq_eq ▸ List.forall₂_iff_get.mpr ⟨?_, fun i hi hi' => ?_⟩
    · exact h.whens.length_eq.symm.trans h'.whens.length_eq
    · have hlen : i < conditions.length := h.whens.length_eq ▸ hi
      obtain ⟨condition, result, hw, hp, hr⟩ := h.whens.get hlen hi
      obtain ⟨condition', result', hw', hp', hr'⟩ := h'.whens.get hlen hi'
      obtain ⟨rfl, rfl⟩ := Sa.CaseWhen.mk.inj (hw.symm.trans hw')
      exact Prod.ext (Except.ok.inj (hp.symm.trans hp')) (Except.ok.inj (hr.symm.trans hr'))
  have hoperand := bound_inj (h.operand.symm.trans h'.operand)
  have hels := bound_inj (h.els.symm.trans h'.els)
  cases c
  cases c'
  simp_all

end Binding

section Conditional

variable {α : Type} {n N i : Nat} {kind : ResultKind}

theorem callLen_sized {args : List Arr} (hA : ∀ a ∈ args, a.Sized N) :
    callLen args = N ∨ callLen args = 1 := by
  rcases callLen_cases args with h1 | ⟨a, ha, hlen⟩
  · exact Or.inr h1
  · exact hlen ▸ hA a ha

theorem ifPick_total {cond : List UInt8} {x y : List α} (hn : n = N ∨ n = 1)
    (hc : cond.length = n ∨ cond.length = 1) (hx : x.length = n ∨ x.length = 1)
    (hy : y.length = n ∨ y.length = 1) :
    ∃ w, ifPick n cond x y = .ok w ∧ w.length = n ∧ ∀ i < N, ∃ b p q, pick cond i = .ok b ∧
      pick x i = .ok p ∧ pick y i = .ok q ∧ pick w i = .ok (if b ≠ 0 then p else q) := by
  have hrow : ∀ i < n, ∃ z, (do if (← pick cond i) ≠ 0 then pick x i else pick y i) = .ok z := by
    intro i hi
    obtain ⟨b, hb⟩ := pick_exists hi hc
    obtain ⟨p, hp⟩ := pick_exists hi hx
    obtain ⟨q, hq⟩ := pick_exists hi hy
    exact ⟨if b ≠ 0 then p else q, by rw [hb, hp, hq, ok_bind, ← apply_ite]⟩
  obtain ⟨w, hw⟩ := mapM_total fun i hi => hrow i (List.mem_range.mp hi)
  refine ⟨w, hw, mapM_range_length hw, fun i hi => ?_⟩
  obtain ⟨b, hb⟩ := pick_exists hi (show cond.length = N ∨ cond.length = 1 by omega)
  obtain ⟨p, hp⟩ := pick_exists hi (show x.length = N ∨ x.length = 1 by omega)
  obtain ⟨q, hq⟩ := pick_exists hi (show y.length = N ∨ y.length = 1 by omega)
  obtain ⟨z, hz, hpick⟩ := pick_range hw hi hn fun h1 => by
    rw [pick_const (by omega) 0 i, pick_const (by omega : x.length = 1) 0 i,
      pick_const (by omega : y.length = 1) 0 i]
  rw [hb, hp, hq, ok_bind, ← apply_ite] at hz
  exact ⟨b, p, q, hb, hp, hq, hpick.trans hz.symm⟩

/-- What becomes of a value in the branch of a conditional. -/
def widen : Value → Value
  | .i64 x => .f64 (F64.ofI64 x)
  | v => v

theorem toF64_widen {a : Arr} (h : ResultKind.number.Has a) :
    ∃ x, a.toF64 = .ok x ∧
      ∀ i v, a.value i = .ok v → ∃ p, pick x i = .ok p ∧ widen v = .f64 p := by
  rcases h with h | h
  · cases a with
    | i64 w =>
      refine ⟨_, rfl, fun i v hv => ?_⟩
      obtain ⟨p, hp, rfl⟩ := bind_pure_eq_ok.mp hv
      exact ⟨_, pick_map _ hp, rfl⟩
    | _ => cases h
  · cases a with
    | f64 w =>
      refine ⟨_, rfl, fun i v hv => ?_⟩
      obtain ⟨p, hp, rfl⟩ := bind_pure_eq_ok.mp hv
      exact ⟨p, hp, rfl⟩
    | _ => cases h

theorem value_exists {a : Arr} (ha : a.Sized N) (hi : i < N) : ∃ v, a.value i = .ok v := by
  obtain ⟨b, hb⟩ := row_exists ha hi
  obtain ⟨v, hv, -⟩ := row_value hb 0
  exact ⟨v, hv⟩

theorem ifCall_bool (c : List UInt8) (x y : Arr) :
    ifCall [.bool c, x, y] = ifBranches (callLen [.bool c, x, y]) c x y := rfl

/-- A conditional over results of one kind has in every row the value of the branch its
condition chooses there, an integer as a double. -/
theorem ifCall_total {c : List UInt8} {x y : Arr} (hA : ∀ a ∈ [Arr.bool c, x, y], a.Sized N)
    (hx : kind.Has x) (hy : kind.Has y) :
    ∃ a, ifCall [.bool c, x, y] = .ok a ∧ a.Sized N ∧ kind.Has a ∧ ∀ i < N, ∃ b v,
      pick c i = .ok b ∧ (if b ≠ 0 then x else y).value i = .ok v ∧ a.value i = .ok (widen v) := by
  have hn := callLen_sized hA
  have hcs : (Arr.bool c).Sized _ := sized_callLen hA (by simp)
  have hxs : x.Sized _ := sized_callLen hA (by simp)
  have hys : y.Sized _ := sized_callLen hA (by simp)
  rw [ifCall_bool]
  cases kind with
  | text =>
    cases x with
    | str s =>
      cases y with
      | str t =>
        obtain ⟨w, hw, hlen, hrow⟩ := ifPick_total hn hcs hxs hys
        have hsized : (Arr.str w).Sized N := by
          show w.length = N ∨ w.length = 1
          rwa [hlen]
        refine ⟨.str w, bind_pure_eq_ok.mpr ⟨w, hw, rfl⟩, hsized, rfl, fun i hi => ?_⟩
        obtain ⟨b, p, q, hb, hp, hq, hpick⟩ := hrow i hi
        refine ⟨b, .str (if b ≠ 0 then p else q), hb, ?_, bind_pure_eq_ok.mpr ⟨_, hpick, rfl⟩⟩
        by_cases hb0 : b ≠ 0
        · rw [if_pos hb0, if_pos hb0]
          exact bind_pure_eq_ok.mpr ⟨p, hp, rfl⟩
        · rw [if_neg hb0, if_neg hb0]
          exact bind_pure_eq_ok.mpr ⟨q, hq, rfl⟩
      | _ => cases hy
    | _ => cases hx
  | number =>
    have hstr : ¬ (x.dataType = .str ∧ y.dataType = .str) := by
      rintro ⟨h, -⟩
      rcases hx with h' | h' <;> exact absurd (h.symm.trans h') (by simp)
    obtain ⟨u, hu, huv⟩ := toF64_widen hx
    obtain ⟨v, hv, hvv⟩ := toF64_widen hy
    obtain ⟨w, hw, hlen, hrow⟩ := ifPick_total hn hcs (toF64_sized hxs hu) (toF64_sized hys hv)
    have hsized : (Arr.f64 w).Sized N := by
      show w.length = N ∨ w.length = 1
      rwa [hlen]
    refine ⟨.f64 w, ?_, hsized, Or.inr rfl, fun i hi => ?_⟩
    · rw [ifBranches_eq_floats hstr, hu, ok_bind, hv, ok_bind, hw]
      rfl
    · obtain ⟨b, p, q, hb, hp, hq, hpick⟩ := hrow i hi
      obtain ⟨xv, hxv⟩ := value_exists (hA x (by simp)) hi
      obtain ⟨yv, hyv⟩ := value_exists (hA y (by simp)) hi
      obtain ⟨p', hp', hwx⟩ := huv i xv hxv
      obtain ⟨q', hq', hwy⟩ := hvv i yv hyv
      obtain rfl := Except.ok.inj (hp.symm.trans hp')
      obtain rfl := Except.ok.inj (hq.symm.trans hq')
      refine ⟨b, if b ≠ 0 then xv else yv, hb, ?_, bind_pure_eq_ok.mpr ⟨_, hpick, ?_⟩⟩
      · by_cases hb0 : b ≠ 0
        · rwa [if_pos hb0, if_pos hb0]
        · rwa [if_neg hb0, if_neg hb0]
      · by_cases hb0 : b ≠ 0
        · rw [if_pos hb0, if_pos hb0, hwx]
        · rw [if_neg hb0, if_neg hb0, hwy]

end Conditional

section Nesting

variable {rt : Runtime} {f : Frame} {sel : Sel} {i : Nat} {kind : ResultKind} {a : Arr}
  {branches : List (Expr × Expr)} {out : Expr}

theorem eval_if {w x y : Expr} {c : List UInt8} {xs ys : Arr}
    (hw : eval rt f sel w = .ok (.bool c)) (hx : eval rt f sel x = .ok xs)
    (hy : eval rt f sel y = .ok ys) (hcall : ifCall [.bool c, xs, ys] = .ok a)
    (ha : a.Sized sel.len) : eval rt f sel (.func .ifThen [w, x, y]) = .ok a := by
  have hargs : evalArgs rt f sel [w, x, y] = .ok [.bool c, xs, ys] := by
    rw [evalArgs_eq_mapM]
    exact mapM_eq_ok.mpr (.cons hw (.cons hx (.cons hy .nil)))
  have hcond : scalarFunc rt .ifThen [.bool c, xs, ys] = .ok a := hcall
  rw [eval_func, hargs, ok_bind, hcond, ok_bind]
  exact if_pos ha

theorem asBool_eq_ok {b : Arr} {c : List UInt8} (h : b.asBool = .ok c) : b = .bool c := by
  cases b with
  | bool v => exact congrArg _ (Except.ok.inj h)
  | _ => cases h

theorem eval_if_parts {w x y : Expr} (h : eval rt f sel (.func .ifThen [w, x, y]) = .ok a) :
    ∃ c xs ys, eval rt f sel w = .ok (.bool c) ∧ eval rt f sel x = .ok xs ∧
      eval rt f sel y = .ok ys ∧ ifBranches (callLen [.bool c, xs, ys]) c xs ys = .ok a := by
  obtain ⟨args, hargs, hcall⟩ := bind_eq_ok.mp (eval_node (eval_func rt f sel .ifThen _) h)
  rw [evalArgs_eq_mapM] at hargs
  cases mapM_eq_ok.mp hargs with
  | cons hw hrest =>
    cases hrest with
    | cons hx hrest =>
      cases hrest with
      | cons hy hnil =>
        cases hnil
        obtain ⟨c, hc, hcall⟩ := bind_eq_ok.mp hcall
        obtain rfl := Except.ok.inj hc
        obtain ⟨cond, hcond, hcall⟩ := bind_eq_ok.mp hcall
        obtain rfl := asBool_eq_ok hcond
        exact ⟨cond, _, _, hw, hx, hy, hcall⟩

/-- A conditional evaluates all its parts, whatever its condition chooses. -/
theorem eval_nestedIf_parts (h : eval rt f sel (nestedIf branches out) = .ok a) :
    (∀ w ∈ branches, (∃ c, eval rt f sel w.1 = .ok (.bool c)) ∧ ∃ b, eval rt f sel w.2 = .ok b) ∧
      ∃ o, eval rt f sel out = .ok o := by
  induction branches generalizing a with
  | nil => exact ⟨by simp, a, h⟩
  | cons w branches ih =>
    obtain ⟨c, x, y, hc, hx, hy, -⟩ := eval_if_parts h
    obtain ⟨hparts, hout⟩ := ih hy
    exact ⟨List.forall_mem_cons.mpr ⟨⟨⟨c, hc⟩, x, hx⟩, hparts⟩, hout⟩

/-- A text in the innermost branch needs texts in all others. -/
theorem eval_nestedIf_text {s : List String} (h : eval rt f sel (nestedIf branches out) = .ok a)
    (hne : branches ≠ []) (hout : eval rt f sel out = .ok (.str s))
    (hkind : ∀ w ∈ branches, ∀ b, eval rt f sel w.2 = .ok b → kind.Has b) : kind = .text := by
  induction branches generalizing a with
  | nil => exact absurd rfl hne
  | cons w branches ih =>
    obtain ⟨hw, hrest⟩ := List.forall_mem_cons.mp hkind
    obtain ⟨c, x, y, -, hx, hy, hcall⟩ := eval_if_parts h
    by_cases hlast : branches = []
    · subst hlast
      obtain rfl := Except.ok.inj (hout.symm.trans hy)
      have hxk := hw x hx
      cases kind with
      | text => rfl
      | number =>
        obtain ⟨u, hu, -⟩ := toF64_widen hxk
        have hstr : ¬ (x.dataType = .str ∧ (Arr.str s).dataType = .str) := by
          rintro ⟨h, -⟩
          rcases hxk with h' | h' <;> exact absurd (h.symm.trans h') (by simp)
        rw [ifBranches_eq_floats hstr, hu, ok_bind] at hcall
        cases hcall
    · exact ih hy hlast hrest

theorem firstMatch_cons (w : Expr × Expr) (els : Option Expr) :
    firstMatch rt f sel i (w :: branches) els =
      if holdsAt rt f sel i w.1 then some w.2 else firstMatch rt f sel i branches els := by
  unfold firstMatch
  rw [List.find?_cons]
  cases holdsAt rt f sel i w.1 <;> simp

theorem firstMatch_getD (els : Option Expr) (d : Expr) :
    (firstMatch rt f sel i branches els).getD d =
      (firstMatch rt f sel i branches none).getD (els.getD d) := by
  unfold firstMatch
  cases branches.find? fun w => holdsAt rt f sel i w.1 <;> simp

theorem holdsAt_bool {w : Expr} {c : List UInt8} {b : UInt8} (hw : eval rt f sel w = .ok (.bool c))
    (hb : pick c i = .ok b) : holdsAt rt f sel i w = true ↔ b ≠ 0 := by
  have hvalue : valueAt rt f sel i w = .ok (.bool (b != 0)) := by
    rw [valueAt, hw, ok_bind]
    exact bind_pure_eq_ok.mpr ⟨b, hb, rfl⟩
  rw [holdsAt, hvalue, decide_eq_true_iff]
  simp

theorem widen_widen (v : Value) : widen (widen v) = widen v := by
  cases v <;> rfl

/-- Nested conditionals over results of one kind have in every row the value of the first
branch that applies. -/
theorem eval_nestedIf (hconds : ∀ w ∈ branches, ∃ c, eval rt f sel w.1 = .ok (.bool c))
    (hres : ∀ w ∈ branches, ∃ b, eval rt f sel w.2 = .ok b ∧ kind.Has b)
    (hout : ∃ o, eval rt f sel out = .ok o ∧ kind.Has o) :
    ∃ a, eval rt f sel (nestedIf branches out) = .ok a ∧ kind.Has a ∧ ∀ i < sel.len, ∃ u v,
      a.value i = .ok u ∧
      valueAt rt f sel i ((firstMatch rt f sel i branches none).getD out) = .ok v ∧
      widen u = widen v ∧ (branches ≠ [] → widen u = u) := by
  induction branches with
  | nil =>
    obtain ⟨o, ho, hko⟩ := hout
    refine ⟨o, ho, hko, fun i hi => ?_⟩
    obtain ⟨v, hv⟩ := value_exists (eval_sized ho) hi
    have hat : valueAt rt f sel i out = .ok v := by rw [valueAt, ho, ok_bind, hv]
    exact ⟨v, v, hv, hat, rfl, fun h => absurd rfl h⟩
  | cons w branches ih =>
    obtain ⟨⟨c, hc⟩, hconds⟩ := List.forall_mem_cons.mp hconds
    obtain ⟨⟨x, hx, hkx⟩, hres⟩ := List.forall_mem_cons.mp hres
    obtain ⟨y, hy, hky, hrest⟩ := ih hconds hres
    have hsized : ∀ b ∈ [Arr.bool c, x, y], b.Sized sel.len := by
      simp only [List.forall_mem_cons]
      exact ⟨eval_sized hc, eval_sized hx, eval_sized hy, by simp⟩
    obtain ⟨a, ha, hlen, hka, hrow⟩ := ifCall_total hsized hkx hky
    refine ⟨a, eval_if hc hx hy ha hlen, hka, fun i hi => ?_⟩
    obtain ⟨b, v, hb, hv, hav⟩ := hrow i hi
    have hholds := holdsAt_bool hc hb
    rw [firstMatch_cons]
    by_cases hb0 : b ≠ 0
    · rw [if_pos hb0] at hv
      rw [if_pos (hholds.mpr hb0)]
      have hat : valueAt rt f sel i w.2 = .ok v := by rw [valueAt, hx, ok_bind, hv]
      exact ⟨_, v, hav, hat, widen_widen v, fun _ => widen_widen v⟩
    · rw [if_neg hb0] at hv
      rw [if_neg (hholds.not.mpr hb0)]
      obtain ⟨u, z, hu, hz, heq, -⟩ := hrest i hi
      obtain rfl := Except.ok.inj (hu.symm.trans hv)
      exact ⟨_, z, hav, hz, (widen_widen u).trans heq, fun _ => widen_widen u⟩

end Nesting

section Integers

theorem unitsOf_bitsOfNat {m : Nat} (hm : m ≤ 2 ^ 53) :
    F64.unitsOf (F64.bitsOfNat m) = m * 2 ^ 1074 := by
  by_cases h0 : m = 0
  · subst h0
    decide +kernel
  by_cases htop : m = 2 ^ 53
  · subst htop
    decide +kernel
  obtain ⟨hlog, hlow, hhigh⟩ := F64.significand_bounds h0 (by omega)
  obtain ⟨hquot, hrem⟩ := F64.bitsOfNat_fields h0 (by omega)
  have hexp : 52 - m.log2 + (m.log2 + 1023 - 1) = 1074 := by omega
  rw [F64.unitsOf, hquot, hrem, if_neg (by omega), Nat.add_sub_cancel' hlow, mul_assoc, ← pow_add,
    hexp]

theorem ofI64_isInt {n : Int64} (hn : n.toInt.natAbs ≤ 2 ^ 53) : (F64.ofI64 n).IsInt n.toInt := by
  refine ⟨(F64.ofI64_magnitude hn).symm ▸ F64.bitsOfNat_lt hn, ?_⟩
  rw [F64.units, F64.ofI64_magnitude hn, F64.ofI64_isNegative hn, unitsOf_bitsOfNat hn]
  by_cases hneg : n.toInt < 0
  · have habs : (n.toInt.natAbs : Int) = -n.toInt := by omega
    rw [if_pos (decide_eq_true hneg), Nat.cast_mul, habs, Nat.cast_pow, neg_mul, neg_neg,
      Nat.cast_ofNat]
  · have habs : (n.toInt.natAbs : Int) = n.toInt := by omega
    rw [if_neg (by simpa using hneg), Nat.cast_mul, habs, Nat.cast_pow, Nat.cast_ofNat]

end Integers

section Meaning

variable {rt : Runtime} {f : Frame} {sel : Sel} {i : Nat} {kind : ResultKind} {c : Case}

theorem same_widen {v : Value} :
    v.Same (widen v) ↔ ∀ n, v = .i64 n → (F64.ofI64 n).IsInt n.toInt := by
  constructor
  · rintro h n rfl
    exact h
  · intro h
    cases v with
    | i64 n => exact h n rfl
    | _ => rfl

theorem eval_missing : eval rt f sel (.lit (.str "")) = .ok (.str [""]) :=
  if_pos (Or.inr rfl)

/-- The literal that stands for a missing ELSE is the neutral text. -/
theorem Case.value_eq (htext : c.els = none → kind = .text) :
    c.value rt f sel i kind =
      valueAt rt f sel i ((firstMatch rt f sel i c.branches none).getD (c.els.getD (.lit (.str "")))) := by
  rw [← firstMatch_getD, Case.value]
  cases hm : firstMatch rt f sel i c.branches c.els with
  | some r => rfl
  | none =>
    have hels : c.els = none := (Option.or_eq_none_iff.mp hm).2
    have hvalue : valueAt rt f sel i (.lit (.str "")) = .ok (.str "") := by
      rw [valueAt, eval_missing]
      rfl
    rw [htext hels]
    exact hvalue.symm

theorem Case.mem_branches {w : Expr × Expr} (h : w ∈ c.branches) : w.2 ∈ c.results := by
  obtain ⟨p, hp, rfl⟩ := List.mem_map.mp h
  exact List.mem_append_left _ (List.mem_map.mpr ⟨p, hp, rfl⟩)

theorem Case.branches_ne_nil (h : c.whens ≠ []) : c.branches ≠ [] :=
  List.map_eq_nil_iff.not.mpr h

theorem Case.else_evaluates (hres : c.ResultsAre rt f sel kind) (hev : c.Evaluates rt f sel)
    (htext : c.els = none → kind = .text) :
    ∃ o, eval rt f sel (c.els.getD (.lit (.str ""))) = .ok o ∧ kind.Has o := by
  cases hels : c.els with
  | none =>
    exact ⟨.str [""], eval_missing, htext hels ▸ rfl⟩
  | some r =>
    have hr : r ∈ c.results := List.mem_append_right _ (by simp [hels])
    obtain ⟨o, ho⟩ := hev.2 r hr
    exact ⟨o, ho, hres r hr o ho⟩

theorem Case.eval_nested (hne : c.whens ≠ []) (hres : c.ResultsAre rt f sel kind)
    (hev : c.Evaluates rt f sel) (htext : c.els = none → kind = .text) :
    ∃ a, eval rt f sel c.nested = .ok a ∧ ∀ i < sel.len, ∃ v,
      c.value rt f sel i kind = .ok v ∧ a.value i = .ok (widen v) := by
  have hthen : ∀ w ∈ c.branches, ∃ b, eval rt f sel w.2 = .ok b ∧ kind.Has b := by
    intro w hw
    obtain ⟨b, hb⟩ := hev.2 _ (mem_branches hw)
    exact ⟨b, hb, hres _ (mem_branches hw) b hb⟩
  obtain ⟨a, ha, -, hrow⟩ := eval_nestedIf hev.1 hthen (else_evaluates hres hev htext)
  refine ⟨a, ha, fun i hi => ?_⟩
  obtain ⟨u, v, hu, hv, heq, hwide⟩ := hrow i hi
  refine ⟨v, (value_eq htext).trans hv, ?_⟩
  rw [hu, ← hwide (branches_ne_nil hne), heq]

theorem Case.evaluates_of_ok {a : Arr} (h : eval rt f sel c.nested = .ok a) :
    c.Evaluates rt f sel := by
  obtain ⟨hparts, o, ho⟩ := eval_nestedIf_parts h
  refine ⟨fun w hw => (hparts w hw).1, fun r hr => ?_⟩
  rcases List.mem_append.mp hr with hr | hr
  · obtain ⟨p, hp, rfl⟩ := List.mem_map.mp hr
    exact (hparts _ (List.mem_map_of_mem hp)).2
  · have hels : c.els = some r := Option.mem_toList.mp hr
    rw [hels] at ho
    exact ⟨o, ho⟩

theorem Case.text_of_ok {a : Arr} (hne : c.whens ≠ []) (hres : c.ResultsAre rt f sel kind)
    (h : eval rt f sel c.nested = .ok a) (hels : c.els = none) : kind = .text := by
  have hout : eval rt f sel (c.els.getD (.lit (.str ""))) = .ok (.str [""]) := by
    rw [hels]
    exact eval_missing
  exact eval_nestedIf_text h (branches_ne_nil hne) hout fun w hw => hres _ (mem_branches hw)

/-- A CASE gives the first match exactly when its parts have values, a missing ELSE stands
beside texts, and the integers it chooses are doubles. -/
theorem bindExpr_case_firstMatch_iff {tx : Texts} {schema : Schema} {operand : Option Sa.Expr}
    {w : Sa.CaseWhen} {conditions : List Sa.CaseWhen} {elseResult : Option Sa.Expr} {e : Expr}
    (hbind : bindExpr tx schema (.case operand (w :: conditions) elseResult) = .ok e) :
    ∃ c : Case, c.Binds tx schema operand (w :: conditions) elseResult ∧
      ∀ rt f sel kind, c.ResultsAre rt f sel kind →
        (c.FirstMatch rt f sel kind e ↔
          c.Evaluates rt f sel ∧ (c.els = none → kind = .text) ∧
            ∀ i < sel.len, ∀ n, c.value rt f sel i kind = .ok (.i64 n) →
              (F64.ofI64 n).IsInt n.toInt) := by
  obtain ⟨c, hc, rfl⟩ := bindExpr_case hbind
  have hne : c.whens ≠ [] := by
    intro hnil
    have hwhens := hc.whens
    rw [hnil] at hwhens
    cases hwhens
  refine ⟨c, hc, fun rt f sel kind hres => ?_⟩
  constructor
  · rintro ⟨a, ha, hrow⟩
    have hev := Case.evaluates_of_ok ha
    have htext := Case.text_of_ok hne hres ha
    refine ⟨hev, htext, fun i hi n hn => ?_⟩
    obtain ⟨a', ha', hvalue⟩ := Case.eval_nested hne hres hev htext
    obtain rfl := Except.ok.inj (ha.symm.trans ha')
    obtain ⟨v, x, hv, hx, hsame⟩ := hrow i hi
    obtain ⟨v', hv', hx'⟩ := hvalue i hi
    obtain rfl := Except.ok.inj (hv.symm.trans hv')
    obtain rfl := Except.ok.inj (hx.symm.trans hx')
    exact same_widen.mp hsame n (Except.ok.inj (hv.symm.trans hn))
  · rintro ⟨hev, htext, hints⟩
    obtain ⟨a, ha, hvalue⟩ := Case.eval_nested hne hres hev htext
    refine ⟨a, ha, fun i hi => ?_⟩
    obtain ⟨v, hv, hx⟩ := hvalue i hi
    exact ⟨v, _, hv, hx, same_widen.mpr fun n hn => hints i hi n (hn ▸ hv)⟩

end Meaning

/-- `CASE WHEN x = x THEN x ELSE … END` -/
def ownCase (elseResult : Option Sa.Expr) : Sa.Expr :=
  .case none [.mk (.binaryOp (.identifier "x") .eq (.identifier "x")) (.identifier "x")] elseResult

def ownParts (els : Option Expr) : Case :=
  ⟨none, [(.binary .eq (.col 0) (.col 0), .col 0)], els⟩

theorem ownParts_results {els : Option Expr} (h : ∀ r ∈ els, r = .col 0) :
    (ownParts els).ResultsAre plainRuntime (Frame.ofTable bigTable) (.all 1) .number := by
  intro r hr a ha
  have hcol : r = .col 0 := by
    rcases List.mem_append.mp hr with hr | hr
    · exact List.mem_singleton.mp hr
    · exact h r (Option.mem_toList.mp hr)
  subst hcol
  obtain rfl := Except.ok.inj ha
  exact Or.inl rfl

/-- Without ELSE a numeric CASE fails; with one, its integers are rounded. -/
theorem ownCase_not_firstMatch :
    bindExpr plainTexts bigTable.schema (ownCase none) = .ok (ownParts none).nested ∧
      (ownParts none).Binds plainTexts bigTable.schema none
        [.mk (.binaryOp (.identifier "x") .eq (.identifier "x")) (.identifier "x")] none ∧
      (ownParts none).ResultsAre plainRuntime (Frame.ofTable bigTable) (.all 1) .number ∧
      eval plainRuntime (Frame.ofTable bigTable) (.all 1) (ownParts none).nested =
        bail "ожидалось число, получено TEXT" ∧
      ¬ (ownParts none).FirstMatch plainRuntime (Frame.ofTable bigTable) (.all 1) .number
        (ownParts none).nested ∧
      bindExpr plainTexts bigTable.schema (ownCase (some (.identifier "x"))) =
        .ok (ownParts (some (.col 0))).nested ∧
      (ownParts (some (.col 0))).ResultsAre plainRuntime (Frame.ofTable bigTable) (.all 1) .number ∧
      eval plainRuntime (Frame.ofTable bigTable) (.all 1) (ownParts (some (.col 0))).nested =
        .ok (.f64 [⟨0x4340000000000000⟩]) ∧
      ¬ (ownParts (some (.col 0))).FirstMatch plainRuntime (Frame.ofTable bigTable) (.all 1) .number
        (ownParts (some (.col 0))).nested := by
  have hfails : eval plainRuntime (Frame.ofTable bigTable) (.all 1) (ownParts none).nested =
      bail "ожидалось число, получено TEXT" := by decide +kernel
  have hrounds : eval plainRuntime (Frame.ofTable bigTable) (.all 1)
      (ownParts (some (.col 0))).nested = .ok (.f64 [⟨0x4340000000000000⟩]) := by decide +kernel
  refine ⟨rfl, ⟨rfl, .cons ⟨_, _, rfl, rfl, rfl⟩ .nil, rfl⟩, ownParts_results (by simp), hfails, ?_,
    rfl, ownParts_results (by simp), hrounds, ?_⟩
  · rintro ⟨a, ha, -⟩
    exact absurd ha (hfails ▸ bail_ne_ok _ _)
  · rintro ⟨a, ha, hrow⟩
    obtain rfl := Except.ok.inj (hrounds.symm.trans ha)
    obtain ⟨v, w, hv, hw, hsame⟩ := hrow 0 (by decide)
    have hvalue : (ownParts (some (.col 0))).value plainRuntime (Frame.ofTable bigTable) (.all 1) 0
        .number = .ok (.i64 9007199254740993) := by decide +kernel
    obtain rfl := Except.ok.inj (hvalue.symm.trans hv)
    obtain rfl := Except.ok.inj hw
    exact absurd hsame.2 (by decide +kernel)

def namedWhens : List Sa.CaseWhen :=
  [.mk (.value (.number "1")) (.value (.singleQuotedString "one")),
    .mk (.value (.number "2")) (.value (.singleQuotedString "two"))]

/-- `CASE x WHEN 1 THEN 'one' WHEN 2 THEN 'two' END` -/
def namedCase : Sa.Expr :=
  .case (some (.identifier "x")) namedWhens none

def namedParts : Case :=
  ⟨some (.col 0), [(.lit (.i64 1), .lit (.str "one")), (.lit (.i64 2), .lit (.str "two"))], none⟩

def countTable : Table :=
  ⟨"t", ⟨[⟨"x", .i64⟩]⟩, [.i64 [3, 2, 1]], 3⟩

theorem bindExpr_case_firstMatch_iff_named :
    bindExpr plainTexts countTable.schema namedCase = .ok namedParts.nested ∧
      eval plainRuntime (Frame.ofTable countTable) (.all 3) namedParts.nested =
        .ok (.str ["", "two", "one"]) ∧
      namedParts.FirstMatch plainRuntime (Frame.ofTable countTable) (.all 3) .text
        namedParts.nested := by
  have hbind : bindExpr plainTexts countTable.schema namedCase = .ok namedParts.nested := rfl
  obtain ⟨c, hc, hiff⟩ := bindExpr_case_firstMatch_iff hbind
  have hparts : namedParts.Binds plainTexts countTable.schema (some (.identifier "x"))
      namedWhens none :=
    ⟨rfl, .cons ⟨_, _, rfl, rfl, rfl⟩ (.cons ⟨_, _, rfl, rfl, rfl⟩ .nil), rfl⟩
  obtain rfl := hc.unique hparts
  refine ⟨hbind, by decide +kernel, (hiff plainRuntime _ (.all 3) .text ?_).mpr ⟨⟨?_, ?_⟩, ?_, ?_⟩⟩
  · intro r hr a ha
    rcases List.mem_pair.mp hr with rfl | rfl
    · obtain rfl := Except.ok.inj ha
      rfl
    · obtain rfl := Except.ok.inj ha
      rfl
  · intro w hw
    rcases List.mem_pair.mp hw with rfl | rfl
    · exact ⟨[0, 0, 1], by decide +kernel⟩
    · exact ⟨[0, 1, 0], by decide +kernel⟩
  · intro r hr
    rcases List.mem_pair.mp hr with rfl | rfl
    · exact ⟨.str ["one"], by decide +kernel⟩
    · exact ⟨.str ["two"], by decide +kernel⟩
  · exact fun _ => rfl
  · intro i hi n hn
    have hvalues : ∀ i < 3, ∃ s, namedParts.value plainRuntime (Frame.ofTable countTable) (.all 3) i
        .text = .ok (.str s) := by
      intro i hi
      have hrow : i = 0 ∨ i = 1 ∨ i = 2 := by omega
      rcases hrow with rfl | rfl | rfl
      · exact ⟨"", by decide +kernel⟩
      · exact ⟨"two", by decide +kernel⟩
      · exact ⟨"one", by decide +kernel⟩
    obtain ⟨s, hs⟩ := hvalues i hi
    exact absurd (hs.symm.trans hn) (by simp)

end Veldb
