import Veldb.ExprTypes
import Veldb.QueryCrashes
import Veldb.Statements

/-! The types of a query's answer, from the types of the table's columns. An answer has them, and
every row keeps to them; a query that has them is stopped by a panic, by a unit of `date_trunc` or by
a vector key of the groups, and by nothing else. -/

namespace Veldb

open Attempts Arr Predictions

def Frame.types (f : Frame) : List DataType :=
  f.cols.map Column.dataType

def sumType : DataType → Option DataType
  | .i64 => some .i64
  | v => do
    required v.isNumeric
    return .f64

def extremeType : DataType → Option DataType
  | .str => some .str
  | .i64 => some .i64
  | v => do
    required v.isNumeric
    return .f64

def AggFunc.typeOf (func : AggFunc) (distinct : Bool) (v : DataType) : Option DataType :=
  if distinct then some .i64
  else
    match func with
    | .count => some .i64
    | .sum => sumType v
    | .avg => do
      required v.isNumeric
      return .f64
    | .min | .max => extremeType v

/-- The type of an aggregate's column in the frame of the groups. -/
def Expr.aggType (cols : List DataType) : Expr → Option DataType
  | .agg f arg distinct =>
    match arg with
    | none => some .i64
    | some arg => do f.typeOf distinct (← arg.typeOf cols)
  | _ => none

/-- `WHERE` or `HAVING` over columns of these types. -/
def conditionType (cols : List DataType) : Option Expr → Option Unit
  | none => some ()
  | some e => do required ((← e.typeOf cols) = .bool)

/-- A key of any type sorts. -/
def orderType (cols : List DataType) (keys : List OrderKey) : Option Unit := do
  let _ ← keys.mapM (fun k => k.expr.typeOf cols)
  return ()

def outputTypes (cols : List DataType) (having : Option Expr) (orderBy : List OrderKey)
    (projection : List Projection) : Option (List DataType) := do
  conditionType cols having
  orderType cols orderBy
  projection.mapM (fun p => p.expr.typeOf cols)

namespace Select

def groupTypes (plan : Select) (cols : List DataType) : Option (List DataType) := do
  let keys ← plan.groupBy.mapM (Expr.typeOf cols)
  let aggs ← plan.aggs.mapM (Expr.aggType cols)
  return keys ++ aggs

def frameTypes (plan : Select) (cols : List DataType) : Option (List DataType) := do
  let frame ← plan.groupTypes cols
  required (plan.rewritten.projection.all fun p => !refersPast frame.length p.expr)
  return frame

def typesOf (plan : Select) (cols : List DataType) : Option (List DataType) := do
  conditionType cols plan.filter
  if plan.isAggregate then
    let frame ← plan.frameTypes cols
    outputTypes frame plan.rewritten.having plan.rewritten.orderBy plan.rewritten.projection
  else outputTypes cols none plan.orderBy plan.projection

end Select

section Groups

variable {excused : Fault → Prop} {rt : Runtime} {n ngroups : Nat} {groupOf : List Nat}

theorem quiet_bump {α : Type} (hex : Excuses excused) (acc : List α) (g : Nat) (f : α → α) :
    Quiet excused (bump acc g f) :=
  (quiet_index hex acc g).bind fun _ => quiet_ok _

theorem quiet_foldGroups {α β : Type} (hex : Excuses excused) {v : Nat → Exec β}
    (hv : ∀ i, Quiet excused (v i)) (f : β → α → α) (acc : List α) :
    Quiet excused (foldGroups n groupOf v f acc) := by
  refine Quiet.foldlM (fun acc i _ => ?_) acc
  exact (quiet_index hex groupOf i).bind fun g => (hv i).bind fun x => quiet_bump hex acc g _

theorem countRows_predicted (hex : Excuses excused) :
    Predicts excused Column.dataType (some .i64) (countRows n groupOf ngroups) :=
  Quiet.wrapped (Quiet.foldlM (fun counts g _ => quiet_bump hex counts g _) _) fun _ => rfl

/-- An aggregate over numbers. -/
theorem folded_predicted {α : Type} (hex : Excuses excused) (n : Nat) (groupOf : List Nat) (v : Arr)
    (f : F64 → α → α) (acc : List α) (g : List α → List F64) :
    Predicts excused Column.dataType (do required v.dataType.isNumeric; return .f64)
      (do
        let x ← v.toF64
        return .f64 (g (← foldGroups n groupOf (pick x) f acc))) :=
  (toF64_predicted v).bind fun x _ =>
    Quiet.wrapped (quiet_foldGroups hex (quiet_pick hex x) f acc) fun _ => rfl

theorem sumAgg_predicted (hex : Excuses excused) (v : Arr) :
    Predicts excused Column.dataType (sumType v.dataType) (sumAgg rt v n groupOf ngroups) := by
  have hfolded := folded_predicted hex n groupOf v (fun x a => rt.add a x)
    (List.replicate ngroups F64.zero) id
  cases v with
  | i64 x => exact Quiet.wrapped (quiet_foldGroups hex (quiet_pick hex x) _ _) fun _ => rfl
  | _ => exact hfolded

theorem extremeAgg_predicted (hex : Excuses excused) (isMin : Bool) (v : Arr) :
    Predicts excused Column.dataType (extremeType v.dataType)
      (extremeAgg rt isMin v n groupOf ngroups) := by
  have hfolded := folded_predicted hex n groupOf v
    (better (fun cur val => if isMin then rt.min cur val else rt.max cur val))
    (List.replicate ngroups none) (fun acc => acc.map (·.getD F64.zero))
  cases v with
  | str x => exact Quiet.wrapped (quiet_foldGroups hex (quiet_pick hex x) _ _) fun _ => rfl
  | i64 x => exact Quiet.wrapped (quiet_foldGroups hex (quiet_pick hex x) _ _) fun _ => rfl
  | _ => exact hfolded

theorem quiet_valueKey (hex : Excuses excused) (v : Arr) (i : Nat) :
    Quiet excused (valueKey rt v i) := by
  cases v with
  | i64 x => exact (quiet_pick hex x i).bind fun _ => quiet_ok _
  | f64 x => exact (quiet_pick hex x i).bind fun _ => quiet_ok _
  | bool x => exact (quiet_pick hex x i).bind fun _ => quiet_ok _
  | str x => exact (quiet_pick hex x i).bind fun _ => quiet_ok _
  | vector dim rows => exact quiet_ok _

theorem runAgg_predicted {f : Frame} {sel : Sel} (hex : Excuses excused) (p : Expr)
    (heval : ∀ func arg distinct, p = .agg func (some arg) distinct →
      Predicts excused dataType (arg.typeOf f.types) (eval rt f sel arg)) :
    Predicts excused Column.dataType (p.aggType f.types) (runAgg rt p f sel groupOf ngroups) := by
  cases p with
  | agg func arg distinct =>
    cases arg with
    | none => exact countRows_predicted hex
    | some arg =>
      refine (heval func arg distinct rfl).bind fun v _ => ?_
      unfold AggFunc.typeOf
      cases distinct with
      | true => exact Quiet.wrapped (quiet_foldGroups hex (quiet_valueKey hex v) _ _) fun _ => rfl
      | false =>
        cases func with
        | count => exact countRows_predicted hex
        | sum => exact sumAgg_predicted hex v
        | avg => exact folded_predicted hex _ _ v _ _ _
        | min => exact extremeAgg_predicted hex true v
        | max => exact extremeAgg_predicted hex false v
  | _ => exact predicts_refused _

theorem quiet_firstEntries (hex : Excuses excused) {α : Type} (src : List (Option Nat)) (v : List α) :
    Quiet excused (src.mapM fun s =>
      match s with
      | some i => index v i
      | none => crash "index out of bounds") := by
  refine Quiet.mapM fun s _ => ?_
  cases s with
  | some i => exact quiet_index hex v i
  | none => exact quiet_excused (hex _)

theorem pickFirst_predicted (hex : Excuses excused) (a : Arr) :
    Predicts excused Column.dataType (some a.dataType)
      (do return (← pickFirstPerGroup a groupOf ngroups).intoColumn) := by
  have hfirst : Predicts excused dataType (some a.dataType)
      (pickFirstPerGroup a groupOf ngroups) := by
    unfold pickFirstPerGroup
    refine Predicts.quiet_bind (Quiet.foldlM (fun src p _ => quiet_bump hex src p.1 _) _)
      fun src _ => ?_
    cases a with
    | i64 v => exact Quiet.wrapped (quiet_firstEntries hex src v) fun _ => rfl
    | f64 v => exact Quiet.wrapped (quiet_firstEntries hex src v) fun _ => rfl
    | bool v => exact Quiet.wrapped (quiet_firstEntries hex src v) fun _ => rfl
    | str v => exact Quiet.wrapped (quiet_firstEntries hex src v) fun _ => rfl
    | vector dim rows => exact Quiet.wrapped (quiet_firstEntries hex src rows) fun _ => rfl
  refine hfirst.recast fun a => ?_
  cases a <;> rfl

theorem quiet_assignGroups {keys : List Arr}
    (hkeys : ∀ i < n, ∀ k ∈ keys, Quiet excused (keyBytes k i)) :
    Quiet excused (assignGroups keys n) := by
  unfold assignGroups
  split_ifs
  · exact quiet_ok _
  refine Quiet.bind (Quiet.foldlM (fun s i hi => ?_) _) fun s => quiet_ok _
  have hrow := Quiet.mapM (hkeys i (List.mem_range.mp hi))
  refine Quiet.bind (hrow.bind fun _ => quiet_ok _) fun buf => ?_
  cases s.1.lookup buf with
  | some id => exact quiet_ok _
  | none => exact quiet_ok _

theorem groupColumns_predicted {f : Frame} {sel : Sel} {plan : Select} (hex : Excuses excused)
    (hkeys : ∀ e ∈ plan.groupBy, Predicts excused dataType (e.typeOf f.types) (eval rt f sel e))
    (hbytes : ∀ keys, plan.groupBy.mapM (eval rt f sel) = .ok keys → ∀ i < sel.len, ∀ k ∈ keys,
      Quiet excused (keyBytes k i))
    (hargs : ∀ func arg distinct, .agg func (some arg) distinct ∈ plan.aggs →
      Predicts excused dataType (arg.typeOf f.types) (eval rt f sel arg)) :
    Predicts excused (fun g => g.1.map Column.dataType) (plan.groupTypes f.types)
      (groupColumns rt plan f sel) := by
  refine (Predicts.mapM hkeys).bind fun keys hkeys => ?_
  refine Predicts.quiet_bind (quiet_assignGroups (hbytes keys hkeys)) fun groups _ => ?_
  obtain ⟨groupOf, ngroups⟩ := groups
  have hcols : Predicts excused (List.map Column.dataType) (some (keys.map dataType))
      (keys.mapM fun a => do return (← pickFirstPerGroup a groupOf ngroups).intoColumn) := by
    have htypes : keys.mapM (fun a => some a.dataType) = some (keys.map dataType) :=
      List.mapM_pure
    rw [← htypes]
    exact Predicts.mapM fun a _ => pickFirst_predicted hex a
  refine Predicts.bind (k := fun ks => (plan.aggs.mapM (Expr.aggType f.types)).bind fun aggs =>
    some (ks ++ aggs)) hcols fun keyCols _ => ?_
  have haggs := Predicts.mapM (f := fun p => runAgg rt p f sel groupOf ngroups) (l := plan.aggs)
    fun p hp => runAgg_predicted hex p fun func arg distinct h => hargs func arg distinct (h ▸ hp)
  refine haggs.bind fun aggCols _ => predicts_ok ?_
  rw [List.map_append]

theorem checkProjection_predicted (width : Nat) (ps : List Projection) :
    Predicts excused (fun _ => ()) (required (ps.all fun p => !refersPast width p.expr))
      (checkProjection width ps) := by
  induction ps with
  | nil => exact predicts_ok rfl
  | cons p ps ih =>
    rw [checkProjection, List.all_cons]
    cases refersPast width p.expr with
    | true => exact predicts_refused _
    | false => exact ih

theorem aggregate_predicted {f : Frame} {sel : Sel} {plan : Select}
    (h : Predicts excused (fun g => g.1.map Column.dataType) (plan.groupTypes f.types)
      (groupColumns rt plan f sel)) :
    Predicts excused (fun g => g.columns.map Column.dataType) (plan.frameTypes f.types)
      (aggregate rt plan f sel) := by
  refine h.bind fun g _ => ?_
  obtain ⟨columns, ngroups⟩ := g
  simp only [List.length_map]
  exact Predicts.bind (k := fun _ => some (columns.map Column.dataType))
    (checkProjection_predicted _ _) fun _ _ => predicts_ok rfl

end Groups

/-- What the part of a query after the grouping evaluates, and over which rows. -/
inductive Finishes (rt : Runtime) (f : Frame) (s : Sel) (plan : Select) : Sel → Expr → Prop
  | having {e : Expr} (h : e ∈ plan.having) : Finishes rt f s plan s e
  | order {s₁ : Sel} {k : OrderKey} (h₁ : runHaving rt f s plan.having = .ok s₁)
      (h : k ∈ plan.orderBy) : Finishes rt f s plan s₁ k.expr
  | output {s₁ s₂ : Sel} {p : Projection} (h₁ : runHaving rt f s plan.having = .ok s₁)
      (h₂ : orderAndLimit rt f s₁ plan.orderBy plan.limit plan.offset = .ok s₂)
      (h : p ∈ plan.projection) : Finishes rt f s plan s₂ p.expr

/-- What a query evaluates, over which columns and which of their rows. -/
inductive Evaluates (rt : Runtime) (plan : Select) (table : Option Table) :
    Frame → Sel → Expr → Prop
  | filter {e : Expr} (h : e ∈ plan.filter) :
      Evaluates rt plan table (sourceFrame table) (.all (sourceRows table)) e
  | key {s : Sel} {e : Expr}
      (hs : runFilter rt (sourceFrame table) (sourceRows table) plan.filter = .ok s)
      (hagg : plan.isAggregate = true) (h : e ∈ plan.groupBy) :
      Evaluates rt plan table (sourceFrame table) s e
  | argument {s : Sel} {func : AggFunc} {arg : Expr} {distinct : Bool}
      (hs : runFilter rt (sourceFrame table) (sourceRows table) plan.filter = .ok s)
      (hagg : plan.isAggregate = true) (h : .agg func (some arg) distinct ∈ plan.aggs) :
      Evaluates rt plan table (sourceFrame table) s arg
  | groups {s s' : Sel} {g : Grouped} {e : Expr}
      (hs : runFilter rt (sourceFrame table) (sourceRows table) plan.filter = .ok s)
      (hagg : plan.isAggregate = true) (hg : aggregate rt plan (sourceFrame table) s = .ok g)
      (h : Finishes rt ⟨g.columns⟩ (.all g.ngroups) plan.rewritten s' e) :
      Evaluates rt plan table ⟨g.columns⟩ s' e
  | rows {s s' : Sel} {e : Expr}
      (hs : runFilter rt (sourceFrame table) (sourceRows table) plan.filter = .ok s)
      (hagg : ¬ plan.isAggregate = true)
      (h : Finishes rt (sourceFrame table) s { plan with having := none } s' e) :
      Evaluates rt plan table (sourceFrame table) s' e

section Stages

variable {excused : Fault → Prop} {rt : Runtime} {f : Frame} {s : Sel} {plan : Select}

/-- A context changes the text of an error, so the error must be one the types foresaw. -/
theorem withContext_predicted {α τ : Type} {view : α → τ} {t : Option τ} {x : Exec α} {what : String}
    (h : Predicts (fun _ => False) view t x) : Predicts excused view t (withContext what x) where
  value a ha := h.value a (withContext_eq_ok.mp ha)
  error e he := by
    cases hx : x with
    | ok a =>
      rw [hx, withContext_ok] at he
      cases he
    | error e' => exact Or.inl ((h.error e' hx).resolve_right id)

theorem condition_predicted {e : Expr} {what : String} {k : List UInt8 → Exec Sel}
    (heval : Predicts excused dataType (e.typeOf f.types) (eval rt f s e))
    (hk : ∀ mask, Quiet excused (k mask)) :
    Predicts excused (fun _ => ()) (conditionType f.types (some e))
      (do
        let mask ← eval rt f s e
        let mask ← withContext what mask.asBool
        k mask) := by
  refine heval.bind fun a _ => ?_
  exact (withContext_predicted (asBool_predicted a)).quietly fun mask _ => hk mask

theorem runFilter_predicted {filter : Option Expr} {n : Nat}
    (heval : ∀ e ∈ filter, Predicts excused dataType (e.typeOf f.types) (eval rt f (.all n) e)) :
    Predicts excused (fun _ => ()) (conditionType f.types filter) (runFilter rt f n filter) := by
  cases filter with
  | none => exact predicts_ok rfl
  | some e =>
    refine condition_predicted (heval e rfl) fun mask => ?_
    rcases mask with _ | ⟨m, _ | ⟨m', rest⟩⟩ <;> exact quiet_ok _

theorem runHaving_predicted (hex : Excuses excused) {having : Option Expr}
    (heval : ∀ e ∈ having, Predicts excused dataType (e.typeOf f.types) (eval rt f s e)) :
    Predicts excused (fun _ => ()) (conditionType f.types having) (runHaving rt f s having) := by
  cases having with
  | none => exact predicts_ok rfl
  | some e =>
    have hloop : ∀ mask : List UInt8, Quiet excused (do
        let ids ← (List.range s.len).filterMapM (fun i => do
          if (← index mask i) ≠ 0 then return some (asU32 (← s.row i)) else return none)
        return Sel.ids ids) := by
      intro mask
      rw [filterMapM_eq_map, map_eq_pure_bind]
      refine Quiet.bind (Quiet.bind (Quiet.mapM fun i _ => ?_) fun _ => quiet_ok _) fun _ => quiet_ok _
      refine (quiet_index hex mask i).bind fun m => ?_
      split_ifs
      · exact (quiet_row hex s i).bind fun _ => quiet_ok _
      · exact quiet_ok _
    refine condition_predicted (heval e rfl) fun mask => ?_
    rcases mask with _ | ⟨m, _ | ⟨m', rest⟩⟩
    · exact hloop _
    · exact quiet_ok _
    · exact hloop _

theorem quiet_addUsize (hex : Excuses excused) (a b : Nat) : Quiet excused (addUsize a b) := by
  unfold addUsize
  split_ifs
  · exact quiet_ok _
  · exact quiet_excused (hex _)

theorem quiet_stopAt (hex : Excuses excused) (start n : Nat) (limit : Option Nat) :
    Quiet excused (stopAt start n limit) := by
  cases limit with
  | none => exact quiet_ok _
  | some l =>
    simp only [stopAt, map_eq_pure_bind]
    exact (quiet_addUsize hex start l).bind fun _ => quiet_ok _

theorem quiet_permute (hex : Excuses excused) (s : Sel) (order : List Nat) :
    Quiet excused (s.permute order) := by
  refine Quiet.bind (Quiet.mapM fun i _ => ?_) fun _ => quiet_ok _
  exact (quiet_row hex s i).bind fun _ => quiet_ok _

theorem orderAndLimit_predicted (hex : Excuses excused)
    (hsort : ∀ keys n need, Quiet excused (sortRows rt keys n need)) {keys : List OrderKey}
    (heval : ∀ k ∈ keys, Predicts excused dataType (k.expr.typeOf f.types) (eval rt f s k.expr))
    (limit : Option Nat) (offset : Nat) :
    Predicts excused (fun _ => ()) (orderType f.types keys)
      (orderAndLimit rt f s keys limit offset) := by
  cases keys with
  | nil =>
    rw [orderAndLimit_nil]
    refine Quiet.predicts (Quiet.bind (quiet_stopAt hex _ _ _) fun stop => ?_) fun _ _ => rfl
    split_ifs
    · exact quiet_ok _
    · exact quiet_permute hex s _
  | cons k keys =>
    have hkey : ∀ o ∈ k :: keys, Predicts excused (fun p : Arr × Bool => p.1.dataType)
        (o.expr.typeOf f.types) (do return (← eval rt f s o.expr, o.asc)) := fun o ho =>
      (heval o ho).recast fun _ => rfl
    have hkeys : Predicts excused (fun _ => ()) (orderType f.types (k :: keys))
        (evalKeys rt f s (k :: keys)) :=
      (Predicts.mapM hkey).forget
    rw [orderAndLimit_cons]
    refine hkeys.quietly fun arrays _ => ?_
    refine Quiet.bind ?_ fun need => (hsort arrays s.len need).bind fun idx => ?_
    · cases limit with
      | none => exact quiet_ok _
      | some l =>
        simp only [Option.mapM_some, map_eq_pure_bind]
        exact Quiet.bind ((quiet_addUsize hex offset l).bind fun _ => quiet_ok _)
          fun _ => quiet_ok _
    · exact (quiet_stopAt hex _ _ _).bind fun stop => quiet_permute hex s _

theorem finishSelect_predicted (hex : Excuses excused)
    (hsort : ∀ keys n need, Quiet excused (sortRows rt keys n need))
    (heval : ∀ s' e, Finishes rt f s plan s' e →
      Predicts excused dataType (e.typeOf f.types) (eval rt f s' e)) :
    Predicts excused QueryResult.types (outputTypes f.types plan.having plan.orderBy plan.projection)
      (finishSelect rt f s plan.having plan.orderBy plan.limit plan.offset plan.projection) := by
  refine (runHaving_predicted hex fun e he => heval s e (.having he)).bind fun s₁ h₁ => ?_
  have horder := orderAndLimit_predicted hex hsort (fun k hk => heval s₁ k.expr (.order h₁ hk))
    plan.limit plan.offset
  refine horder.bind fun s₂ h₂ => ?_
  have harrays := Predicts.mapM (l := plan.projection) (f := fun p => eval rt f s₂ p.expr)
    fun p hp => heval s₂ p.expr (.output h₁ h₂ hp)
  have hrows : ∀ arrays : List Arr, Predicts excused QueryResult.types (some (arrays.map dataType))
      (do
        let rows ← (List.range s₂.len).mapM (fun i => arrays.mapM (fun a => a.value i))
        return ⟨plan.projection.map (·.aliasName), arrays.map Arr.dataType, rows⟩) := fun arrays =>
    Quiet.wrapped (Quiet.mapM fun i _ => Quiet.mapM fun a _ => quiet_value hex a i) fun _ => rfl
  have hall := harrays.bind (k := some) fun arrays _ => hrows arrays
  rwa [Option.bind_fun_some] at hall

end Stages

section Queries

variable {excused : Fault → Prop} {rt : Runtime} {plan : Select} {table : Option Table}

theorem aggregate_rewritten {f : Frame} {s : Sel} {g : Grouped}
    (h : aggregate rt plan f s = .ok g) : g.projection = plan.rewritten.projection ∧
      g.orderBy = plan.rewritten.orderBy ∧ g.having = plan.rewritten.having := by
  obtain ⟨⟨columns, n⟩, -, h⟩ := bind_eq_ok.mp h
  obtain ⟨_, -, rfl⟩ := bind_pure_eq_ok.mp h
  exact ⟨rfl, rfl, rfl⟩

theorem runSelect_predicted (hex : Excuses excused)
    (hsort : ∀ keys n need, Quiet excused (sortRows rt keys n need))
    (hbytes : ∀ s keys, runFilter rt (sourceFrame table) (sourceRows table) plan.filter = .ok s →
      plan.isAggregate = true → plan.groupBy.mapM (eval rt (sourceFrame table) s) = .ok keys →
      ∀ i < s.len, ∀ k ∈ keys, Quiet excused (keyBytes k i))
    (heval : ∀ f s e, Evaluates rt plan table f s e →
      Predicts excused dataType (e.typeOf f.types) (eval rt f s e)) :
    Predicts excused QueryResult.types (plan.typesOf (sourceFrame table).types)
      (runSelect rt plan table) := by
  refine (runFilter_predicted fun e he => heval _ _ e (.filter he)).bind fun s hs => ?_
  by_cases hagg : plan.isAggregate = true
  · rw [if_pos hagg, if_pos hagg]
    have hcolumns := groupColumns_predicted hex (fun e he => heval _ s e (.key hs hagg he))
      (fun keys => hbytes s keys hs hagg)
      fun func arg distinct h => heval _ s arg (.argument hs hagg h)
    refine (aggregate_predicted hcolumns).bind fun g hg => ?_
    obtain ⟨hprojection, horder, hhaving⟩ := aggregate_rewritten hg
    rw [hprojection, horder, hhaving]
    have hend : ∀ s' e, Finishes rt ⟨g.columns⟩ (.all g.ngroups) plan.rewritten s' e →
        Predicts excused dataType (e.typeOf (Frame.types ⟨g.columns⟩)) (eval rt ⟨g.columns⟩ s' e) :=
      fun s' e h => heval _ s' e (.groups hs hagg hg h)
    exact finishSelect_predicted hex hsort hend
  · rw [if_neg hagg, if_neg hagg]
    have hend : ∀ s' e, Finishes rt (sourceFrame table) s { plan with having := none } s' e →
        Predicts excused dataType (e.typeOf (sourceFrame table).types)
          (eval rt (sourceFrame table) s' e) :=
      fun s' e h => heval _ s' e (.rows hs hagg h)
    exact finishSelect_predicted hex hsort hend

/-- Whatever the rows of the table are, an answer has the types of the query. -/
theorem runSelect_types {r : QueryResult} (h : runSelect rt plan table = .ok r) :
    plan.typesOf (sourceFrame table).types = some r.types := by
  have hall : Predicts (fun _ => True) QueryResult.types (plan.typesOf (sourceFrame table).types)
      (runSelect rt plan table) :=
    runSelect_predicted (fun _ => trivial) (fun _ _ _ _ _ => trivial)
      (fun _ _ _ _ _ _ _ _ _ _ _ => trivial)
      fun f s e _ => ⟨fun a ha => eval_dataType ha, fun _ _ => Or.inr trivial⟩
  exact hall.value r h

/-- What depends on the rows and not on their types alone. -/
def Fault.DataDependent (e : Fault) : Prop :=
  e.Unforeseen ∨ e = .bail "группировка по векторной колонке не поддерживается"

theorem quiet_of_crashes {α : Type} (hex : Excuses excused) {x : Exec α}
    (h : ∀ e, x = .error e → e.IsCrash) : Quiet excused x := by
  intro e he
  have hcrash := h e he
  cases e with
  | crash place => exact hex place
  | bail m => exact hcrash.elim

theorem excuses_dataDependent : Excuses Fault.DataDependent := fun _ => Or.inl trivial

theorem quiet_scalarKey (hex : Excuses excused) {k : Arr} (hk : ∀ dim rows, k ≠ .vector dim rows)
    (i : Nat) : Quiet excused (keyBytes k i) := by
  cases k with
  | i64 v => exact (quiet_pick hex v i).bind fun _ => quiet_ok _
  | f64 v => exact (quiet_pick hex v i).bind fun _ => quiet_ok _
  | bool v => exact (quiet_pick hex v i).bind fun _ => quiet_ok _
  | str v => exact (quiet_pick hex v i).bind fun _ => quiet_ok _
  | vector dim rows => exact absurd rfl (hk dim rows)

theorem quiet_keyBytes (k : Arr) (i : Nat) : Quiet Fault.DataDependent (keyBytes k i) := by
  cases k with
  | vector dim rows => exact quiet_excused (Or.inr rfl)
  | _ => exact quiet_scalarKey excuses_dataDependent (by simp) i

/-- Sorting fails in panics alone: those of a comparison, and that of a selection past the rows. -/
theorem quiet_sortRows (hrt : rt.Rearranging) (hex : Excuses excused) (keys : List (Arr × Bool))
    (n : Nat) (need : Option Nat) : Quiet excused (sortRows rt keys n need) := by
  have hfollows := cmpKeys_follows keys
  have hsort : ∀ l, Quiet excused (rt.sortUnstableBy (cmpKeys keys) l) := fun l =>
    quiet_of_crashes hex fun e he => by
      obtain ⟨a, b, -, hcmp⟩ := hrt.sort.failed inferInstance hfollows he
      exact cmpKeys_error hcmp
  cases need with
  | none => exact hsort _
  | some k =>
    unfold sortRows
    by_cases hk : k * 4 < n
    · simp only [hk, if_true]
      refine Quiet.bind (quiet_of_crashes hex fun e he => ?_) fun part => hsort _
      by_cases hlen : k < (List.range (asU32 n)).length
      · obtain ⟨a, b, -, hcmp⟩ := hrt.select.failed inferInstance hfollows hlen he
        exact cmpKeys_error hcmp
      · obtain ⟨e', he', hcrash⟩ := @hrt.beyond _ (cmpKeys keys) _ (not_lt.mp hlen)
        exact Except.error.inj (he'.symm.trans he) ▸ hcrash
    · simp only [hk, if_false]
      exact hsort _

theorem runFilter_len {f : Frame} {n : Nat} {filter : Option Expr} {s : Sel}
    (h : runFilter rt f n filter = .ok s) : s.len ≤ n := by
  cases filter with
  | none =>
    obtain rfl := pure_eq_ok.mp h
    exact Nat.le_refl _
  | some e =>
    obtain ⟨a, ha, h⟩ := bind_eq_ok.mp h
    obtain ⟨mask, hmask, h⟩ := bind_eq_ok.mp h
    have hlen := asBool_sized (eval_sized ha) (withContext_eq_ok.mp hmask)
    rcases mask with _ | ⟨m, _ | ⟨m', rest⟩⟩
    · obtain rfl := pure_eq_ok.mp h
      simp [Sel.len]
    · obtain rfl := pure_eq_ok.mp h
      split_ifs
      · exact Nat.le_refl _
      · simp [Sel.len]
    · obtain rfl := pure_eq_ok.mp h
      have hkept := List.length_filter_le (fun p : UInt8 × Nat => decide (p.1 ≠ 0))
        (m :: m' :: rest).zipIdx
      simp only [List.length_cons, Sel.len, List.length_map, List.length_zipIdx] at hlen hkept ⊢
      omega

theorem runHaving_len {f : Frame} {s s' : Sel} {having : Option Expr}
    (h : runHaving rt f s having = .ok s') : s'.len ≤ s.len := by
  cases having with
  | none =>
    obtain rfl := pure_eq_ok.mp h
    exact Nat.le_refl _
  | some e =>
    obtain ⟨a, -, h⟩ := bind_eq_ok.mp h
    obtain ⟨mask, -, h⟩ := bind_eq_ok.mp h
    have hloop : ∀ mask : List UInt8, (do
        let ids ← (List.range s.len).filterMapM (fun i => do
          if (← index mask i) ≠ 0 then return some (asU32 (← s.row i)) else return none)
        return Sel.ids ids : Exec Sel) = .ok s' → s'.len ≤ s.len := by
      intro mask h
      rw [filterMapM_eq_map] at h
      obtain ⟨ids, hids, rfl⟩ := bind_pure_eq_ok.mp h
      obtain ⟨os, hos, rfl⟩ := map_eq_ok.mp hids
      exact (List.length_filterMap_le _ _).trans_eq (mapM_range_length hos)
    rcases mask with _ | ⟨m, _ | ⟨m', rest⟩⟩
    · exact hloop _ h
    · obtain rfl := pure_eq_ok.mp h
      split_ifs
      · exact Nat.le_refl _
      · exact Nat.zero_le _
    · exact hloop _ h

/-- Whatever a query evaluates, it evaluates over columns of one length and within their rows. -/
theorem Evaluates.within (hrt : rt.Rearranging) (hplan : plan.Planned)
    (htable : ∀ t ∈ table, t.Aligned) {f : Frame} {s : Sel} {e : Expr}
    (h : Evaluates rt plan table f s e) : ∃ N, (∀ c ∈ f.cols, c.len = N) ∧ s.Within N := by
  have hsource := source_len htable
  have hfinish : ∀ (p : Select) {f : Frame} {s s' : Sel} {e : Expr} {N : Nat}, s.Within N →
      p.limit = plan.limit → p.offset = plan.offset → Finishes rt f s p s' e → s'.Within N := by
    intro p f s s' e N hs hlimit hoffset h
    cases h with
    | having _ => exact hs
    | order h₁ _ => exact runHaving_within hs h₁
    | output h₁ h₂ _ =>
      refine orderAndLimit_within hrt (runHaving_within hs h₁) ?_ ?_ h₂
      · exact hlimit ▸ hplan.limit
      · exact hoffset ▸ hplan.offset
  cases h with
  | filter _ => exact ⟨_, hsource, rfl⟩
  | key hs _ _ => exact ⟨_, hsource, runFilter_within hs⟩
  | argument hs _ _ => exact ⟨_, hsource, runFilter_within hs⟩
  | @groups s s' g e hs _ hg h =>
    have hall : (Sel.all g.ngroups).Within g.ngroups := rfl
    exact ⟨g.ngroups, aggregate_covers hg g.ngroups rfl, hfinish plan.rewritten hall rfl rfl h⟩
  | rows hs _ h => exact ⟨_, hsource, hfinish { plan with having := none } (runFilter_within hs) rfl rfl h⟩

/-- A planned query over an aligned table: where its types exist, only the rows themselves can stop
it. -/
theorem runSelect_foreseen (hrt : rt.Rearranging) (hplan : plan.Planned)
    (htable : ∀ t ∈ table, t.Aligned) :
    Predicts Fault.DataDependent QueryResult.types (plan.typesOf (sourceFrame table).types)
      (runSelect rt plan table) := by
  refine runSelect_predicted excuses_dataDependent (quiet_sortRows hrt excuses_dataDependent)
    (fun _ _ _ _ _ i _ k _ => quiet_keyBytes k i) fun f s e h => ?_
  obtain ⟨N, hcols, hwithin⟩ := h.within hrt hplan htable
  exact (eval_foreseen hcols hwithin e).mono fun _ => Or.inl

end Queries

/-- A type that is no vector, if it is one at all. -/
def Scalar (t : Option DataType) : Prop :=
  ∀ dim, t ≠ some (.vector dim)

section Scalars

theorem scalar_bind {α : Type} {t : Option α} {k : α → Option DataType} (hk : ∀ a, Scalar (k a)) :
    Scalar (t.bind k) := by
  intro dim h
  obtain ⟨a, -, ha⟩ := Option.bind_eq_some_iff.mp h
  exact hk a dim ha

theorem scalar_none : Scalar none := nofun

theorem scalar_floatsType (op : BinOp) (l r : DataType) : Scalar (floatsType op l r) := by
  refine scalar_bind fun _ => scalar_bind fun _ => ?_
  cases op.isCmp <;> exact nofun

theorem scalar_binary (op : BinOp) (l r : DataType) : Scalar (op.typeOf l r) := by
  unfold BinOp.typeOf
  by_cases hlogic : op = .and ∨ op = .or
  · rw [if_pos hlogic]
    exact scalar_bind fun _ => scalar_bind fun _ => nofun
  rw [if_neg hlogic]
  split
  · split_ifs <;> exact nofun
  · exact scalar_none
  · exact scalar_none
  · split_ifs
    · exact nofun
    · exact nofun
    · exact scalar_floatsType _ _ _
  · exact scalar_floatsType _ _ _

theorem scalar_lit (v : Value) : Scalar v.litType := by
  cases v <;> exact nofun

theorem scalar_unary (op : UnOp) (v : DataType) : Scalar (op.typeOf v) := by
  cases op with
  | not => exact scalar_bind fun _ => nofun
  | neg => cases v <;> exact nofun

theorem scalar_like (v : DataType) : Scalar (likeType v) := by
  cases v <;> exact nofun

theorem scalar_inList (v : DataType) (list : List Value) : Scalar (inListType v list) :=
  scalar_bind fun _ => nofun

theorem scalar_between (v low : DataType) (high : Option DataType) :
    Scalar (betweenType v low high) :=
  scalar_bind fun _ => scalar_bind fun _ => scalar_bind fun _ => scalar_binary _ _ _

theorem scalar_cast (v ty : DataType) : Scalar (castType v ty) := by
  cases ty with
  | vector dim => exact scalar_none
  | _ => cases v <;> exact nofun

theorem scalar_func {func : ScalarFunc} (hfunc : func ≠ .coalesce) (args : List DataType) :
    Scalar (func.typeOf args) := by
  cases func with
  | coalesce => exact absurd rfl hfunc
  | abs =>
    refine scalar_bind fun v => ?_
    cases v <;> exact nofun
  | ifThen =>
    refine scalar_bind fun _ => scalar_bind fun _ => scalar_bind fun a => scalar_bind fun b => ?_
    unfold branchesType
    split
    · exact nofun
    · exact scalar_bind fun _ => scalar_bind fun _ => nofun
  | round => exact scalar_bind fun _ => scalar_bind fun _ => scalar_bind fun _ => nofun
  | substring =>
    exact scalar_bind fun _ => scalar_bind fun _ => scalar_bind fun _ => scalar_bind fun _ =>
      scalar_bind fun _ => nofun
  | dateTrunc =>
    exact scalar_bind fun _ => scalar_bind fun _ => scalar_bind fun _ => scalar_bind fun _ => nofun
  | _ => exact scalar_bind fun _ => scalar_bind fun _ => nofun

theorem scalar_distance (query : List F32) (v : DataType) : Scalar (distanceType query v) := by
  cases v with
  | vector dim =>
    simp only [distanceType]
    split_ifs <;> exact nofun
  | _ => exact scalar_none

/-- Only a column, or the first argument of `coalesce`, is a vector. -/
theorem Expr.typeOf_vector {cols : List DataType} {e : Expr} {dim : UInt64}
    (h : e.typeOf cols = some (.vector dim)) :
    (∃ i, e = .col i) ∨ ∃ args, e = .func .coalesce args := by
  cases e with
  | col i => exact Or.inl ⟨i, rfl⟩
  | lit v => exact absurd h (scalar_lit v dim)
  | binary op l r => exact absurd h (scalar_bind (fun _ => scalar_bind fun _ => scalar_binary _ _ _) dim)
  | unary op e => exact absurd h (scalar_bind (fun _ => scalar_unary _ _) dim)
  | like e pattern negated ci => exact absurd h (scalar_bind (fun _ => scalar_like _) dim)
  | inList e list negated => exact absurd h (scalar_bind (fun _ => scalar_inList _ _) dim)
  | between e low high negated =>
    exact absurd h (scalar_bind (fun _ => scalar_bind fun _ => scalar_between _ _ _) dim)
  | cast e ty => exact absurd h (scalar_bind (fun _ => scalar_cast _ _) dim)
  | func f args =>
    by_cases hf : f = .coalesce
    · subst hf
      exact Or.inr ⟨args, rfl⟩
    · exact absurd h (scalar_bind (fun _ => scalar_func hf _) dim)
  | distance metric c query => exact absurd h (scalar_bind (fun _ => scalar_distance _ _) dim)
  | agg func arg distinct => exact absurd h (scalar_none dim)

end Scalars

section Rows

variable {rt : Runtime} {f : Frame} {sel : Sel}

/-- Every value of the array has its type. -/
def Arr.Uniform (a : Arr) : Prop :=
  ∀ i v, a.value i = .ok v → v.typeOf = a.dataType

theorem uniform_scalar {a : Arr} (h : ∀ dim rows, a ≠ .vector dim rows) : a.Uniform := by
  intro i v hv
  cases a with
  | vector dim rows => exact absurd rfl (h dim rows)
  | _ =>
    obtain ⟨x, -, rfl⟩ := bind_pure_eq_ok.mp hv
    rfl

theorem vectorAt_length {dim : UInt64} {data v : List F32} {r : Nat}
    (h : (Column.vector dim data).vectorAt r = .ok (some v)) : v.length = dim.toNat := by
  simp only [Column.vectorAt] at h
  by_cases hfits : (r + 1) * dim.toNat ≤ data.length
  · rw [if_pos hfits] at h
    obtain rfl := Option.some.inj (Except.ok.inj h)
    rw [List.length_take, List.length_drop, Nat.add_mul] at *
    omega
  · rw [if_neg hfits] at h
    cases h

theorem gather_uniform {c : Column} {a : Arr} (h : gather c sel = .ok a) : a.Uniform := by
  cases c with
  | vector dim data =>
    obtain ⟨rows, hrows, rfl⟩ := bind_pure_eq_ok.mp h
    intro i v hv
    obtain ⟨x, hx, rfl⟩ := bind_pure_eq_ok.mp hv
    have hmem : x ∈ rows := List.mem_of_getElem? (index_eq_ok.mp hx)
    obtain ⟨k, -, hk⟩ := exists_of_mem_mapM hrows hmem
    obtain ⟨r, -, hk⟩ := bind_eq_ok.mp hk
    obtain ⟨o, ho, hk⟩ := bind_eq_ok.mp hk
    cases o with
    | none => cases hk
    | some w =>
      obtain rfl := pure_eq_ok.mp hk
      simp [Value.typeOf, dataType, vectorAt_length ho]
  | str s =>
    obtain ⟨w, -, rfl⟩ := bind_pure_eq_ok.mp h
    exact uniform_scalar (by simp)
  | _ =>
    refine uniform_scalar ?_
    cases sel with
    | all n =>
      obtain rfl := Except.ok.inj h
      simp
    | ids v =>
      obtain ⟨w, -, rfl⟩ := bind_pure_eq_ok.mp h
      simp

theorem eval_uniform {e : Expr} {a : Arr} (h : eval rt f sel e = .ok a) : a.Uniform := by
  induction e using Expr.induct_children generalizing a with
  | step e ih =>
    cases a with
    | vector dim rows =>
      rcases Expr.typeOf_vector (eval_dataType h) with ⟨i, rfl⟩ | ⟨args, rfl⟩
      · have hcol := eval_node (eval_col rt f sel i) h
        cases hc : f.cols[i]? with
        | none =>
          rw [hc] at hcol
          cases hcol
        | some c =>
          rw [hc] at hcol
          exact gather_uniform hcol
      · obtain ⟨A, hA, hfirst⟩ := bind_eq_ok.mp (eval_node (eval_func rt f sel .coalesce args) h)
        rw [evalArgs_eq_mapM] at hA
        obtain ⟨arg, harg, heval⟩ := exists_of_mem_mapM hA
          (List.mem_of_getElem? (index_eq_ok.mp hfirst))
        exact ih arg harg heval
    | _ => exact uniform_scalar nofun

theorem row_typed {arrays : List Arr} {row : List Value} {i : Nat} (harrays : ∀ a ∈ arrays, a.Uniform)
    (h : arrays.mapM (fun a => a.value i) = .ok row) :
    row.map Value.typeOf = arrays.map dataType := by
  have hvalues := mapM_eq_ok.mp h
  clear h
  induction hvalues with
  | nil => rfl
  | cons hv _ ih =>
    rw [List.map_cons, List.map_cons, harrays _ (by simp) _ _ hv, ih fun a ha => harrays a (by simp [ha])]

/-- A rectangle: the rows of an answer have the types it announces, one for each name. -/
structure QueryResult.Typed (r : QueryResult) : Prop where
  header : r.columns.length = r.types.length
  rows : ∀ row ∈ r.rows, row.map Value.typeOf = r.types

theorem finishSelect_typed {having : Option Expr} {orderBy : List OrderKey} {limit : Option Nat}
    {offset : Nat} {projection : List Projection} {r : QueryResult}
    (h : finishSelect rt f sel having orderBy limit offset projection = .ok r) : r.Typed := by
  obtain ⟨s₁, -, h⟩ := bind_eq_ok.mp h
  obtain ⟨s₂, -, h⟩ := bind_eq_ok.mp h
  obtain ⟨arrays, harrays, h⟩ := bind_eq_ok.mp h
  obtain ⟨rows, hrows, rfl⟩ := bind_pure_eq_ok.mp h
  refine ⟨by simp [mapM_length harrays], fun row hrow => ?_⟩
  obtain ⟨i, -, hi⟩ := exists_of_mem_mapM hrows hrow
  refine row_typed (fun a ha => ?_) hi
  obtain ⟨p, -, hp⟩ := exists_of_mem_mapM harrays ha
  exact eval_uniform hp

theorem runSelect_typed {plan : Select} {table : Option Table} {r : QueryResult}
    (h : runSelect rt plan table = .ok r) : r.Typed := by
  obtain ⟨s, -, h⟩ := bind_eq_ok.mp h
  by_cases hagg : plan.isAggregate = true
  · rw [if_pos hagg] at h
    obtain ⟨g, -, h⟩ := bind_eq_ok.mp h
    exact finishSelect_typed h
  · rw [if_neg hagg] at h
    exact finishSelect_typed h

theorem finishSelect_columns {having : Option Expr} {orderBy : List OrderKey} {limit : Option Nat}
    {offset : Nat} {projection : List Projection} {r : QueryResult}
    (h : finishSelect rt f sel having orderBy limit offset projection = .ok r) :
    r.columns = projection.map (·.aliasName) := by
  obtain ⟨s₁, -, h⟩ := bind_eq_ok.mp h
  obtain ⟨s₂, -, h⟩ := bind_eq_ok.mp h
  obtain ⟨arrays, -, h⟩ := bind_eq_ok.mp h
  obtain ⟨rows, -, rfl⟩ := bind_pure_eq_ok.mp h
  rfl

theorem runSelect_columns {plan : Select} {table : Option Table} {r : QueryResult}
    (h : runSelect rt plan table = .ok r) : r.columns = plan.projection.map (·.aliasName) := by
  obtain ⟨s, -, h⟩ := bind_eq_ok.mp h
  by_cases hagg : plan.isAggregate = true
  · rw [if_pos hagg] at h
    obtain ⟨g, hg, h⟩ := bind_eq_ok.mp h
    obtain ⟨⟨cols, n⟩, -, hg⟩ := bind_eq_ok.mp hg
    obtain ⟨_, -, hg⟩ := bind_eq_ok.mp hg
    obtain rfl := pure_eq_ok.mp hg
    rw [finishSelect_columns h]
    simp [Select.rewritten]
  · rw [if_neg hagg] at h
    exact finishSelect_columns h

end Rows

/-- The types a schema gives its columns; without a table there are none. -/
def sourceTypes : Option Table → List DataType
  | some t => t.schema.fields.map Field.ty
  | none => []

theorem sourceFrame_types {table : Option Table} (h : ∀ t ∈ table, t.Aligned) :
    (sourceFrame table).types = sourceTypes table := by
  cases table with
  | none => rfl
  | some t =>
    refine List.forall₂_eq_eq_eq ▸ ?_
    exact List.forall₂_map_left_iff.mpr (List.forall₂_map_right_iff.mpr (h t rfl).typed)

/-- The schema alone tells the types of a query's answer, and an answer is a rectangle of values of
these types. A query the schema finds them for is stopped by its rows alone. -/
theorem runSelect_sound {tx : Texts} {catalog : Schemas} {q : Sa.Query} {rt : Runtime}
    {plan : Select} {table : Option Table} (hrt : rt.Rearranging)
    (hplan : planQuery tx catalog q = .ok plan) (htable : ∀ t ∈ table, t.Aligned) :
    (∀ r, runSelect rt plan table = .ok r →
      plan.typesOf (sourceTypes table) = some r.types ∧ r.Typed) ∧
    ∀ m, runSelect rt plan table = bail m → plan.typesOf (sourceTypes table) = none ∨
      (∃ unit : String, m = s!"date_trunc: единица '{unit}' не поддерживается") ∨
      m = "группировка по векторной колонке не поддерживается" := by
  have hforeseen := runSelect_foreseen hrt (gives_planQuery plan hplan) htable
  rw [sourceFrame_types htable] at hforeseen
  refine ⟨fun r h => ⟨hforeseen.value r h, runSelect_typed h⟩, fun m h => ?_⟩
  refine (hforeseen.error _ h).imp_right fun hm => hm.imp_right fun hkey => ?_
  exact Fault.bail.inj hkey

/-- `SELECT b, sum(a) FROM t GROUP BY b` over `t (a INT, b INT)`. -/
def sumsByKey : Sa.Query where
  body := .select {
    projection := [.unnamedExpr (.identifier "b"),
      .unnamedExpr (.function [.identifier "sum"] (.list none [.unnamed (.identifier "a")]) none none)]
    from_ := [⟨.table [.identifier "t"], []⟩]
    groupBy := .expressions [.identifier "b"] [] }

def sumsByKeyPlan : Select where
  table := some "t"
  filter := none
  groupBy := [.col 1]
  having := none
  projection := [⟨.col 1, "b"⟩, ⟨.agg .sum (some (.col 0)) false, ""⟩]
  orderBy := []
  limit := none
  offset := 0

theorem runSelect_sound_sums :
    sumsByKeyPlan.typesOf [.i64, .i64] = some [.i64, .i64] ∧
    (∀ r, runSelect plainRuntime sumsByKeyPlan (some twoRows) = .ok r →
      sumsByKeyPlan.typesOf (sourceTypes (some twoRows)) = some r.types ∧ r.Typed) ∧
    ∀ m, runSelect plainRuntime sumsByKeyPlan (some twoRows) = bail m →
      sumsByKeyPlan.typesOf (sourceTypes (some twoRows)) = none ∨
      (∃ unit : String, m = s!"date_trunc: единица '{unit}' не поддерживается") ∨
      m = "группировка по векторной колонке не поддерживается" := by
  have hplan : planQuery { plainTexts with displayName := fun _ => "sum" } twoRowsCatalog sumsByKey =
      .ok sumsByKeyPlan := rfl
  have htable : ∀ t ∈ some twoRows, t.Aligned := by
    intro t ht
    exact Option.some.inj ht ▸ twoRows_aligned
  exact ⟨by decide +kernel, runSelect_sound plainRuntime_sorting.rearranging hplan htable⟩

end Veldb
