import Veldb.EvalCrashes

/-! What every planned query has: calls with as many arguments as their functions take, and
a limit and an offset that are not too large to be added. -/

namespace Veldb

open Attempts

namespace Expr

theorem callable_of_children {e : Expr} (hne : ∀ func args, e ≠ .func func args)
    (h : ∀ c ∈ e.children, c.Callable) : e.Callable := by
  intro func args hmem
  rcases mem_subexprs.mp hmem with heq | ⟨c, hc, hmem⟩
  · exact absurd heq.symm (hne func args)
  · exact h c hc func args hmem

theorem callable_func {func : ScalarFunc} {args : List Expr}
    (harity : arityOk func args.length = true) (h : ∀ a ∈ args, a.Callable) :
    (Expr.func func args).Callable := by
  intro func' args' hmem
  rcases mem_subexprs.mp hmem with heq | ⟨c, hc, hmem⟩
  · obtain ⟨rfl, rfl⟩ := Expr.func.inj heq
    exact harity
  · exact h c hc func' args' hmem

theorem callable_col (i : Nat) : (Expr.col i).Callable :=
  callable_of_children (by simp) (by simp [children])

theorem callable_lit (v : Value) : (Expr.lit v).Callable :=
  callable_of_children (by simp) (by simp [children])

theorem callable_unary {op : UnOp} {e : Expr} (h : e.Callable) : (Expr.unary op e).Callable :=
  callable_of_children (by simp) (by simpa [children] using h)

theorem callable_binary {op : BinOp} {l r : Expr} (hl : l.Callable) (hr : r.Callable) :
    (Expr.binary op l r).Callable :=
  callable_of_children (by simp) (by simpa [children] using ⟨hl, hr⟩)

theorem Callable.part {e d : Expr} (h : e.Callable) (hd : d ∈ e.subexprs) : d.Callable :=
  fun func args hmem => h func args (mem_subexprs_trans hmem hd)

/-- Rewriting keeps the number of arguments of every call. -/
theorem Callable.substitute {pats : List (Expr × Expr)} {e : Expr}
    (hpats : ∀ p ∈ pats, p.2.Callable) (h : e.Callable) : (e.substitute pats).Callable := by
  induction e using Expr.induct_children with
  | step e ih =>
    cases hfind : pats.find? (fun p => e.eq p.1) with
    | some p =>
      rw [substitute.eq_def, hfind]
      exact hpats p (List.mem_of_find?_eq_some hfind)
    | none =>
      have hchildren : ∀ c ∈ (e.substitute pats).children, c.Callable := by
        intro c hc
        rw [children_substitute hfind] at hc
        obtain ⟨d, hd, rfl⟩ := List.mem_map.mp hc
        exact ih d hd (h.child hd)
      rw [substitute.eq_def, hfind] at hchildren ⊢
      cases e with
      | func func args =>
        refine callable_func ?_ hchildren
        rw [substituteArgs_eq_map, List.length_map]
        exact h func args (mem_subexprs_self _)
      | _ => exact callable_of_children (by simp) hchildren

end Expr

/-- What the planner makes of a query. -/
structure Select.Planned (plan : Select) : Prop where
  filter : ∀ e ∈ plan.filter, e.Callable
  groupBy : ∀ e ∈ plan.groupBy, e.Callable
  outputs : ∀ e ∈ plan.outputs, e.Callable
  limit : ∀ l ∈ plan.limit, l < 2 ^ 63
  offset : plan.offset < 2 ^ 63

namespace Select

variable {plan : Select}

theorem Planned.aggs (h : plan.Planned) {p : Expr} (hp : p ∈ plan.aggs) : p.Callable := by
  obtain ⟨-, e, he, hreached⟩ := plan.aggs_reached hp
  exact (h.outputs e he).part hreached.mem_subexprs

theorem pats_snd (plan : Select) : ∀ p ∈ plan.pats, ∃ i, p.2 = .col i := by
  intro p hp
  rcases List.mem_append.mp hp with hp | hp
  · obtain ⟨q, -, rfl⟩ := List.mem_map.mp hp
    exact ⟨_, rfl⟩
  · obtain ⟨q, -, rfl⟩ := List.mem_map.mp hp
    exact ⟨_, rfl⟩

theorem Planned.rewritten (h : plan.Planned) : ∀ e ∈ plan.rewritten.outputs, e.Callable := by
  intro e he
  rw [plan.outputs_rewritten] at he
  obtain ⟨d, hd, rfl⟩ := List.mem_map.mp he
  refine (h.outputs d hd).substitute fun p hp => ?_
  obtain ⟨i, hi⟩ := plan.pats_snd p hp
  exact hi ▸ Expr.callable_col i

end Select

section Binding

variable {tx : Texts} {schema : Schema}

theorem gives_withContext {α : Type} {p : α → Prop} {what : String} {x : Exec α} (h : Gives p x) :
    Gives p (withContext what x) := by
  cases x with
  | ok a => exact h
  | error e => cases e <;> exact gives_error _

/-- A check that the computation does not pass gives nothing. -/
theorem gives_check {α : Type} {p : α → Prop} {c : Prop} [Decidable c] {message : String}
    {x : Exec α} (h : Gives p x) : Gives p (if c then bail message else x) := by
  by_cases hc : c
  · rw [if_pos hc]
    exact gives_error _
  · rwa [if_neg hc]

theorem gives_bindColumn (name : String) : Gives Expr.Callable (bindColumn schema name) := by
  unfold bindColumn
  cases schema.indexOf name with
  | none => exact gives_error _
  | some i => exact gives_ok (Expr.callable_col i)

theorem gives_bindMinus {e : Expr} (h : e.Callable) : Gives Expr.Callable (bindMinus e) := by
  have hother : Gives Expr.Callable (.ok (.unary .neg e) : Exec Expr) :=
    gives_ok (Expr.callable_unary h)
  cases e with
  | lit v =>
    cases v with
    | i64 i => exact gives_bind fun n => gives_pure (Expr.callable_lit _)
    | f64 x => exact gives_ok (Expr.callable_lit _)
    | _ => exact hother
  | _ => exact hother

theorem gives_bindUnary {op : Sa.UnaryOperator} {e : Exec Expr} (h : Gives Expr.Callable e) :
    Gives Expr.Callable (bindUnary op e) := by
  cases op with
  | not => exact h.bind fun a ha => gives_pure (Expr.callable_unary ha)
  | minus => exact h.bind fun a ha => gives_bindMinus ha
  | plus => exact h
  | other text => exact gives_error _

theorem gives_bindLike {e : Exec Expr} {pattern : Sa.Expr} {negated ci : Bool}
    (h : Gives Expr.Callable e) : Gives Expr.Callable (bindLike tx e pattern negated ci) := by
  refine gives_bind fun v => ?_
  cases v with
  | str pat =>
    refine h.bind fun a ha => gives_pure ?_
    exact Expr.callable_of_children (by simp) (by simpa [Expr.children] using ha)
  | _ => exact gives_error _

/-- The arguments of a call are bound to calls of the right arity. -/
def Arguments.Callable (args : Arguments) : Prop :=
  ∀ p ∈ args.plain, Gives Expr.Callable p.2

theorem gives_bindAggregate {func : AggFunc} {name lname : String} {args : Arguments}
    (h : args.Callable) : Gives Expr.Callable (bindAggregate func name lname args) := by
  obtain ⟨plain, distinct, wildcard⟩ := args
  have hcount : Gives Expr.Callable (if func ≠ .count then bail s!"{name}(*) не имеет смысла"
      else .ok (.agg .count none false)) :=
    gives_check (gives_ok (Expr.callable_of_children (by simp) (by simp [Expr.children])))
  cases plain with
  | nil => cases wildcard <;> exact hcount
  | cons p rest =>
    cases wildcard with
    | true => exact hcount
    | false =>
      cases rest with
      | nil =>
        refine (h p (by simp)).bind fun a ha => gives_pure ?_
        exact Expr.callable_of_children (by simp) (by simpa [Expr.children] using ha)
      | cons _ _ => exact gives_error _

theorem gives_bindDistance {metric : Metric} {name : String} (args : Arguments) :
    Gives Expr.Callable (bindDistance tx schema metric name args) := by
  obtain ⟨plain, distinct, wildcard⟩ := args
  cases plain with
  | nil => exact gives_error _
  | cons p rest =>
    cases rest with
    | nil => exact gives_error _
    | cons q rest =>
      cases rest with
      | cons _ _ => exact gives_error _
      | nil =>
        refine gives_bind fun column => ?_
        cases column with
        | col c =>
          refine gives_bind fun field => ?_
          cases field.ty with
          | vector dim =>
            refine gives_bind fun query => gives_check ?_
            exact gives_pure (Expr.callable_of_children (by simp) (by simp [Expr.children]))
          | _ => exact gives_error _
        | _ => exact gives_error _

theorem gives_bindScalar {name lname : String} {args : Arguments} (h : args.Callable) :
    Gives Expr.Callable (bindScalar name lname args) := by
  refine gives_bind fun func => (Gives.mapM h).bind fun bound hbound => ?_
  by_cases harity : arityOk func bound.length = true
  · rw [if_pos harity]
    exact gives_ok (Expr.callable_func harity hbound)
  · rw [if_neg harity]
    exact gives_error _

theorem gives_bindFunction {name : Sa.ObjectName} {hasOver : Bool} {args : Exec Arguments}
    (h : Gives Arguments.Callable args) :
    Gives Expr.Callable (bindFunction tx schema name hasOver args) := by
  refine gives_bind fun name => ?_
  cases hasOver with
  | true => exact gives_error _
  | false =>
    refine h.bind fun a ha => ?_
    unfold bindCall
    cases AggFunc.fromName (toAsciiLowercase name) with
    | some func => exact gives_bindAggregate ha
    | none =>
      cases Metric.fromName (toAsciiLowercase name) with
      | some metric => exact gives_bindDistance a
      | none => exact gives_bindScalar ha

theorem gives_whenCondition {operand : Option (Exec Expr)} {condition : Exec Expr}
    (ho : ∀ e ∈ operand, Gives Expr.Callable e) (hc : Gives Expr.Callable condition) :
    Gives Expr.Callable (whenCondition operand condition) := by
  cases operand with
  | none => exact hc
  | some op =>
    refine (ho op rfl).bind fun a ha => hc.bind fun b hb => ?_
    exact gives_pure (Expr.callable_binary ha hb)

theorem gives_getD {o : Option (Exec Expr)} {v : Value} (h : ∀ e ∈ o, Gives Expr.Callable e) :
    Gives Expr.Callable (o.getD (.ok (.lit v))) := by
  cases o with
  | none => exact gives_ok (Expr.callable_lit v)
  | some e => exact h e rfl

mutual

theorem gives_bindExpr (e : Sa.Expr) : Gives Expr.Callable (bindExpr tx schema e) := by
  match e with
  | .identifier id => exact gives_bindColumn id.value
  | .compoundIdentifier parts => exact gives_bind fun id => gives_bindColumn id.value
  | .value v => exact gives_bind fun v => gives_pure (Expr.callable_lit v)
  | .nested inner => exact gives_bindExpr inner
  | .unaryOp op e => exact gives_bindUnary (gives_bindExpr e)
  | .binaryOp left op right =>
    refine gives_bind fun op => (gives_bindExpr left).bind fun l hl => ?_
    exact (gives_bindExpr right).bind fun r hr => gives_pure (Expr.callable_binary hl hr)
  | .like negated e pattern _ => exact gives_bindLike (gives_bindExpr e)
  | .iLike negated e pattern _ => exact gives_bindLike (gives_bindExpr e)
  | .inList e list negated =>
    refine (gives_bindExpr e).bind fun a ha => gives_bind fun list => gives_pure ?_
    exact Expr.callable_of_children (by simp) (by simpa [Expr.children] using ha)
  | .between e negated low high =>
    refine (gives_bindExpr e).bind fun a ha => (gives_bindExpr low).bind fun l hl => ?_
    refine (gives_bindExpr high).bind fun h hh => gives_pure ?_
    exact Expr.callable_of_children (by simp) (by simpa [Expr.children] using ⟨ha, hl, hh⟩)
  | .cast e ty _ =>
    refine (gives_bindExpr e).bind fun a ha => gives_bind fun ty => gives_pure ?_
    exact Expr.callable_of_children (by simp) (by simpa [Expr.children] using ha)
  | .extract field e _ =>
    intro r h
    obtain ⟨func, hfunc, h⟩ := bind_eq_ok.mp h
    obtain ⟨a, ha, rfl⟩ := bind_pure_eq_ok.mp h
    refine Expr.callable_func ?_ (by simpa using gives_bindExpr e a ha)
    cases field with
    | other text => cases hfunc
    | _ => obtain rfl := Except.ok.inj hfunc; rfl
  | .substring e substringFrom substringFor _ _ =>
    refine (gives_bindExpr e).bind fun a ha => ?_
    refine (gives_getD (gives_bindOption substringFrom)).bind fun b hb => ?_
    have hfor := gives_bindOption substringFor
    cases hcount : bindOption tx schema substringFor with
    | none => exact gives_pure (Expr.callable_func rfl (by simpa using ⟨ha, hb⟩))
    | some count =>
      refine (hfor count hcount).bind fun c hc => gives_pure ?_
      exact Expr.callable_func rfl (by simpa using ⟨ha, hb, hc⟩)
  | .case operand conditions elseResult =>
    refine (gives_getD (gives_bindOption elseResult)).bind fun out hout => ?_
    exact gives_bindWhens (gives_bindOption operand) conditions hout
  | .function name args _ window _ => exact gives_bindFunction (gives_bindArguments args)
  | .isNull _ | .isNotNull _ | .array _ _ | .other _ => exact gives_error _

theorem gives_bindOption (o : Option Sa.Expr) :
    ∀ e ∈ bindOption tx schema o, Gives Expr.Callable e := by
  match o with
  | none => simp [bindOption]
  | some e =>
    intro x hx
    exact Option.some.inj hx ▸ gives_bindExpr e

theorem gives_bindWhens {operand : Option (Exec Expr)}
    (ho : ∀ e ∈ operand, Gives Expr.Callable e) (conditions : List Sa.CaseWhen) {out : Expr}
    (hout : out.Callable) : Gives Expr.Callable (bindWhens tx schema operand conditions out) := by
  match conditions with
  | [] => exact gives_ok hout
  | .mk condition result :: rest =>
    refine (gives_bindWhens ho rest hout).bind fun out hout => ?_
    refine (gives_whenCondition ho (gives_bindExpr condition)).bind fun c hc => ?_
    refine (gives_bindExpr result).bind fun r hr => gives_pure ?_
    exact Expr.callable_func rfl (by simpa using ⟨hc, hr, hout⟩)

theorem gives_bindArguments (args : Sa.FunctionArguments) :
    Gives Arguments.Callable (bindArguments tx schema args) := by
  match args with
  | .none => exact gives_ok (by simp [Arguments.Callable])
  | .subquery _ => exact gives_error _
  | .list treatment args _ => exact gives_ok (gives_bindArgs args)

theorem gives_bindArgs (args : List Sa.FunctionArg) :
    ∀ p ∈ bindArgs tx schema args, Gives Expr.Callable p.2 := by
  match args with
  | [] => simp [bindArgs]
  | .unnamed e :: rest | .named _ e _ :: rest =>
    intro p hp
    rcases List.mem_cons.mp hp with rfl | hp
    · exact gives_bindExpr e
    · exact gives_bindArgs rest p hp
  | .wildcard :: rest | .other _ :: rest => exact gives_bindArgs rest

end

end Binding

section Clauses

variable {tx : Texts} {schema : Schema} {bound : List Projection}

theorem gives_asUsize (e : Sa.Expr) : Gives (· < 2 ^ 63) (asUsize tx e) := by
  refine gives_bind fun v => ?_
  cases v with
  | i64 i =>
    change Gives _ (if 0 ≤ i.toInt then _ else _)
    by_cases hi : 0 ≤ i.toInt
    · rw [if_pos hi]
      have hlt := i.toInt_lt
      exact gives_pure (by omega)
    · rw [if_neg hi]
      exact gives_error _
  | _ => exact gives_error _

theorem gives_limitOffset (limit : Option Sa.LimitClause) :
    Gives (fun r => (∀ l ∈ r.1, l < 2 ^ 63) ∧ r.2 < 2 ^ 63) (limitOffset tx limit) := by
  cases limit with
  | none => exact gives_ok ⟨by simp, by omega⟩
  | some clause =>
    cases clause with
    | limitOffset limit offset limitBy =>
      refine gives_check ((Gives.mapM_option fun e _ => gives_asUsize e).bind fun l hl => ?_)
      refine (Gives.mapM_option fun e _ => gives_asUsize e).bind fun o ho => ?_
      refine gives_pure ⟨hl, ?_⟩
      cases o with
      | none => exact Nat.two_pow_pos 63
      | some n => exact ho n rfl
    | offsetCommaLimit offset limit =>
      refine (gives_asUsize limit).bind fun l hl => (gives_asUsize offset).bind fun o ho => ?_
      exact gives_pure ⟨fun n hn => Option.some.inj hn ▸ hl, ho⟩

theorem gives_planItem (item : Sa.SelectItem) :
    Gives (fun ps => ∀ p ∈ ps, p.expr.Callable) (planItem tx schema item) := by
  cases item with
  | wildcard _ =>
    refine gives_ok fun p hp => ?_
    obtain ⟨f, -, rfl⟩ := List.mem_map.mp hp
    exact Expr.callable_col f.2
  | unnamedExpr e =>
    exact (gives_bindExpr e).bind fun a ha => gives_pure (by simpa using ha)
  | exprWithAlias e aliasName =>
    exact (gives_bindExpr e).bind fun a ha => gives_pure (by simpa using ha)
  | other text => exact gives_error _

/-- What an ordinal, an alias or a text refers to stands in the select list. -/
theorem gives_outputRef {raw : List Sa.SelectItem} (e : Sa.Expr) :
    Gives (fun o => ∀ x ∈ o, ∃ p ∈ bound, p.expr = x) (outputRef tx schema raw bound e) := by
  have halias : ∀ id x, refAlias schema bound id = some x → ∃ p ∈ bound, p.expr = x := by
    intro id x hx
    unfold refAlias at hx
    cases hfind : bound.find? (fun p => eqIgnoreAsciiCase p.aliasName id) with
    | none => simp [hfind] at hx
    | some p =>
      simp only [hfind, Option.ite_none_right_eq_some] at hx
      exact ⟨p, List.mem_of_find?_eq_some hfind, Option.some.inj hx.2⟩
  have htext : ∀ text x, refText tx raw bound text = some x → ∃ p ∈ bound, p.expr = x := by
    intro text x hx
    obtain ⟨q, hq, rfl⟩ := Option.map_eq_some_iff.mp hx
    exact ⟨q.2, (List.of_mem_zip (List.mem_of_find?_eq_some hq)).2, rfl⟩
  have hname : Gives (fun o => ∀ x ∈ o, ∃ p ∈ bound, p.expr = x)
      (.ok ((refIdentifier schema bound e).or (refText tx raw bound (tx.display e))) :
        Exec (Option Expr)) := by
    refine gives_ok fun x hx => ?_
    rcases Option.or_eq_some_iff.mp hx with hx | ⟨-, hx⟩
    · cases e with
      | identifier id => exact halias id.value x hx
      | _ => cases hx
    · exact htext _ x hx
  cases e with
  | value v =>
    cases v with
    | number n _ =>
      intro o ho x hx
      obtain ⟨y, hy, rfl⟩ := map_eq_ok.mp ho
      obtain rfl := Option.some.inj hx
      obtain ⟨idx, -, hy⟩ := bind_eq_ok.mp hy
      split_ifs at hy
      · cases hy
      · obtain ⟨p, hp, rfl⟩ := bind_pure_eq_ok.mp hy
        exact ⟨p, List.mem_of_getElem? (index_eq_ok.mp hp), rfl⟩
    | _ => exact hname
  | _ => exact hname

theorem gives_bindOutputRef {raw : List Sa.SelectItem} (hbound : ∀ p ∈ bound, p.expr.Callable)
    (e : Sa.Expr) : Gives Expr.Callable (bindOutputRef tx schema raw bound e) := by
  refine (gives_outputRef e).bind fun o ho => ?_
  cases o with
  | none => exact gives_bindExpr e
  | some x =>
    obtain ⟨p, hp, hx⟩ := ho x rfl
    exact gives_pure (hx ▸ hbound p hp)

theorem gives_planGroupBy {raw : List Sa.SelectItem} (hbound : ∀ p ∈ bound, p.expr.Callable)
    (groupBy : Sa.GroupByExpr) :
    Gives (fun es => ∀ e ∈ es, e.Callable) (planGroupBy tx schema raw bound groupBy) := by
  cases groupBy with
  | expressions es _ =>
    exact gives_withContext (Gives.mapM fun e _ => gives_bindOutputRef hbound e)
  | all => exact gives_error _

theorem gives_planOrderBy {raw : List Sa.SelectItem} (hbound : ∀ p ∈ bound, p.expr.Callable)
    (orderBy : Option Sa.OrderByKind) :
    Gives (fun ks => ∀ k ∈ ks, k.expr.Callable) (planOrderBy tx schema raw bound orderBy) := by
  cases orderBy with
  | none => exact gives_ok (by simp)
  | some kind =>
    cases kind with
    | all => exact gives_error _
    | expressions items =>
      refine gives_withContext (Gives.mapM fun it _ => ?_)
      exact (gives_bindOutputRef hbound it.expr).bind fun a ha => gives_pure ha

theorem gives_planBody {catalog : Schemas} {q : Sa.Query} {select : Sa.Select} :
    Gives Select.Planned (planBody tx catalog q select) := by
  refine gives_bind fun source => ?_
  refine (gives_withContext (Gives.mapM_option fun e _ => gives_bindExpr e)).bind
    fun filter hfilter => ?_
  refine (Gives.mapM fun item _ => gives_planItem item).bind fun items hitems => ?_
  have hbound : ∀ p ∈ items.flatten, p.expr.Callable := by
    intro p hp
    obtain ⟨ps, hps, hp⟩ := List.mem_flatten.mp hp
    exact hitems ps hps p hp
  refine gives_check ((gives_planGroupBy hbound select.groupBy).bind fun groupBy hgroupBy => ?_)
  refine gives_check ((gives_withContext (Gives.mapM_option fun e _ => gives_bindExpr e)).bind
    fun having hhaving => ?_)
  refine gives_check ((gives_planOrderBy hbound q.orderBy).bind fun orderBy horderBy => ?_)
  refine (gives_limitOffset q.limitClause).bind fun lo hlo => gives_pure ?_
  refine ⟨hfilter, hgroupBy, fun e he => ?_, hlo.1, hlo.2⟩
  rcases List.mem_append.mp he with he | he
  · obtain ⟨p, hp, rfl⟩ := List.mem_map.mp he
    exact hbound p hp
  rcases List.mem_append.mp he with he | he
  · exact hhaving e (Option.mem_toList.mp he)
  · obtain ⟨k, hk, rfl⟩ := List.mem_map.mp he
    exact horderBy k hk

theorem gives_planQuery {catalog : Schemas} {q : Sa.Query} :
    Gives Select.Planned (planQuery tx catalog q) := by
  refine gives_check ?_
  cases q.body with
  | select select => exact gives_check (gives_check gives_planBody)
  | _ => exact gives_error _

end Clauses

end Veldb
