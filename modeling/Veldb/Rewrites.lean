import Veldb.Library.Attempts
import Veldb.Planner

/-! Changes of a parsed expression that binding does not see: of how its names and types are
written, and of the parts of its patterns, casts and calls that are passed over. -/

namespace Veldb

open Attempts

namespace Sa

/-- What is put for the leaves of an expression and for the parts of its calls. -/
structure Rewrite where
  ident : Ident → Ident
  name : ObjectName → ObjectName
  type : DataType → DataType
  like : LikeOptions → LikeOptions
  cast : CastOptions → CastOptions
  options : FunctionOptions → FunctionOptions
  args : ObjectName → FunctionArguments → FunctionArguments

variable (r : Rewrite)

mutual

/-- FILTER is dropped in any case. -/
def Expr.rewrite (e : Expr) : Expr :=
  match e with
  | .identifier id => .identifier (r.ident id)
  | .compoundIdentifier parts => .compoundIdentifier (parts.map r.ident)
  | .value v => .value v
  | .nested e => .nested e.rewrite
  | .unaryOp op e => .unaryOp op e.rewrite
  | .binaryOp left op right => .binaryOp left.rewrite op right.rewrite
  | .isNull e => .isNull e.rewrite
  | .isNotNull e => .isNotNull e.rewrite
  | .like negated e pattern options => .like negated e.rewrite pattern.rewrite (r.like options)
  | .iLike negated e pattern options => .iLike negated e.rewrite pattern.rewrite (r.like options)
  | .inList e list negated => .inList e.rewrite (rewriteList list) negated
  | .between e negated low high => .between e.rewrite negated low.rewrite high.rewrite
  | .cast e ty options => .cast e.rewrite (r.type ty) (r.cast options)
  | .extract field e comma => .extract field e.rewrite comma
  | .substring e start count special shorthand =>
    .substring e.rewrite (rewriteOption start) (rewriteOption count) special shorthand
  | .case operand conditions elseResult =>
    .case (rewriteOption operand) (rewriteWhens conditions) (rewriteOption elseResult)
  | .array elem named => .array (rewriteList elem) named
  | .function name args _ window options =>
    .function (r.name name) (r.args name (rewriteArguments args)) none window (r.options options)
  | .other text => .other text

def rewriteList (es : List Expr) : List Expr :=
  match es with
  | [] => []
  | e :: rest => e.rewrite :: rewriteList rest

def rewriteOption (e : Option Expr) : Option Expr :=
  match e with
  | none => none
  | some e => some e.rewrite

def rewriteWhens (conditions : List CaseWhen) : List CaseWhen :=
  match conditions with
  | [] => []
  | .mk condition result :: rest => .mk condition.rewrite result.rewrite :: rewriteWhens rest

def rewriteArguments (args : FunctionArguments) : FunctionArguments :=
  match args with
  | .none => .none
  | .subquery text => .subquery text
  | .list treatment args clauses => .list treatment (rewriteArgs args) clauses

def rewriteArgs (args : List FunctionArg) : List FunctionArg :=
  match args with
  | [] => []
  | .unnamed e :: rest => .unnamed e.rewrite :: rewriteArgs rest
  | .named name e operator :: rest => .named name e.rewrite operator :: rewriteArgs rest
  | .wildcard :: rest => .wildcard :: rewriteArgs rest
  | .other text :: rest => .other text :: rewriteArgs rest

end

end Sa

section

variable (tx : Texts) (schema : Schema) (r : Sa.Rewrite)

theorem plainLiteral_rewrite (e : Sa.Expr) :
    Agree (plainLiteral tx e) (plainLiteral tx (e.rewrite r)) := by
  match e with
  | .value v => exact Agree.refl _
  | .unaryOp op e =>
    cases op with
    | minus => exact (plainLiteral_rewrite e).bind_left negLiteral
    | _ => exact agree_error _ _
  | .identifier _ | .compoundIdentifier _ | .nested _ | .binaryOp _ _ _ | .isNull _
  | .isNotNull _ | .like _ _ _ _ | .iLike _ _ _ _ | .inList _ _ _ | .between _ _ _ _
  | .cast _ _ _ | .extract _ _ _ | .substring _ _ _ _ _ | .case _ _ _ | .array _ _
  | .function _ _ _ _ _ | .other _ => exact agree_error _ _

theorem rewriteList_forall₂ (es : List Sa.Expr) :
    List.Forall₂ (fun a b => Agree (plainLiteral tx a) (plainLiteral tx b)) es
      (Sa.rewriteList r es) := by
  induction es with
  | nil => exact List.Forall₂.nil
  | cons e es ih => exact List.Forall₂.cons (plainLiteral_rewrite tx r e) ih

theorem vectorLiteral_rewrite (e : Sa.Expr) :
    Agree (vectorLiteral tx e) (vectorLiteral tx (e.rewrite r)) := by
  cases e with
  | value v => exact Agree.refl _
  | array elem named =>
    exact Agree.mapM ((rewriteList_forall₂ tx r elem).imp fun _ _ h => h.bind_left _)
  | _ => exact agree_error _ _

/-- The same arguments, each bound alike. -/
structure Arguments.Alike (args args' : Arguments) : Prop where
  plain : List.Forall₂ (fun p q => Agree p.2 q.2 ∧
    Agree (vectorLiteral tx p.1) (vectorLiteral tx q.1)) args.plain args'.plain
  distinct : args.distinct = args'.distinct
  wildcard : args.wildcard = args'.wildcard

variable {tx schema}

theorem Arguments.Alike.refl (args : Arguments) : args.Alike tx args :=
  ⟨List.forall₂_same.mpr fun _ _ => ⟨Agree.refl _, Agree.refl _⟩, rfl, rfl⟩

theorem agree_guard {α : Type} {c : Prop} [Decidable c] {msg msg' : String} {x y : Exec α}
    (h : Agree x y) : Agree (if c then bail msg else x) (if c then bail msg' else y) := by
  by_cases hc : c
  · rw [if_pos hc, if_pos hc]
    exact agree_error _ _
  · rw [if_neg hc, if_neg hc]
    exact h

/-- How the function is written shows in errors only. -/
theorem bindAggregate_agree {func : AggFunc} {name other lname : String} {args args' : Arguments}
    (h : args.Alike tx args') :
    Agree (bindAggregate func name lname args) (bindAggregate func other lname args') := by
  obtain ⟨plain, distinct, wildcard⟩ := args
  obtain ⟨plain', distinct', wildcard'⟩ := args'
  obtain ⟨hplain, rfl, rfl⟩ := h
  have hcount : Agree
      (if func ≠ .count then bail s!"{name}(*) не имеет смысла" else .ok (Expr.agg .count none false))
      (if func ≠ .count then bail s!"{other}(*) не имеет смысла"
        else .ok (Expr.agg .count none false)) := agree_guard (Agree.refl _)
  cases hplain with
  | nil => cases wildcard <;> exact hcount
  | cons hp hrest =>
    cases wildcard with
    | true => exact hcount
    | false =>
      cases hrest with
      | nil => exact hp.1.bind_left _
      | cons _ _ => exact agree_error _ _

theorem bindDistance_agree {metric : Metric} {name name' : String} {args args' : Arguments}
    (h : args.Alike tx args') :
    Agree (bindDistance tx schema metric name args) (bindDistance tx schema metric name' args') := by
  obtain ⟨plain, distinct, wildcard⟩ := args
  obtain ⟨plain', distinct', wildcard'⟩ := args'
  obtain ⟨hplain, rfl, rfl⟩ := h
  cases hplain with
  | nil => exact agree_error _ _
  | cons hp hrest =>
    cases hrest with
    | nil => exact agree_error _ _
    | cons hq hrest =>
      cases hrest with
      | nil =>
        refine hp.1.bind fun column => ?_
        cases column with
        | col c =>
          refine Agree.bind_right _ fun field => ?_
          cases field.ty with
          | vector dim => exact hq.2.bind_left _
          | _ => exact Agree.refl _
        | _ => exact agree_error _ _
      | cons _ _ => exact agree_error _ _

theorem bindScalar_agree {name name' lname : String} {args args' : Arguments}
    (h : args.Alike tx args') : Agree (bindScalar name lname args) (bindScalar name' lname args') := by
  have hbound : Agree (args.plain.mapM Prod.snd) (args'.plain.mapM Prod.snd) :=
    Agree.mapM (h.plain.imp fun _ _ hp => hp.1)
  unfold bindScalar
  cases ScalarFunc.fromName lname with
  | none => exact agree_error _ _
  | some func =>
    refine hbound.bind fun bound => ?_
    by_cases harity : arityOk func bound.length = true
    · rw [if_pos harity, if_pos harity]
      exact Agree.refl _
    · rw [if_neg harity, if_neg harity]
      exact agree_error _ _

theorem bindCall_agree {name name' lname : String} {args args' : Arguments}
    (h : args.Alike tx args') :
    Agree (bindCall tx schema name lname args) (bindCall tx schema name' lname args') := by
  unfold bindCall
  cases AggFunc.fromName lname with
  | some func => exact bindAggregate_agree h
  | none =>
    cases Metric.fromName lname with
    | some metric => exact bindDistance_agree h
    | none => exact bindScalar_agree h

/-- Two lists of arguments that are both refused or alike. -/
def ArgumentsAgree (tx : Texts) (args args' : Exec Arguments) : Prop :=
  (∃ e e', args = .error e ∧ args' = .error e') ∨
    ∃ a a', args = .ok a ∧ args' = .ok a' ∧ a.Alike tx a'

/-- Two calls of one function, whose name may be written in other letters. -/
theorem bindFunction_agree {name name' : Sa.ObjectName} {hasOver : Bool} {args args' : Exec Arguments}
    (hname : Agree (toAsciiLowercase <$> identOf tx name) (toAsciiLowercase <$> identOf tx name'))
    (h : ArgumentsAgree tx args args') :
    Agree (bindFunction tx schema name hasOver args) (bindFunction tx schema name' hasOver args') := by
  unfold bindFunction
  cases hn : identOf tx name with
  | error e =>
    cases hn' : identOf tx name' with
    | error e' => exact agree_error _ _
    | ok n' =>
      rw [hn, hn'] at hname
      cases (hname _).mpr rfl
  | ok n =>
    rw [hn] at hname
    obtain ⟨n', hn', hlower⟩ := map_eq_ok.mp ((hname _).mp rfl)
    rw [hn', ok_bind, ok_bind, hlower]
    cases hasOver with
    | true => exact agree_error _ _
    | false =>
      rcases h with ⟨e, e', rfl, rfl⟩ | ⟨a, a', rfl, rfl, halike⟩
      · exact agree_error _ _
      · simp only [Bool.false_eq_true, if_false, ok_bind]
        exact bindCall_agree halike

theorem bindLike_agree {e e' : Exec Expr} (he : Agree e e') (pattern : Sa.Expr)
    {negated ci : Bool} :
    Agree (bindLike tx e pattern negated ci) (bindLike tx e' (pattern.rewrite r) negated ci) := by
  refine (plainLiteral_rewrite tx r pattern).bind fun v => ?_
  cases v with
  | str pat => exact he.bind_left _
  | _ => exact Agree.refl _

theorem any_isWildcard_rewrite (args : List Sa.FunctionArg) :
    (Sa.rewriteArgs r args).any isWildcard = args.any isWildcard := by
  induction args with
  | nil => rfl
  | cons a args ih => cases a <;> simp [Sa.rewriteArgs, isWildcard, ih]

/-- Binding sees neither how names and types are put nor what becomes of the arguments. -/
structure Sa.Rewrite.Unseen (tx : Texts) (schema : Schema) (r : Sa.Rewrite) : Prop where
  ident : ∀ id, Agree (bindColumn schema id.value) (bindColumn schema (r.ident id).value)
  type : ∀ ty, Agree (mapType tx ty) (mapType tx (r.type ty))
  name : ∀ name, Agree (toAsciiLowercase <$> identOf tx name)
    (toAsciiLowercase <$> identOf tx (r.name name))
  args : ∀ name hasOver args, Agree (bindFunction tx schema name hasOver (bindArguments tx schema args))
    (bindFunction tx schema name hasOver (bindArguments tx schema (r.args name args)))

variable {r}

mutual

theorem bind_rewrite (hr : r.Unseen tx schema) (e : Sa.Expr) :
    Agree (bindExpr tx schema e) (bindExpr tx schema (e.rewrite r)) := by
  match e with
  | .identifier id => exact hr.ident id
  | .compoundIdentifier parts =>
    simp only [bindExpr, Sa.Expr.rewrite, List.getLast?_map]
    cases parts.getLast? with
    | none => exact agree_error _ _
    | some last => exact hr.ident last
  | .value _ | .other _ => exact Agree.refl _
  | .isNull _ | .isNotNull _ | .array _ _ => exact agree_error _ _
  | .nested e => exact bind_rewrite hr e
  | .unaryOp op e =>
    have ih := bind_rewrite hr e
    cases op with
    | not => exact ih.bind_left _
    | minus => exact ih.bind_left _
    | plus => exact ih
    | other text => exact Agree.refl _
  | .binaryOp left op right =>
    exact Agree.bind_right _ fun _ =>
      (bind_rewrite hr left).bind fun _ => (bind_rewrite hr right).bind_left _
  | .like negated e pattern _ => exact bindLike_agree r (bind_rewrite hr e) pattern
  | .iLike negated e pattern _ => exact bindLike_agree r (bind_rewrite hr e) pattern
  | .inList e list negated =>
    exact (bind_rewrite hr e).bind fun _ => (Agree.mapM (rewriteList_forall₂ tx r list)).bind_left _
  | .between e negated low high =>
    exact (bind_rewrite hr e).bind fun _ =>
      (bind_rewrite hr low).bind fun _ => (bind_rewrite hr high).bind_left _
  | .cast e ty _ => exact (bind_rewrite hr e).bind fun _ => (hr.type ty).bind_left _
  | .extract field e _ => exact Agree.bind_right _ fun _ => (bind_rewrite hr e).bind_left _
  | .substring e start count _ _ =>
    refine (bind_rewrite hr e).bind fun e' => ?_
    cases start with
    | none =>
      cases count with
      | none => exact Agree.refl _
      | some count => exact Agree.bind_right _ fun _ => (bind_rewrite hr count).bind_left _
    | some start =>
      cases count with
      | none => exact (bind_rewrite hr start).bind_left _
      | some count =>
        exact (bind_rewrite hr start).bind fun _ => (bind_rewrite hr count).bind_left _
  | .case operand conditions elseResult =>
    have hwhens : ∀ out, Agree
        (bindWhens tx schema (bindOption tx schema operand) conditions out)
        (bindWhens tx schema (bindOption tx schema (Sa.rewriteOption r operand))
          (Sa.rewriteWhens r conditions) out) := by
      cases operand with
      | none => exact bindWhens_rewrite hr Option.Rel.none conditions
      | some op => exact bindWhens_rewrite hr (Option.Rel.some (bind_rewrite hr op)) conditions
    cases elseResult with
    | none => exact Agree.bind_right _ hwhens
    | some e => exact (bind_rewrite hr e).bind hwhens
  | .function name args filter window _ =>
    have hargs := bindArguments_rewrite hr args
    refine ((bindFunction_agree (Agree.refl _) hargs).trans (hr.args name window.isSome _)).trans ?_
    refine bindFunction_agree (hr.name name) ?_
    cases bindArguments tx schema (r.args name (Sa.rewriteArguments r args)) with
    | error e => exact Or.inl ⟨e, e, rfl, rfl⟩
    | ok a => exact Or.inr ⟨a, a, rfl, rfl, Arguments.Alike.refl a⟩

theorem bindWhens_rewrite (hr : r.Unseen tx schema) {operand operand' : Option (Exec Expr)}
    (hop : Option.Rel Agree operand operand') (conditions : List Sa.CaseWhen) (out : Expr) :
    Agree (bindWhens tx schema operand conditions out)
      (bindWhens tx schema operand' (Sa.rewriteWhens r conditions) out) := by
  match conditions with
  | [] => exact Agree.refl _
  | .mk condition result :: rest =>
    refine (bindWhens_rewrite hr hop rest out).bind fun out' => ?_
    cases hop with
    | none => exact (bind_rewrite hr condition).bind fun _ => (bind_rewrite hr result).bind_left _
    | some h =>
      exact (h.bind fun _ => (bind_rewrite hr condition).bind_left _).bind fun _ =>
        (bind_rewrite hr result).bind_left _

theorem bindArguments_rewrite (hr : r.Unseen tx schema) (args : Sa.FunctionArguments) :
    ArgumentsAgree tx (bindArguments tx schema args)
      (bindArguments tx schema (Sa.rewriteArguments r args)) := by
  match args with
  | .none => exact Or.inr ⟨_, _, rfl, rfl, Arguments.Alike.refl _⟩
  | .subquery _ => exact Or.inl ⟨_, _, rfl, rfl⟩
  | .list treatment args _ =>
    exact Or.inr ⟨_, _, rfl, rfl, bindArgs_rewrite hr args, rfl, (any_isWildcard_rewrite r args).symm⟩

theorem bindArgs_rewrite (hr : r.Unseen tx schema) (args : List Sa.FunctionArg) :
    List.Forall₂ (fun p q => Agree p.2 q.2 ∧
      Agree (vectorLiteral tx p.1) (vectorLiteral tx q.1))
      (bindArgs tx schema args) (bindArgs tx schema (Sa.rewriteArgs r args)) := by
  match args with
  | [] => exact List.Forall₂.nil
  | .unnamed e :: rest =>
    exact List.Forall₂.cons ⟨bind_rewrite hr e, vectorLiteral_rewrite tx r e⟩
      (bindArgs_rewrite hr rest)
  | .named _ e _ :: rest =>
    exact List.Forall₂.cons ⟨bind_rewrite hr e, vectorLiteral_rewrite tx r e⟩
      (bindArgs_rewrite hr rest)
  | .wildcard :: rest => exact bindArgs_rewrite hr rest
  | .other _ :: rest => exact bindArgs_rewrite hr rest

end

end

end Veldb
