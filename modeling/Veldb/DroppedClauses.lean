import Veldb.Rewrites

/-! What planning passes over: the parts of an expression and the clauses of a statement
that leave no trace in the plan. -/

namespace Veldb

open Attempts

namespace Sa

/-- The name without what qualifies it. -/
def ObjectName.last (name : ObjectName) : ObjectName :=
  name.getLast?.toList

/-- The type without its precision or length and without more than one argument. -/
def DataType.bare : DataType → DataType
  | .float _ => .float
  | .double _ => .double
  | .decimal _ => .decimal
  | .char _ => .char
  | .varchar _ => .varchar
  | .string _ => .string
  | .nvarchar _ => .nvarchar
  | .custom name args => .custom name.last (args.take 1)
  | ty => ty

/-- A cast that fails where others would give NULL. -/
def CastOptions.bare (options : CastOptions) : CastOptions where
  kind := if options.kind = .doubleColon then .doubleColon else .cast

def ObjectName.isAggregate (name : ObjectName) : Bool :=
  match name.getLast? with
  | some (.identifier id) => (AggFunc.fromName (toAsciiLowercase id.value)).isSome
  | _ => false

def FunctionArg.isPlain : FunctionArg → Bool
  | .unnamed _ => true
  | .named _ _ _ => true
  | _ => false

def FunctionArg.byPlace : FunctionArg → FunctionArg
  | .named _ e _ => .unnamed e
  | a => a

/-- An aggregate counts rows when it is given a star or nothing to count. -/
def countsRows (name : ObjectName) (args : List FunctionArg) : Bool :=
  name.isAggregate && (args.any isWildcard || !args.any FunctionArg.isPlain)

/-- What binding uses of the arguments: of a count of rows all but the expressions, of any other
call the expressions by their places, and DISTINCT of an aggregate of values. -/
def FunctionArguments.used (name : ObjectName) : FunctionArguments → FunctionArguments
  | .list treatment args _ =>
    .list (if name.isAggregate && !countsRows name args then treatment
        else treatment.filter (· ≠ .distinct))
      ((args.filter (fun a => a.isPlain != countsRows name args)).map FunctionArg.byPlace)
  | args => args

def barely : Rewrite where
  ident := id
  name := ObjectName.last
  type := DataType.bare
  like _ := {}
  cast := CastOptions.bare
  options o := { usesOdbcSyntax := o.usesOdbcSyntax }
  args := FunctionArguments.used

/-- The expression without the FILTER and the other clauses of its calls, the arguments they do not
use, the ESCAPE and ANY of its patterns, and what its casts say beyond the type. -/
def Expr.bare (e : Expr) : Expr :=
  e.rewrite barely

end Sa

section

variable (tx : Texts) (schema : Schema)

theorem identOf_last (name : Sa.ObjectName) :
    Agree (identOf tx name) (identOf tx name.last) := by
  unfold identOf Sa.ObjectName.last
  cases name.getLast? with
  | none => exact agree_error _ _
  | some part =>
    cases part with
    | identifier id => exact Agree.refl _
    | function text => exact agree_error _ _

theorem mapType_bare (ty : Sa.DataType) : Agree (mapType tx ty) (mapType tx ty.bare) := by
  cases ty with
  | custom name args =>
    refine (identOf_last tx name).bind fun n => ?_
    cases args <;> exact Agree.refl _
  | _ => exact Agree.refl _

variable {tx schema}

theorem isAggregate_eq {name : Sa.ObjectName} {n : String} (h : identOf tx name = .ok n) :
    name.isAggregate = (AggFunc.fromName (toAsciiLowercase n)).isSome := by
  unfold identOf at h
  unfold Sa.ObjectName.isAggregate
  cases hlast : name.getLast? with
  | none =>
    rw [hlast] at h
    cases h
  | some part =>
    rw [hlast] at h
    cases part with
    | function text => cases h
    | identifier id =>
      obtain rfl := Except.ok.inj h
      rfl

theorem bindArgs_isEmpty (args : List Sa.FunctionArg) :
    (bindArgs tx schema args).isEmpty = !args.any Sa.FunctionArg.isPlain := by
  induction args with
  | nil => rfl
  | cons a args ih => cases a <;> simp [bindArgs, Sa.FunctionArg.isPlain, ih]

theorem bindArgs_used (args : List Sa.FunctionArg) (counts : Bool) :
    bindArgs tx schema ((args.filter (fun a => a.isPlain != counts)).map Sa.FunctionArg.byPlace) =
      if counts then [] else bindArgs tx schema args := by
  induction args with
  | nil => cases counts <;> rfl
  | cons a args ih =>
    cases counts <;> cases a <;>
      simpa [bindArgs, Sa.FunctionArg.isPlain, Sa.FunctionArg.byPlace] using ih

theorem any_isWildcard_used (args : List Sa.FunctionArg) (counts : Bool) :
    ((args.filter (fun a => a.isPlain != counts)).map Sa.FunctionArg.byPlace).any isWildcard =
      (counts && args.any isWildcard) := by
  induction args with
  | nil => cases counts <;> rfl
  | cons a args ih =>
    cases counts <;> cases a <;>
      simp_all [isWildcard, Sa.FunctionArg.isPlain, Sa.FunctionArg.byPlace]

/-- A call reads no more of its arguments than that. -/
theorem bindCall_used {name lname : String} {args : Arguments} {aggregate counts : Bool}
    (hagg : aggregate = (AggFunc.fromName lname).isSome)
    (hcounts : counts = (aggregate && (args.wildcard || args.plain.isEmpty))) :
    bindCall tx schema name lname args =
      bindCall tx schema name lname ⟨if counts then [] else args.plain,
        aggregate && !counts && args.distinct, counts && args.wildcard⟩ := by
  obtain ⟨plain, distinct, wildcard⟩ := args
  subst hcounts
  unfold bindCall
  cases hfunc : AggFunc.fromName lname with
  | none =>
    obtain rfl : aggregate = false := by rw [hagg, hfunc]; rfl
    rfl
  | some func =>
    obtain rfl : aggregate = true := by rw [hagg, hfunc]; rfl
    cases wildcard with
    | true => rfl
    | false => cases plain <;> rfl

theorem bindFunction_used (name : Sa.ObjectName) (hasOver : Bool) (args : Sa.FunctionArguments) :
    Agree (bindFunction tx schema name hasOver (bindArguments tx schema args))
      (bindFunction tx schema name hasOver
        (bindArguments tx schema (Sa.FunctionArguments.used name args))) := by
  cases args with
  | none => exact Agree.refl _
  | subquery text => exact Agree.refl _
  | list treatment args clauses =>
    unfold bindFunction
    cases hn : identOf tx name with
    | error e => exact agree_error _ _
    | ok n =>
      cases hasOver with
      | true => exact agree_error _ _
      | false =>
        have htreatment : ∀ b : Bool, ((if b then treatment else treatment.filter (· ≠ .distinct)) ==
            some .distinct) = (b && treatment == some .distinct) := by
          intro b
          cases b <;> rcases treatment with - | - | - <;> rfl
        simp only [ok_bind, Bool.false_eq_true, if_false, Sa.FunctionArguments.used, bindArguments,
          bindArgs_used, any_isWildcard_used, htreatment]
        refine Agree.of_eq (bindCall_used (isAggregate_eq hn) ?_)
        rw [bindArgs_isEmpty]
        rfl

end

/-- A clause of a statement that planning has no eye for. Those `of` a part are all its clauses that
are not named here. -/
inductive Clause where
  | fetch | top | qualify | groupModifiers | wildcardOptions | moreNames | insertTail
  | into | prewhere | sample | nullsFirst | withFill | interpolate
  | ofSelect | ofQuery | ofTable | ofColumns | ofStatement | typeArguments | qualifiers
  deriving DecidableEq

namespace Sa

def ObjectName.without (k : Clause) (name : ObjectName) : ObjectName :=
  if k = .qualifiers then name.last else name

def SelectItem.without (k : Clause) : SelectItem → SelectItem
  | .wildcard options => .wildcard (if k = .wildcardOptions then [] else options)
  | item => item

def TableFactor.without (k : Clause) : TableFactor → TableFactor
  | .table name sample clauses =>
    .table (name.without k) (if k = .sample then none else sample)
      (if k = .ofTable then [] else clauses)
  | .other text => .other text

def TableWithJoins.without (k : Clause) (t : TableWithJoins) : TableWithJoins :=
  { t with relation := t.relation.without k }

def GroupByExpr.without (k : Clause) : GroupByExpr → GroupByExpr
  | .expressions es modifiers => .expressions es (if k = .groupModifiers then [] else modifiers)
  | .all => .all

def Select.without (k : Clause) (s : Select) : Select :=
  { s with
    top := if k = .top then none else s.top
    projection := s.projection.map (SelectItem.without k)
    into := if k = .into then none else s.into
    from_ := s.from_.map (TableWithJoins.without k)
    prewhere := if k = .prewhere then none else s.prewhere
    groupBy := s.groupBy.without k
    qualify := if k = .qualify then none else s.qualify
    clauses := if k = .ofSelect then [] else s.clauses }

def SetExpr.without (k : Clause) : SetExpr → SetExpr
  | .select s => .select (s.without k)
  | body => body

def OrderByExpr.without (k : Clause) (it : OrderByExpr) : OrderByExpr :=
  { it with
    nullsFirst := if k = .nullsFirst then none else it.nullsFirst
    withFill := if k = .withFill then none else it.withFill }

def OrderByKind.without (k : Clause) : OrderByKind → OrderByKind
  | .all => .all
  | .expressions items => .expressions (items.map (OrderByExpr.without k))

def Query.without (k : Clause) (q : Query) : Query :=
  { q with
    body := q.body.without k
    orderBy := q.orderBy.map (OrderByKind.without k)
    interpolate := if k = .interpolate then none else q.interpolate
    fetch := if k = .fetch then none else q.fetch
    clauses := if k = .ofQuery then [] else q.clauses }

/-- Of the query under an INSERT only the rows are read. -/
def Query.sourceWithout (k : Clause) (q : Query) : Query :=
  if k = .insertTail then { body := q.body } else q

def ColumnDef.without (k : Clause) (c : ColumnDef) : ColumnDef :=
  { c with
    dataType := if k = .typeArguments then c.dataType.bare else c.dataType
    options := if k = .ofColumns then [] else c.options }

def TableObject.without (k : Clause) : TableObject → TableObject
  | .tableName name => .tableName (name.without k)
  | .other text => .other text

def Statement.without (k : Clause) : Statement → Statement
  | .createTable name columns asQuery ifNotExists clauses =>
    .createTable (name.without k) (columns.map (ColumnDef.without k)) asQuery ifNotExists
      (if k = .ofStatement then [] else clauses)
  | .drop table ifExists names clauses =>
    .drop table ifExists ((if k = .moreNames then names.take 1 else names).map (ObjectName.without k))
      (if k = .ofStatement then [] else clauses)
  | .insert table columns source clauses =>
    .insert (table.without k) columns (source.map (Query.sourceWithout k))
      (if k = .ofStatement then [] else clauses)
  | .query q => .query (q.without k)
  | .showTables clauses => .showTables (if k = .ofStatement then [] else clauses)
  | .explainTable tableName clauses =>
    .explainTable (tableName.without k) (if k = .ofStatement then [] else clauses)
  | .other text => .other text

end Sa

section

variable (tx : Texts) (catalog : Schemas) (k : Clause)

/-- An expression of the query that planning binds for itself, which a key of GROUP BY or
ORDER BY is when no ordinal, alias or text of a SELECT item resolves it. -/
inductive Binds (schema : Schema) (bound : List Projection) (q : Sa.Query) (s : Sa.Select) :
    Sa.Expr → Prop where
  | selection {e} : s.selection = some e → Binds schema bound q s e
  | unnamedItem {e} : .unnamedExpr e ∈ s.projection → Binds schema bound q s e
  | aliasedItem {e aliasName} : .exprWithAlias e aliasName ∈ s.projection →
    Binds schema bound q s e
  | groupKey {e es mods} : s.groupBy = .expressions es mods → e ∈ es →
    outputRef tx schema s.projection bound e = .ok none → Binds schema bound q s e
  | having {e} : s.having = some e → Binds schema bound q s e
  | orderKey {it items} : q.orderBy = some (.expressions items) → it ∈ items →
    outputRef tx schema s.projection bound it.expr = .ok none → Binds schema bound q s it.expr

variable {tx catalog}

end

/-- Names and integers print as they are written; nothing else is printed or parsed here. -/
def plainTexts : Texts where
  display
    | .identifier id =>
      let quote := id.quoteStyle.elim "" String.singleton
      quote ++ id.value ++ quote
    | .value (.number n _) => n
    | _ => ""
  displayName _ := ""
  debug _ := ""
  trim s := s
  parseF64 _ := none
  parseF32 _ := none
  toF32 _ := ⟨0⟩

end Veldb
