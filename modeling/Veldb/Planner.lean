import Veldb.Ast
import Veldb.Plan

/-! Binding of a parsed statement to the schema of its table, as `plan` does after parsing. -/

namespace Veldb

/-- What planning takes from the parser's printer and from the number parsers. -/
structure Texts where
  display : Sa.Expr → String
  displayName : Sa.ObjectName → String
  /-- `{:?}` of a value. -/
  debug : Value → String
  trim : String → String
  parseF64 : String → Option F64
  parseF32 : String → Option F32
  /-- `as f32` -/
  toF32 : F64 → F32

inductive Statement where
  | createTable (name : String) (schema : Schema) (ifNotExists : Bool)
  | dropTable (name : String) (ifExists : Bool)
  | insert (table : String) (columns : Option (List String)) (rows : List (List Value))
  | select (s : Select)
  | showTables
  | describe (name : String)

def Schema.field (s : Schema) (name : String) : Option Field :=
  (s.indexOf name).bind (fun i => s.fields[i]?)

/-- `as_f64` -/
def valueAsF64 : Value → Option F64
  | .i64 v => some (F64.ofI64 v)
  | .f64 v => some v
  | .bool v => some (F64.ofI64 (if v then 1 else 0))
  | _ => none

def toAsciiLowercase (s : String) : String :=
  String.ofList (s.toList.map Char.toLower)

/-- The digits of an integer with at most `bound` as its value. -/
def parseDigits (bound : Nat) (ds : List Char) : Exec Nat :=
  if ds = [] then bail "cannot parse integer from empty string"
  else if ds.all Char.isDigit then
    let n := ds.foldl (fun n c => n * 10 + (c.toNat - '0'.toNat)) 0
    if n ≤ bound then .ok n else bail "number too large to fit in target type"
  else bail "invalid digit found in string"

/-- A sign alone is not a number. -/
def parseSigned (bound : Nat) (ds : List Char) : Exec Nat :=
  if ds = [] then bail "invalid digit found in string" else parseDigits bound ds

/-- `s.parse::<i64>()`. -/
def parseI64 (s : String) : Exec Int64 :=
  match s.toList with
  | '-' :: ds => (fun n => Int64.ofInt (-(n : Int))) <$> parseSigned (2 ^ 63) ds
  | '+' :: ds => Int64.ofNat <$> parseSigned (2 ^ 63 - 1) ds
  | ds => Int64.ofNat <$> parseDigits (2 ^ 63 - 1) ds

/-- `s.parse::<usize>()`. -/
def parseUsize (s : String) : Exec Nat :=
  match s.toList with
  | '+' :: ds => parseSigned (2 ^ 64 - 1) ds
  | ds => parseDigits (2 ^ 64 - 1) ds

/-- Negation is checked, as in a build with overflow checks. -/
def negI64 (x : Int64) : Exec Int64 :=
  if x = Int64.minValue then crash "attempt to negate with overflow" else .ok (-x)

def orBail {α : Type} (msg : String) : Option α → Exec α
  | some a => .ok a
  | none => bail msg

def Metric.fromName (s : String) : Option Metric :=
  let s := toAsciiLowercase s
  if s ∈ ["l2_distance", "l2", "euclidean_distance"] then some .l2
  else if s ∈ ["cosine_distance", "cosine"] then some .cosine
  else if s ∈ ["inner_product", "dot_product"] then some .negInnerProduct
  else none

def ScalarFunc.fromName (s : String) : Option ScalarFunc :=
  let s := toAsciiLowercase s
  if s ∈ ["length", "char_length", "octet_length"] then some .length
  else if s ∈ ["lower", "lcase"] then some .lower
  else if s ∈ ["upper", "ucase"] then some .upper
  else if s = "abs" then some .abs
  else if s = "floor" then some .floor
  else if s ∈ ["ceil", "ceiling"] then some .ceil
  else if s = "round" then some .round
  else if s = "sqrt" then some .sqrt
  else if s ∈ ["substring", "substr"] then some .substring
  else if s = "to_hour" then some .extractHour
  else if s = "to_minute" then some .extractMinute
  else if s ∈ ["to_day", "to_dayofmonth"] then some .extractDay
  else if s = "to_month" then some .extractMonth
  else if s = "to_year" then some .extractYear
  else if s = "coalesce" then some .coalesce
  else if s = "if" then some .ifThen
  else if s ∈ ["date_trunc", "to_start_of"] then some .dateTrunc
  else none

def AggFunc.fromName (lname : String) : Option AggFunc :=
  if lname = "count" then some .count
  else if lname = "sum" then some .sum
  else if lname ∈ ["avg", "mean"] then some .avg
  else if lname = "min" then some .min
  else if lname = "max" then some .max
  else if lname ∈ ["uniq", "count_distinct"] then some .count
  else none

section

variable (tx : Texts)

def identOf (name : Sa.ObjectName) : Exec String :=
  match name.getLast? with
  | some (.identifier id) => .ok id.value
  | _ => bail s!"не удалось прочитать имя '{tx.displayName name}'"

def mapType (ty : Sa.DataType) : Exec DataType :=
  match ty with
  | .tinyInt _ | .smallInt _ | .int _ | .integer _ | .bigInt _ => .ok .i64
  | .float _ | .real | .double _ | .doublePrecision | .decimal _ => .ok .f64
  | .boolean | .bool => .ok .bool
  | .char _ | .varchar _ | .text | .string _ | .nvarchar _ => .ok .str
  | .custom name args => do
    let n ← identOf tx name
    if !eqIgnoreAsciiCase n "vector" then bail s!"неизвестный тип '{n}'"
    else
      let dim ← orBail "VECTOR требует размерность: VECTOR(768)" args.head?
      let dim ← withContext "размерность VECTOR" (parseUsize (tx.trim dim))
      return .vector (UInt64.ofNat dim)
  | .other text => bail s!"тип не поддерживается: {text}"

def numberLiteral (n : String) : Exec Value :=
  match parseI64 n with
  | .ok i => .ok (.i64 i)
  | .error _ => do
    let f ← withContext s!"число '{n}'" (orBail "invalid float literal" (tx.parseF64 n))
    return .f64 f

def negLiteral : Value → Exec Value
  | .i64 i => return .i64 (← negI64 i)
  | .f64 f => .ok (.f64 f.neg)
  | other => bail s!"унарный минус к {other.typeOf.name}"

/-- `literal` without a target type. -/
def plainLiteral (e : Sa.Expr) : Exec Value :=
  match e with
  | .value (.number n _) => numberLiteral tx n
  | .value (.singleQuotedString s) => .ok (.str s)
  | .value (.doubleQuotedString s) => .ok (.str s)
  | .value (.boolean b) => .ok (.bool b)
  | .value (.other text) => bail s!"литерал не поддерживается: {text}"
  | .unaryOp .minus e => do negLiteral (← plainLiteral e)
  | e => bail s!"здесь ожидался литерал, а не '{tx.display e}'"

def parseVecStr (s : String) : Exec (List F32) :=
  let body := ((tx.trim s).toList.dropWhile (· == '[')).reverse.dropWhile (· == ']') |>.reverse
  if tx.trim (String.ofList body) = "" then bail "пустой вектор"
  else (body.splitOn ',').mapM (fun p =>
    withContext s!"элемент вектора '{String.ofList p}'"
      (orBail "invalid float literal" (tx.parseF32 (tx.trim (String.ofList p)))))

def displayNumber (n : String) (long : Bool) : String := if long then n ++ "L" else n

def vectorLiteral (e : Sa.Expr) : Exec (List F32) :=
  match e with
  | .array elem _ => elem.mapM (fun x => do
    let v ← plainLiteral tx x
    let f ← orBail "элемент вектора должен быть числом" (valueAsF64 v)
    return tx.toF32 f)
  | .value (.singleQuotedString s) => parseVecStr tx s
  | .value (.doubleQuotedString s) => parseVecStr tx s
  | .value (.number n long) => bail s!"вектор задаётся как '[1,2,3]', получено {displayNumber n long}"
  | .value (.boolean b) => bail s!"вектор задаётся как '[1,2,3]', получено {b}"
  | .value (.other text) => bail s!"вектор задаётся как '[1,2,3]', получено {text}"
  | e => bail s!"вектор задаётся как '[1,2,3]' или ARRAY[1,2,3], получено '{tx.display e}'"

def literal (e : Sa.Expr) (want : Option DataType) : Exec Value :=
  match want with
  | some (.vector dim) => do
    let v ← vectorLiteral tx e
    if v.length ≠ dim.toNat then
      bail s!"вектор длины {v.length} в колонку VECTOR({dim.toNat})"
    else return .vector v
  | some .f64 => do
    match ← plainLiteral tx e with
    | .i64 i => return .f64 (F64.ofI64 i)
    | v => return v
  | _ => plainLiteral tx e

def mapBinop : Sa.BinaryOperator → Exec BinOp
  | .plus => .ok .add
  | .minus => .ok .sub
  | .multiply => .ok .mul
  | .divide => .ok .div
  | .modulo => .ok .mod
  | .eq => .ok .eq
  | .notEq => .ok .notEq
  | .lt => .ok .lt
  | .ltEq => .ok .ltEq
  | .gt => .ok .gt
  | .gtEq => .ok .gtEq
  | .and => .ok .and
  | .or => .ok .or
  | .other text => bail s!"оператор не поддерживается: {text}"

def bindColumn (schema : Schema) (name : String) : Exec Expr :=
  match schema.indexOf name with
  | some i => .ok (.col i)
  | none => bail s!"нет колонки '{name}'"

/-- A minus sign before a number is part of the literal. -/
def bindMinus : Expr → Exec Expr
  | .lit (.i64 i) => return .lit (.i64 (← negI64 i))
  | .lit (.f64 f) => .ok (.lit (.f64 f.neg))
  | other => .ok (.unary .neg other)

def bindUnary (op : Sa.UnaryOperator) (e : Exec Expr) : Exec Expr :=
  match op with
  | .not => return .unary .not (← e)
  | .minus => do bindMinus (← e)
  | .plus => e
  | .other text => bail s!"унарный оператор не поддерживается: {text}"

def bindLike (e : Exec Expr) (pattern : Sa.Expr) (negated caseInsensitive : Bool) : Exec Expr := do
  match ← plainLiteral tx pattern with
  | .str pat => return .like (← e) pat negated caseInsensitive
  | other => bail s!"шаблон LIKE должен быть строкой, получено {tx.debug other}"

def extractFunc : Sa.DateTimeField → Exec ScalarFunc
  | .hour => .ok .extractHour
  | .minute => .ok .extractMinute
  | .day => .ok .extractDay
  | .month => .ok .extractMonth
  | .year => .ok .extractYear
  | .other text => bail s!"EXTRACT({text}) не поддерживается"

/-- A call's arguments: the expressions among them, each with what it is bound to. -/
structure Arguments where
  plain : List (Sa.Expr × Exec Expr)
  distinct : Bool
  wildcard : Bool

def arityOk (func : ScalarFunc) (n : Nat) : Bool :=
  match func with
  | .substring => 2 ≤ n && n ≤ 3
  | .ifThen => n == 3
  | .coalesce => n != 0
  | .round => 1 ≤ n && n ≤ 2
  | .dateTrunc => n == 2
  | _ => n == 1

def bindAggregate (func : AggFunc) (name lname : String) (args : Arguments) : Exec Expr :=
  if args.wildcard || args.plain.isEmpty then
    if func ≠ .count then bail s!"{name}(*) не имеет смысла" else .ok (.agg .count none false)
  else
    match args.plain with
    | [(_, arg)] => do
      return .agg func (some (← arg)) (args.distinct || lname == "uniq" || lname == "count_distinct")
    | _ => bail s!"{name} принимает один аргумент"

def bindDistance (schema : Schema) (metric : Metric) (name : String) (args : Arguments) :
    Exec Expr :=
  match args.plain with
  | [(_, column), (query, _)] => do
    match ← column with
    | .col col =>
      let field ← index schema.fields col
      match field.ty with
      | .vector dim =>
        let query ← vectorLiteral tx query
        if query.length ≠ dim.toNat then
          bail s!"вектор запроса длины {query.length}, колонка VECTOR({dim.toNat})"
        else return .distance metric col query
      | other => bail s!"колонка '{field.name}' имеет тип {other.name}, а не VECTOR"
    | _ => bail s!"первый аргумент {name} должен быть векторной колонкой"
  | _ => bail s!"{name} принимает (векторная_колонка, вектор_запроса)"

def bindScalar (name lname : String) (args : Arguments) : Exec Expr := do
  let func ← orBail s!"функция '{name}' не поддерживается" (ScalarFunc.fromName lname)
  let bound ← args.plain.mapM Prod.snd
  if arityOk func bound.length then return .func func bound
  else bail s!"{name}: неверное число аргументов ({bound.length})"

/-- The function is looked up by its name in lower letters. -/
def bindCall (schema : Schema) (name lname : String) (args : Arguments) : Exec Expr :=
  match AggFunc.fromName lname with
  | some func => bindAggregate func name lname args
  | none =>
    match Metric.fromName lname with
    | some metric => bindDistance tx schema metric name args
    | none => bindScalar name lname args

def bindFunction (schema : Schema) (name : Sa.ObjectName) (hasOver : Bool) (args : Exec Arguments) :
    Exec Expr := do
  let name ← identOf tx name
  if hasOver then bail "оконные функции не поддерживаются"
  else bindCall tx schema name (toAsciiLowercase name) (← args)

/-- `CASE x WHEN v` compares `v` with `x`, which is bound anew in every branch. -/
def whenCondition (operand : Option (Exec Expr)) (condition : Exec Expr) : Exec Expr :=
  match operand with
  | some op => do
    let op ← op
    return .binary .eq op (← condition)
  | none => condition

def isWildcard : Sa.FunctionArg → Bool
  | .wildcard => true
  | _ => false

mutual

/-- `bind` -/
def bindExpr (schema : Schema) (e : Sa.Expr) : Exec Expr :=
  match e with
  | .identifier id => bindColumn schema id.value
  | .compoundIdentifier parts => do
    let last ← orBail "пустое имя" parts.getLast?
    bindColumn schema last.value
  | .value v => do return .lit (← plainLiteral tx (.value v))
  | .nested inner => bindExpr schema inner
  | .unaryOp op e => bindUnary op (bindExpr schema e)
  | .binaryOp left op right => do
    let op ← mapBinop op
    return .binary op (← bindExpr schema left) (← bindExpr schema right)
  | .isNull _ => bail "IS [NOT] NULL не поддерживается: NULL-значений в veldb нет"
  | .isNotNull _ => bail "IS [NOT] NULL не поддерживается: NULL-значений в veldb нет"
  | .like negated e pattern _ => bindLike tx (bindExpr schema e) pattern negated false
  | .iLike negated e pattern _ => bindLike tx (bindExpr schema e) pattern negated true
  | .inList e list negated => do
    return .inList (← bindExpr schema e) (← list.mapM (plainLiteral tx)) negated
  | .between e negated low high => do
    return .between (← bindExpr schema e) (← bindExpr schema low) (← bindExpr schema high) negated
  | .cast e ty _ => do return .cast (← bindExpr schema e) (← mapType tx ty)
  | .extract field e _ => do
    let func ← extractFunc field
    return .func func [← bindExpr schema e]
  | .substring e substringFrom substringFor _ _ => do
    let e ← bindExpr schema e
    let start ← (bindOption schema substringFrom).getD (.ok (.lit (.i64 1)))
    match bindOption schema substringFor with
    | some count => return .func .substring [e, start, ← count]
    | none => return .func .substring [e, start]
  | .case operand conditions elseResult => do
    -- without ELSE the empty string stands for NULL
    let out ← (bindOption schema elseResult).getD (.ok (.lit (.str "")))
    bindWhens schema (bindOption schema operand) conditions out
  | .function name args _ window _ =>
    bindFunction tx schema name window.isSome (bindArguments schema args)
  | .array elem named => bail s!"выражение не поддерживается: {tx.display (.array elem named)}"
  | .other text => bail s!"выражение не поддерживается: {text}"

def bindOption (schema : Schema) (e : Option Sa.Expr) : Option (Exec Expr) :=
  match e with
  | none => none
  | some e => some (bindExpr schema e)

/-- The branches are nested from the last one inwards out. -/
def bindWhens (schema : Schema) (operand : Option (Exec Expr)) (conditions : List Sa.CaseWhen)
    (out : Expr) : Exec Expr :=
  match conditions with
  | [] => .ok out
  | .mk condition result :: rest => do
    let out ← bindWhens schema operand rest out
    let cond ← whenCondition operand (bindExpr schema condition)
    return .func .ifThen [cond, ← bindExpr schema result, out]

def bindArguments (schema : Schema) (args : Sa.FunctionArguments) : Exec Arguments :=
  match args with
  | .none => .ok ⟨[], false, false⟩
  | .subquery _ => bail "подзапрос в аргументах функции"
  | .list treatment args _ =>
    .ok ⟨bindArgs schema args, treatment == some .distinct, args.any isWildcard⟩

def bindArgs (schema : Schema) (args : List Sa.FunctionArg) : List (Sa.Expr × Exec Expr) :=
  match args with
  | [] => []
  | .unnamed e :: rest => (e, bindExpr schema e) :: bindArgs schema rest
  | .named _ e _ :: rest => (e, bindExpr schema e) :: bindArgs schema rest
  | .wildcard :: rest => bindArgs schema rest
  | .other _ :: rest => bindArgs schema rest

end

/-- Tables by name, as the planner sees them. -/
abbrev Schemas := String → Option Schema

def tableSchema (catalog : Schemas) (table : String) : Exec Schema :=
  orBail s!"таблица '{table}' не найдена" (catalog table)

def targetTypes (schema : Schema) (table : String) : Option (List String) → Exec (List DataType)
  | none => .ok (schema.fields.map Field.ty)
  | some names => names.mapM (fun n =>
    orBail s!"в таблице '{table}' нет колонки '{n}'" ((schema.field n).map Field.ty))

def planRow (types : List DataType) (row : List Sa.Expr) : Exec (List Value) :=
  if row.length ≠ types.length then
    bail s!"в строке {row.length} значений, ожидалось {types.length}"
  else (row.zip types).mapM (fun p => literal tx p.1 (some p.2))

def insertRows : Option Sa.Query → Exec (List (List Sa.Expr))
  | none => bail "INSERT без VALUES не поддерживается"
  | some q =>
    match q.body with
    | .values rows => .ok rows
    | _ => bail "INSERT ... SELECT не поддерживается"

def planInsert (catalog : Schemas) (table : Sa.TableObject) (columns : List Sa.ObjectName)
    (source : Option Sa.Query) : Exec Statement := do
  let table ← match table with
    | .tableName n => identOf tx n
    | .other text => bail s!"INSERT в {text} не поддерживается"
  let schema ← tableSchema catalog table
  let columns ← if columns = [] then .ok none else some <$> columns.mapM (identOf tx)
  let types ← targetTypes schema table columns
  let rows ← (← insertRows source).mapM (planRow tx types)
  return .insert table columns rows

/-- What a query without FROM has for a schema: no columns. -/
def planFrom (catalog : Schemas) : List Sa.TableWithJoins → Exec (Option String × Schema)
  | [] => .ok (none, ⟨[]⟩)
  | from1 :: _ => do
    let name ← match from1.relation with
      | .table name _ _ => identOf tx name
      | .other text => bail s!"источник '{text}' не поддерживается"
    return (some name, ← tableSchema catalog name)

def planItem (schema : Schema) : Sa.SelectItem → Exec (List Projection)
  | .wildcard _ => .ok (schema.fields.zipIdx.map (fun f => ⟨.col f.2, f.1.name⟩))
  | .unnamedExpr e => return [⟨← bindExpr tx schema e, tx.display e⟩]
  | .exprWithAlias e aliasName => return [⟨← bindExpr tx schema e, aliasName.value⟩]
  | .other text => bail s!"элемент SELECT не поддерживается: {text}"

def itemText : Sa.SelectItem → Option String
  | .unnamedExpr e => some (tx.display e)
  | .exprWithAlias e _ => some (tx.display e)
  | _ => none

def refOrdinal (bound : List Projection) (n : String) : Exec Expr := do
  let idx ← withContext "порядковый номер колонки" (parseUsize n)
  if idx = 0 ∨ bound.length < idx then
    bail s!"ссылка на колонку {idx}: в SELECT их {bound.length}"
  else return (← index bound (idx - 1)).expr

/-- An alias counts only where no column of the table has its name. -/
def refAlias (schema : Schema) (bound : List Projection) (id : String) : Option Expr :=
  match bound.find? (fun p => eqIgnoreAsciiCase p.aliasName id) with
  | some p => if schema.indexOf id = none then some p.expr else none
  | none => none

/-- The texts are compared item by item with the columns that `*` has not widened. -/
def refText (raw : List Sa.SelectItem) (bound : List Projection) (text : String) : Option Expr :=
  ((raw.zip bound).find? (fun p =>
    (itemText tx p.1).any (fun t => eqIgnoreAsciiCase t text))).map (fun p => p.2.expr)

def refIdentifier (schema : Schema) (bound : List Projection) : Sa.Expr → Option Expr
  | .identifier id => refAlias schema bound id.value
  | _ => none

/-- What an ordinal, an alias or the text of an item refers to. -/
def outputRef (schema : Schema) (raw : List Sa.SelectItem) (bound : List Projection)
    (e : Sa.Expr) : Exec (Option Expr) :=
  match e with
  | .value (.number n _) => some <$> refOrdinal bound n
  | e => .ok ((refIdentifier schema bound e).or (refText tx raw bound (tx.display e)))

def bindOutputRef (schema : Schema) (raw : List Sa.SelectItem) (bound : List Projection)
    (e : Sa.Expr) : Exec Expr := do
  match ← outputRef tx schema raw bound e with
  | some x => return x
  | none => bindExpr tx schema e

def asUsize (e : Sa.Expr) : Exec Nat := do
  match ← literal tx e none with
  | .i64 i =>
    if 0 ≤ i.toInt then return i.toInt.toNat
    else bail s!"LIMIT/OFFSET должен быть неотрицательным целым, получено {tx.debug (.i64 i)}"
  | other => bail s!"LIMIT/OFFSET должен быть неотрицательным целым, получено {tx.debug other}"

def limitOffset : Option Sa.LimitClause → Exec (Option Nat × Nat)
  | none => .ok (none, 0)
  | some (.limitOffset limit offset limitBy) => do
    if limitBy.length ≠ 0 then bail "LIMIT BY не поддерживается"
    else
      let limit ← limit.mapM (asUsize tx)
      let offset ← offset.mapM (asUsize tx)
      return (limit, offset.getD 0)
  | some (.offsetCommaLimit offset limit) => do
    let limit ← asUsize tx limit
    return (some limit, ← asUsize tx offset)

def planGroupBy (schema : Schema) (raw : List Sa.SelectItem) (bound : List Projection) :
    Sa.GroupByExpr → Exec (List Expr)
  | .expressions es _ => withContext "GROUP BY" (es.mapM (bindOutputRef tx schema raw bound))
  | .all => bail "GROUP BY ALL не поддерживается"

def planOrderBy (schema : Schema) (raw : List Sa.SelectItem) (bound : List Projection) :
    Option Sa.OrderByKind → Exec (List OrderKey)
  | none => .ok []
  | some .all => bail "ORDER BY ALL не поддерживается"
  | some (.expressions items) => withContext "ORDER BY" (items.mapM (fun it => do
      return ⟨← bindOutputRef tx schema raw bound it.expr, it.asc.getD true⟩))

def planBody (catalog : Schemas) (q : Sa.Query) (select : Sa.Select) : Exec Select := do
  let (table, schema) ← planFrom tx catalog select.from_
  let filter ← withContext "WHERE" (select.selection.mapM (bindExpr tx schema))
  let projection := (← select.projection.mapM (planItem tx schema)).flatten
  if projection.isEmpty then bail "пустой список SELECT"
  else
    let groupBy ← planGroupBy tx schema select.projection projection select.groupBy
    if groupBy.any Expr.containsAgg then bail "агрегат в GROUP BY"
    else
      let having ← withContext "HAVING" (select.having.mapM (bindExpr tx schema))
      if having.isSome && groupBy.isEmpty && !projection.any (·.expr.containsAgg) then
        bail "HAVING без агрегатов и GROUP BY: используйте WHERE"
      else
        let orderBy ← planOrderBy tx schema select.projection projection q.orderBy
        let (limit, offset) ← limitOffset tx q.limitClause
        return { table, filter, groupBy, having, projection, orderBy, limit, offset }

def planQuery (catalog : Schemas) (q : Sa.Query) : Exec Select :=
  if q.with_ then bail "CTE (WITH) не поддерживаются"
  else
    match q.body with
    | .select select =>
      if select.distinct then bail "SELECT DISTINCT не поддерживается; используйте GROUP BY"
      else if 1 < select.from_.length ∨ (select.from_.head?).any (fun f => !f.joins.isEmpty) then
        bail "поддерживается не больше одной таблицы в FROM, без JOIN"
      else planBody tx catalog q select
    | _ => bail "поддерживается только простой SELECT (без UNION и подзапросов)"

def planColumn (c : Sa.ColumnDef) : Exec Field := do
  return ⟨c.name.value, ← mapType tx c.dataType⟩

def planStatement (catalog : Schemas) (stmt : Sa.Statement) : Exec Statement :=
  match stmt with
  | .createTable name columns query ifNotExists _ => do
    if query then bail "CREATE TABLE AS SELECT не поддерживается"
    else
      let fields ← columns.mapM (planColumn tx)
      return .createTable (← identOf tx name) ⟨fields⟩ ifNotExists
  | .drop table ifExists names _ => do
    if !table then bail "DROP поддерживается только для TABLE"
    else
      let name ← orBail "DROP без имени" names.head?
      return .dropTable (← identOf tx name) ifExists
  | .insert table columns source _ => planInsert tx catalog table columns source
  | .query q => return .select (← planQuery tx catalog q)
  | .showTables _ => .ok .showTables
  | .explainTable tableName _ => return .describe (← identOf tx tableName)
  | .other text => bail s!"оператор не поддерживается: {text}"

end

end Veldb
