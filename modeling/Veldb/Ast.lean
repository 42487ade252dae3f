import Veldb.Table

/-! The syntax tree the SQL parser hands to the planner: every field the planner or the parser's
printer of expressions reads, and the clauses that planning passes over, each as its text where
nothing reads more of it. A variant it refuses by its text is `other`. Left out are places in
the text and what is spelling only outside of expressions. -/

namespace Veldb.Sa

structure Ident where
  value : String
  quoteStyle : Option Char := none
  deriving DecidableEq

instance : Coe String Ident := ⟨fun value => { value }⟩

inductive NamePart where
  | identifier (id : Ident)
  | function (text : String)
  deriving DecidableEq

abbrev ObjectName := List NamePart

/-- The arguments of a type are what is printed between its parentheses. -/
inductive DataType where
  | tinyInt (args : Option String := none)
  | smallInt (args : Option String := none)
  | int (args : Option String := none)
  | integer (args : Option String := none)
  | bigInt (args : Option String := none)
  | float (args : Option String := none)
  | real
  | double (args : Option String := none)
  | doublePrecision
  | decimal (args : Option String := none)
  | boolean | bool
  | char (args : Option String := none)
  | varchar (args : Option String := none)
  | text
  | string (args : Option String := none)
  | nvarchar (args : Option String := none)
  | custom (name : ObjectName) (args : List String)
  | other (text : String)
  deriving DecidableEq

inductive Value where
  | number (text : String) (long : Bool := false)
  | singleQuotedString (s : String)
  | doubleQuotedString (s : String)
  | boolean (b : Bool)
  | other (text : String)
  deriving DecidableEq

inductive UnaryOperator where
  | not | minus | plus
  | other (text : String)
  deriving DecidableEq

inductive BinaryOperator where
  | plus | minus | multiply | divide | modulo | eq | notEq | lt | ltEq | gt | gtEq | and | or
  | other (text : String)
  deriving DecidableEq

inductive DateTimeField where
  | hour | minute | day | month | year
  | other (text : String)
  deriving DecidableEq

inductive DuplicateTreatment where
  | distinct | all
  deriving DecidableEq

structure LikeOptions where
  escapeChar : Option String := none
  any : Bool := false
  deriving DecidableEq

/-- `CAST`, `TRY_CAST`, `SAFE_CAST` and `::` -/
inductive CastKind where
  | cast | tryCast | safeCast | doubleColon
  deriving DecidableEq

/-- The options are `ARRAY` and `FORMAT`. -/
structure CastOptions where
  kind : CastKind := .cast
  options : List String := []
  deriving DecidableEq

structure FunctionOptions where
  parameters : Option String := none
  nullTreatment : Option String := none
  withinGroup : List String := []
  usesOdbcSyntax : Bool := false
  deriving DecidableEq

mutual

inductive Expr where
  | identifier (id : Ident)
  | compoundIdentifier (parts : List Ident)
  | value (v : Value)
  | nested (e : Expr)
  | unaryOp (op : UnaryOperator) (e : Expr)
  | binaryOp (left : Expr) (op : BinaryOperator) (right : Expr)
  | isNull (e : Expr)
  | isNotNull (e : Expr)
  | like (negated : Bool) (e pattern : Expr) (options : LikeOptions := {})
  | iLike (negated : Bool) (e pattern : Expr) (options : LikeOptions := {})
  | inList (e : Expr) (list : List Expr) (negated : Bool)
  | between (e : Expr) (negated : Bool) (low high : Expr)
  | cast (e : Expr) (ty : DataType) (options : CastOptions := {})
  | extract (field : DateTimeField) (e : Expr) (comma : Bool := false)
  | substring (e : Expr) (substringFrom substringFor : Option Expr) (special : Bool := false)
      (shorthand : Bool := false)
  | case (operand : Option Expr) (conditions : List CaseWhen) (elseResult : Option Expr)
  | array (elem : List Expr) (named : Bool := false)
  | function (name : ObjectName) (args : FunctionArguments) (filter : Option Expr)
      (window : Option String) (options : FunctionOptions := {})
  | other (text : String)

inductive CaseWhen where
  | mk (condition result : Expr)

/-- `other` is an argument that is neither an expression nor a bare star. -/
inductive FunctionArg where
  | unnamed (e : Expr)
  | wildcard
  | named (name : Ident) (e : Expr) (operator : String)
  | other (text : String)

inductive FunctionArguments where
  | none
  | subquery (text : String)
  | list (duplicateTreatment : Option DuplicateTreatment) (args : List FunctionArg)
      (clauses : List String := [])

end

inductive SelectItem where
  | wildcard (options : List String)
  | unnamedExpr (e : Expr)
  | exprWithAlias (e : Expr) (aliasName : Ident)
  | other (text : String)

/-- The clauses are the arguments, the version, the hints, the partitions, the JSON path,
`WITH ORDINALITY` and the column names of the alias. -/
inductive TableFactor where
  | table (name : ObjectName) (sample : Option String := none) (clauses : List String := [])
  | other (text : String)

structure TableWithJoins where
  relation : TableFactor
  joins : List String

inductive GroupByExpr where
  | expressions (es : List Expr) (modifiers : List String)
  | all

/-- The clauses are `EXCLUDE`, `LATERAL VIEW`, `CONNECT BY`, `CLUSTER BY`, `DISTRIBUTE BY`,
`SORT BY`, `WINDOW` and `AS STRUCT`. -/
structure Select where
  distinct : Bool := false
  top : Option String := none
  projection : List SelectItem
  into : Option String := none
  from_ : List TableWithJoins
  prewhere : Option Expr := none
  selection : Option Expr := none
  groupBy : GroupByExpr := .expressions [] []
  having : Option Expr := none
  qualify : Option Expr := none
  clauses : List String := []

structure OrderByExpr where
  expr : Expr
  asc : Option Bool := none
  nullsFirst : Option Bool := none
  withFill : Option String := none

inductive OrderByKind where
  | all
  | expressions (items : List OrderByExpr)

inductive LimitClause where
  | limitOffset (limit offset : Option Expr) (limitBy : List Expr)
  | offsetCommaLimit (offset limit : Expr)

inductive SetExpr where
  | select (s : Select)
  | values (rows : List (List Expr))
  | other (text : String)

/-- The clauses are `FOR`, `SETTINGS`, `FORMAT`, the locks and what is piped behind. -/
structure Query where
  with_ : Bool := false
  body : SetExpr
  orderBy : Option OrderByKind := none
  interpolate : Option String := none
  limitClause : Option LimitClause := none
  fetch : Option String := none
  clauses : List String := []

structure ColumnDef where
  name : Ident
  dataType : DataType
  options : List String := []

inductive TableObject where
  | tableName (name : ObjectName)
  | other (text : String)

/-- The clauses of a statement are all others it can have: of CREATE `OR REPLACE`, `TEMPORARY`,
`LIKE`, the constraints and the table options, of DROP `CASCADE`, `TEMPORARY` and the like, of
INSERT `OR`, `IGNORE`, `OVERWRITE`, `REPLACE`, `PARTITION`, `ON`, `RETURNING` and the like, of SHOW
its filters and of DESCRIBE its format. -/
inductive Statement where
  | createTable (name : ObjectName) (columns : List ColumnDef) (query : Bool) (ifNotExists : Bool)
      (clauses : List String := [])
  | drop (table : Bool) (ifExists : Bool) (names : List ObjectName) (clauses : List String := [])
  | insert (table : TableObject) (columns : List ObjectName) (source : Option Query)
      (clauses : List String := [])
  | query (q : Query)
  | showTables (clauses : List String := [])
  | explainTable (tableName : ObjectName) (clauses : List String := [])
  | other (text : String)

end Veldb.Sa
