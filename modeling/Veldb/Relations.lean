import Mathlib.Data.List.TakeWhile
import Mathlib.Data.Multiset.Sort
import Mathlib.Data.String.Basic
import Veldb.GroupSemantics
import Veldb.InsertColumns
import Veldb.QueryTypes

/-! What the database is for: tables of rows under names, and what a statement answers and does to
them. Columns, logs and files do not appear here, and no error texts: `none` is a refusal. -/

namespace Veldb

/-- What a column of a type keeps of a value: DOUBLE takes integers. -/
def Value.stored : DataType → Value → Value
  | .f64, .i64 x => .f64 (F64.ofI64 x)
  | _, v => v

theorem stored_typed {ty : DataType} {v : Value} (h : Table.accepts ty v.typeOf = true) :
    (v.stored ty).typeOf = ty := by
  cases ty <;> cases v <;> simp_all [Table.accepts, Value.typeOf, Value.stored]

/-- The memory a value takes in its column. -/
def Value.bytes : Value → Nat
  | .i64 _ => 8
  | .f64 _ => 8
  | .bool _ => 1
  | .str s => (utf8 s).length + 4
  | .vector x => x.length * 4

/-- The bytes of a row in the array of a column; texts have an arena of their own. -/
def DataType.width : DataType → Nat
  | .i64 => 8
  | .f64 => 8
  | .bool => 1
  | .str => 0
  | .vector dim => dim.toNat * 4

namespace Schema

def types (s : Schema) : List DataType :=
  s.fields.map Field.ty

def stored (s : Schema) (row : List Value) : List Value :=
  List.zipWith Value.stored s.types row

theorem stored_types {s : Schema} {row : List Value} (h : s.Accepts row) :
    (s.stored row).map Value.typeOf = s.types := by
  unfold stored types
  unfold Accepts at h
  generalize s.fields = fields at h
  induction h with
  | nil => rfl
  | cons hv _ ih => rw [List.map_cons, List.zipWith_cons_cons, List.map_cons, stored_typed hv, ih]

instance decidableNamesColumns (s : Schema) (names : List String) : Decidable (NamesColumns s names) :=
  inferInstanceAs (Decidable (List.Perm _ _))

/-- A row written in the order of `names`, in the order of the columns. -/
def inOrder (s : Schema) (names : List String) (row : List Value) : List Value :=
  s.keys.filterMap (fun k => row[(names.map toAsciiLowercase).idxOf k]?)

def arranged (s : Schema) (columns : Option (List String)) (rows : List (List Value)) :
    Option (List (List Value)) :=
  match columns with
  | none => some rows
  | some names => if NamesColumns s names then some (rows.map (s.inOrder names)) else none

end Schema

/-- A table as its rows, each with a value of the right type in every column. -/
structure Relation where
  name : String
  schema : Schema
  rows : List (List Value)
  valid : schema.validate = .ok ()
  typed : ∀ row ∈ rows, row.map Value.typeOf = schema.types

namespace Relation

def new (name : String) (schema : Schema) (h : schema.validate = .ok ()) : Relation :=
  ⟨name, schema, [], h, by simp⟩

def append (r : Relation) (rows : List (List Value)) (h : ∀ row ∈ rows, r.schema.Accepts row) :
    Relation where
  name := r.name
  schema := r.schema
  rows := r.rows ++ rows.map r.schema.stored
  valid := r.valid
  typed row hrow := by
    rcases List.mem_append.mp hrow with hrow | hrow
    · exact r.typed row hrow
    · obtain ⟨row', hrow', rfl⟩ := List.mem_map.mp hrow
      exact Schema.stored_types (h row' hrow')

/-- The rows in front of the first that the columns do not take. -/
def taken (r : Relation) (rows : List (List Value)) : List (List Value) :=
  rows.takeWhile (fun row => decide (r.schema.Accepts row))

theorem taken_accepted (r : Relation) (rows : List (List Value)) :
    ∀ row ∈ r.taken rows, r.schema.Accepts row := fun row hrow => by
  simpa using List.mem_takeWhile_imp hrow

/-- A batch is not taken back at a row that is refused. -/
def insert (r : Relation) (rows : List (List Value)) : Relation :=
  r.append (r.taken rows) (r.taken_accepted rows)

/-- So many more rows are within what an array can hold. -/
def Reserves (r : Relation) (extra : Nat) : Prop :=
  ∀ ty ∈ r.schema.types, (r.rows.length + extra) * ty.width ≤ isizeMax

instance decidableReserves (r : Relation) (extra : Nat) : Decidable (r.Reserves extra) := by
  unfold Reserves
  infer_instance

def bytesUsed (r : Relation) : Nat :=
  (r.rows.map (fun row => (row.map Value.bytes).sum)).sum + 4 * r.schema.types.count .str

end Relation

namespace Select

def result (rt : Runtime) (plan : Select) (types : List DataType) (rows : List (List Value)) :
    Option QueryResult := do
  let out ← plan.typesOf types
  let rows ← (plan.answer rt types rows).toOption
  return ⟨plan.projection.map (·.aliasName), out, rows⟩

end Select

/-- How a node serves its clients. -/
structure Mode where
  readOnly : Bool
  memoryLimit : UInt64

abbrev Relations := Finmap (fun _ : String => Relation)

namespace Relations

def schemaOf (lower : String → String) (m : Relations) (name : String) : Option Schema :=
  (m.lookup (lower name)).map Relation.schema

def bytesUsed (m : Relations) : Nat :=
  (m.entries.map (fun e => e.2.bytesUsed)).sum

/-- The memory limit is reached. -/
def Full (m : Relations) (mode : Mode) : Prop :=
  mode.memoryLimit > 0 ∧ mode.memoryLimit.toNat ≤ m.bytesUsed % usizeRange

instance decidableFull (m : Relations) (mode : Mode) : Decidable (m.Full mode) := by
  unfold Full
  infer_instance

def create (lower : String → String) (mode : Mode) (m : Relations) (name : String) (schema : Schema)
    (ifNotExists : Bool) : Option QueryResult × Relations :=
  if (m.lookup (lower name)).isSome then
    (if ifNotExists then some (.message s!"таблица '{name}' уже есть") else none, m)
  else if mode.readOnly then (none, m)
  else
    match h : schema.validate with
    | .ok () =>
      (some (.message s!"таблица '{name}' создана"),
        Finmap.insert (lower name) (Relation.new name schema h) m)
    | .error _ => (none, m)

def drop (lower : String → String) (mode : Mode) (m : Relations) (name : String) (ifExists : Bool) :
    Option QueryResult × Relations :=
  if mode.readOnly then (none, m)
  else if (m.lookup (lower name)).isSome || ifExists then
    (some (.message s!"таблица '{name}' удалена"), m.erase (lower name))
  else (none, m)

def insert (lower : String → String) (mode : Mode) (m : Relations) (table : String)
    (columns : Option (List String)) (rows : List (List Value)) : Option QueryResult × Relations :=
  match m.lookup (lower table) with
  | none => (none, m)
  | some r =>
    match r.schema.arranged columns rows with
    | none => (none, m)
    | some rows =>
      if mode.readOnly ∨ m.Full mode then (none, m)
      else
        (if ∀ row ∈ rows, r.schema.Accepts row then
          some (.message s!"вставлено строк: {rows.length}") else none,
          Finmap.insert (lower table) (r.insert rows) m)

/-- A batch within what the machine can hold. -/
def Takes (lower : String → String) (m : Relations) (table : String) (rows : List (List Value)) :
    Prop :=
  (∀ row ∈ rows, ∀ v ∈ row, v.Fits) ∧ ∀ r ∈ m.lookup (lower table), r.Reserves rows.length

/-- Without a table there is one row, of no column. -/
def query (rt : Runtime) (m : Relations) (plan : Select) : Option QueryResult :=
  match plan.table with
  | none => plan.result rt [] [[]]
  | some name => do
    let r ← m.lookup (rt.toLowercase name)
    plan.result rt r.schema.types r.rows

def inOrder {α : Type} [LinearOrder α] (s : Multiset α) : List α :=
  s.sort (· ≤ ·)

def names (m : Relations) : List String :=
  inOrder (m.entries.map (fun e => e.2.name))

def showTables (lower : String → String) (m : Relations) : QueryResult :=
  ⟨["name", "rows"], [.str, .i64], m.names.map (fun n =>
    [.str n, .i64 (Int64.ofNat (((m.lookup (lower n)).map (·.rows.length)).getD 0))])⟩

def describe (lower : String → String) (m : Relations) (name : String) : Option QueryResult := do
  let r ← m.lookup (lower name)
  return ⟨["column", "type"], [.str, .str], r.schema.fields.map (fun f => [.str f.name, .str f.ty.name])⟩

def run (rt : Runtime) (mode : Mode) (m : Relations) : Statement → Option QueryResult × Relations
  | .createTable name schema ifNotExists => m.create rt.toLowercase mode name schema ifNotExists
  | .dropTable name ifExists => m.drop rt.toLowercase mode name ifExists
  | .insert table columns rows => m.insert rt.toLowercase mode table columns rows
  | .select plan => (m.query rt plan, m)
  | .showTables => (some (m.showTables rt.toLowercase), m)
  | .describe name => (m.describe rt.toLowercase name, m)

/-- A parsed statement, planned against the schemas of the tables. -/
def execute (tx : Texts) (rt : Runtime) (mode : Mode) (m : Relations) (stmt : Sa.Statement) :
    Option QueryResult × Relations :=
  match planStatement tx (m.schemaOf rt.toLowercase) stmt with
  | .error _ => (none, m)
  | .ok plan => m.run rt mode plan

end Relations

end Veldb
