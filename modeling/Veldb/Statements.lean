import Mathlib.Data.Multiset.Sort
import Mathlib.Data.String.Basic
import Veldb.Db
import Veldb.Planner
import Veldb.SelectRun

/-! Statements run against the database: planning sees its schemas, and what the plan asks for is
done. -/

namespace Veldb

namespace QueryResult

def message (text : String) : QueryResult :=
  ⟨["result"], [.str], [[.str text]]⟩

end QueryResult

/-- The loop of `reorder` over the names; a column no name was given for has no position, where the
source has `usize::MAX`. -/
def positionsFrom (schema : Schema) (pos : List (Option Nat)) (i : Nat) :
    List String → Exec (List (Option Nat))
  | [] => .ok pos
  | n :: ns => do
    let target ← orBail s!"нет колонки '{n}'" (schema.indexOf n)
    if (← index pos target).isSome then bail s!"колонка '{n}' указана дважды"
    else positionsFrom schema (pos.set target (some i)) (i + 1) ns

/-- `r[i].clone()` -/
def clonedAt (r : List Value) : Option Nat → Exec Value
  | some i => index r i
  | none => crash "index out of bounds"

/-- Rows written in the order of `names`, put into the order of the schema. -/
def reorder (lower : String → String) (table : String) (names : List String)
    (rows : List (List Value)) (db : Database) : Exec (List (List Value)) := do
  let schema ← orBail s!"таблица '{table}' не найдена" (db.tables.schemaOf lower table)
  if names.length ≠ schema.len then
    bail (s!"перечислено {names.length} колонок из {schema.len}: " ++
      "INSERT без части колонок не поддерживается (NULL нет)")
  else
    let pos ← positionsFrom schema (List.replicate schema.len none) 0 names
    rows.mapM (fun r => pos.mapM (clonedAt r))

namespace Database

def tableNames (db : Database) : List String :=
  (db.tables.entries.map (fun e => e.2.name)).sort (· ≤ ·)

def runCreateTable (lower : String → String) (io : AppendIo) (db : Database) (name : String)
    (schema : Schema) (ifNotExists : Bool) : Exec QueryResult × Database :=
  if ifNotExists ∧ (db.tables.table lower name).isSome then
    (.ok (.message s!"таблица '{name}' уже есть"), db)
  else
    match db.createTable lower io name schema with
    | (.error e, db') => (.error e, db')
    | (.ok (), db') => (.ok (.message s!"таблица '{name}' создана"), db')

def runDropTable (lower : String → String) (io : AppendIo) (db : Database) (name : String)
    (ifExists : Bool) : Exec QueryResult × Database :=
  match db.dropTable lower io name with
  | (.error e, db') => (.error e, db')
  | (.ok dropped, db') =>
    if !dropped && !ifExists then (bail s!"таблица '{name}' не найдена", db')
    else (.ok (.message s!"таблица '{name}' удалена"), db')

def runInsert (lower : String → String) (io : AppendIo) (db : Database) (table : String)
    (columns : Option (List String)) (rows : List (List Value)) : Exec QueryResult × Database :=
  match columns.elim (.ok rows) (fun names => reorder lower table names rows db) with
  | .error e => (.error e, db)
  | .ok rows =>
    match db.insertRows lower io table rows with
    | (.error e, db') => (.error e, db')
    | (.ok n, db') => (.ok (.message s!"вставлено строк: {n}"), db')

def runQuery (rt : Runtime) (db : Database) (plan : Select) : Exec QueryResult :=
  match plan.table with
  | none => runSelect rt plan none
  | some name => do
    let t ← orBail s!"таблица '{name}' не найдена" (db.tables.table rt.toLowercase name)
    runSelect rt plan (some t)

def runShowTables (lower : String → String) (db : Database) : QueryResult :=
  ⟨["name", "rows"], [.str, .i64], db.tableNames.map (fun n =>
    [.str n, .i64 (Int64.ofNat (((db.tables.table lower n).map Table.nrows).getD 0))])⟩

def runDescribe (lower : String → String) (db : Database) (name : String) : Exec QueryResult := do
  let t ← orBail s!"таблица '{name}' не найдена" (db.tables.table lower name)
  return ⟨["column", "type"], [.str, .str], t.schema.fields.map (fun f => [.str f.name, .str f.ty.name])⟩

def run (rt : Runtime) (io : AppendIo) (db : Database) : Statement → Exec QueryResult × Database
  | .createTable name schema ifNotExists =>
    db.runCreateTable rt.toLowercase io name schema ifNotExists
  | .dropTable name ifExists => db.runDropTable rt.toLowercase io name ifExists
  | .insert table columns rows => db.runInsert rt.toLowercase io table columns rows
  | .select plan => (db.runQuery rt plan, db)
  | .showTables => (.ok (db.runShowTables rt.toLowercase), db)
  | .describe name => (db.runDescribe rt.toLowercase name, db)

/-- A parsed statement, planned against the schemas of the database and run. -/
def execute (tx : Texts) (rt : Runtime) (io : AppendIo) (db : Database) (stmt : Sa.Statement) :
    Exec QueryResult × Database :=
  match planStatement tx (db.tables.schemaOf rt.toLowercase) stmt with
  | .error e => (.error e, db)
  | .ok plan => db.run rt io plan

end Database

end Veldb
