import Veldb.Replication
import Veldb.Statements
import Veldb.Wire

/-! The server: REST and gRPC over one database. A handler plans or reads the request, hands the work
to a blocking thread and answers when that is done, so the requests of many clients overlap. -/

namespace Veldb

/-- What the handlers take from the libraries around them. -/
structure Host where
  texts : Texts
  json : JsonTexts
  /-- `Parser::parse_sql` -/
  parseSql : String → Exec (List Sa.Statement)
  /-- How the failure of a thread that has panicked reads. -/
  joinError : String → String

def version : String := "1.0.0"

/-- `sql::plan` -/
def planSql (host : Host) (sql : String) (catalog : Schemas) : Exec Statement := do
  match ← withContext "разбор SQL" (host.parseSql sql) with
  | [] => bail "пустой запрос"
  | [stmt] => planStatement host.texts catalog stmt
  | stmts => bail s!"за раз выполняется один запрос, получено {stmts.length}"

/-- The tables that a handler finds under the names it was given. -/
def Database.listed (lower : String → String) (db : Database) : List Table :=
  db.tableNames.filterMap (db.tables.table lower)

/-- The work that both services leave to a blocking thread. -/
inductive Work where
  | run (plan : Statement)
  | insertRows (table : String) (rows : List (List Value))

inductive Outcome where
  | result (q : QueryResult)
  | inserted (n : Nat)

def Work.perform (rt : Runtime) (io : AppendIo) (db : Database) : Work → Exec Outcome × Database
  | run plan => ((db.run rt io plan).1.map .result, (db.run rt io plan).2)
  | insertRows table rows =>
    ((db.insertRows rt.toLowercase io table rows).1.map .inserted,
      (db.insertRows rt.toLowercase io table rows).2)

/-- What the blocking thread meets: the order of the hash map, and the time it takes. -/
structure Moment where
  tables : List Table
  elapsed : F64

namespace Json

def ofNat (n : Nat) : Json JsonNumeral :=
  number (.integer n)

def ofU64 (n : UInt64) : Json JsonNumeral :=
  ofNat n.toNat

def strings (v : List String) : Json JsonNumeral :=
  array (v.map string)

end Json

namespace Http

inductive Body where
  | json (j : Json JsonNumeral)
  | bytes (b : Bytes)

structure Response where
  status : Nat
  body : Body

inductive Request where
  | health
  | schema
  | query (sql : String)
  | insert (table : String) (rows : List (List (Json JsonNumber)))
  | snapshot
  | wal (after : UInt64)
  | replicationSnapshot

inductive Job where
  | work (w : Work)
  | snapshot
  | snapshotBytes

def ok (fields : List (String × Json JsonNumeral)) : Response :=
  ⟨200, .json (.object fields)⟩

/-- `ApiError` -/
def apiError (host : Host) : Fault → Response
  | .bail msg => ⟨400, .json (.object [("error", .string msg)])⟩
  | .crash place => ⟨400, .json (.object [("error", .string (host.joinError place))])⟩

def healthReply (tables rows bytes : Nat) (persistent : Bool) (nextLsn : UInt64) : Response :=
  ok [("status", .string "ok"), ("version", .string version), ("tables", .ofNat tables),
    ("rows", .ofNat rows), ("bytes_used", .ofNat bytes), ("persistent", .bool persistent),
    ("next_lsn", .ofU64 nextLsn)]

def tableInfo (name : String) (schema : Schema) (rows bytes : Nat) : Json JsonNumeral :=
  .object [("name", .string name), ("rows", .ofNat rows), ("bytes_used", .ofNat bytes),
    ("columns", .array (schema.fields.map (fun f =>
      .object [("name", .string f.name), ("type", .string f.ty.name)])))]

def schemaReply (tables : List (Json JsonNumeral)) : Response :=
  ok [("tables", .array tables)]

def queryReply (rt : Runtime) (jt : JsonTexts) (q : QueryResult) (elapsed : F64) : Response :=
  ok [("columns", .strings q.columns), ("types", .strings (q.types.map DataType.name)),
    ("rows", .array (q.rows.map (fun row => .array (row.map (Value.toJson rt jt))))),
    ("row_count", .ofNat q.rows.length), ("elapsed_ms", .number (.decimal (jt.printF64 elapsed)))]

def insertReply (n : Nat) : Response :=
  ok [("inserted", .ofNat n)]

def snapshotReply (lsn : UInt64) : Response :=
  ok [("lsn", .ofU64 lsn)]

def walReply (nextLsn : UInt64) (records : List RawRecord) : Response :=
  ok [("next_lsn", .ofU64 nextLsn), ("records", .array (records.map (fun r =>
    .object [("lsn", .ofU64 r.1), ("payload", .string (hex r.2))])))]

def health (lower : String → String) (db : Database) : Response :=
  healthReply db.tableNames.length ((db.listed lower).map Table.nrows).sum
    ((db.listed lower).map Table.bytesUsed).sum db.store.isSome db.nextLsn

def schema (lower : String → String) (db : Database) : Response :=
  schemaReply ((db.listed lower).map (fun t => tableInfo t.name t.schema t.nrows t.bytesUsed))

/-- The handler of `/insert`, up to the call of `insert_rows`. -/
def insert (host : Host) (lower : String → String) (db : Database) (table : String)
    (rows : List (List (Json JsonNumber))) : Exec Work := do
  let t ← orBail s!"таблица '{table}' не найдена" (db.tables.table lower table)
  let rows ← readRows (Value.fromJson host.texts host.json) t.schema rows
  return .insertRows table rows

def wal (host : Host) (db : Database) (after : UInt64) : Response × Database :=
  match db.walSince after with
  | (.error e, db') => (apiError host e, db')
  | (.ok records, db') => (walReply db'.nextLsn records, db')

/-- What is answered, or left to be done, when a request arrives. -/
def arrive (host : Host) (lower : String → String) (db : Database) :
    Request → Except Response Job × Database
  | .health => (.error (health lower db), db)
  | .schema => (.error (schema lower db), db)
  | .query sql =>
    (((planSql host sql (db.tables.schemaOf lower)).map (Job.work ∘ .run)).mapError (apiError host), db)
  | .insert table rows => (((insert host lower db table rows).map .work).mapError (apiError host), db)
  | .snapshot => (.ok .snapshot, db)
  | .wal after => (.error (wal host db after).1, (wal host db after).2)
  | .replicationSnapshot => (.ok .snapshotBytes, db)

def reply (host : Host) (rt : Runtime) (elapsed : F64) : Exec Outcome → Response
  | .error e => apiError host e
  | .ok (.result q) => queryReply rt host.json q elapsed
  | .ok (.inserted n) => insertReply n

def finish (host : Host) (rt : Runtime) (io : AppendIo) (now : Moment) (db : Database) :
    Job → Response × Database
  | .work w => (reply host rt now.elapsed (w.perform rt io db).1, (w.perform rt io db).2)
  | .snapshot =>
    match db.snapshot now.tables with
    | (.error e, db') => (apiError host e, db')
    | (.ok lsn, db') => (snapshotReply lsn, db')
  | .snapshotBytes =>
    match db.snapshotBytes now.tables with
    | .error e => (apiError host e, db)
    | .ok bytes => (⟨200, .bytes bytes⟩, db)

end Http

namespace Grpc

inductive Code where
  | invalidArgument
  | notFound
  | internal
  deriving DecidableEq, Repr

structure Status where
  code : Code
  message : String
  deriving DecidableEq, Repr

inductive Request where
  | query (sql : String)
  | insert (table : String) (rows : List (List Pb.Value))
  | health
  | schema

structure TableInfo where
  name : String
  rows : UInt64
  columns : List (String × String)

inductive Reply where
  | query (columns types : List String) (rows : List (List Pb.Value)) (elapsed : F64)
  | insert (inserted : UInt64)
  | health (version : String) (tables rows bytesUsed nextLsn : UInt64) (persistent : Bool)
  | schema (tables : List TableInfo)

/-- `bad`, and what is made of a thread that has panicked. -/
def status (host : Host) : Fault → Status
  | .bail msg => ⟨.invalidArgument, msg⟩
  | .crash place => ⟨.internal, host.joinError place⟩

def healthReply (tables rows bytes : Nat) (persistent : Bool) (nextLsn : UInt64) : Reply :=
  .health version (UInt64.ofNat tables) (UInt64.ofNat rows) (UInt64.ofNat bytes) nextLsn persistent

def tableInfo (name : String) (schema : Schema) (rows : Nat) : TableInfo :=
  ⟨name, UInt64.ofNat rows, schema.fields.map (fun f => (f.name, f.ty.name))⟩

def queryReply (q : QueryResult) (elapsed : F64) : Reply :=
  .query q.columns (q.types.map DataType.name) (q.rows.map (List.map toPb)) elapsed

def insertReply (n : Nat) : Reply :=
  .insert (UInt64.ofNat n)

def health (lower : String → String) (db : Database) : Reply :=
  healthReply db.tableNames.length ((db.listed lower).map Table.nrows).sum
    ((db.listed lower).map Table.bytesUsed).sum db.store.isSome db.nextLsn

def schema (lower : String → String) (db : Database) : Reply :=
  .schema ((db.listed lower).map (fun t => tableInfo t.name t.schema t.nrows))

/-- The handler of `Insert`, up to the call of `insert_rows`. -/
def insert (host : Host) (lower : String → String) (db : Database) (table : String)
    (rows : List (List Pb.Value)) : Except Status Work :=
  match db.tables.table lower table with
  | none => .error ⟨.notFound, s!"таблица '{table}' не найдена"⟩
  | some t => ((readRows fromPb t.schema rows).map (.insertRows table)).mapError (status host)

def arrive (host : Host) (lower : String → String) (db : Database) :
    Request → Except (Except Status Reply) Work
  | .query sql =>
    ((planSql host sql (db.tables.schemaOf lower)).map .run).mapError (.error ∘ status host)
  | .insert table rows => (insert host lower db table rows).mapError .error
  | .health => .error (.ok (health lower db))
  | .schema => .error (.ok (schema lower db))

def reply (host : Host) (elapsed : F64) : Exec Outcome → Except Status Reply
  | .error e => .error (status host e)
  | .ok (.result q) => .ok (queryReply q elapsed)
  | .ok (.inserted n) => .ok (insertReply n)

end Grpc

namespace Server

inductive Request where
  | http (r : Http.Request)
  | grpc (r : Grpc.Request)

inductive Reply where
  | http (r : Http.Response)
  | grpc (r : Except Grpc.Status Grpc.Reply)

inductive Job where
  | http (job : Http.Job)
  | grpc (work : Work)

end Server

/-- The database and the jobs under way; a connection waits for at most one. -/
structure Server where
  db : Database
  jobs : Finmap (fun _ : Nat => Server.Job)

namespace Server

inductive Event where
  | arrive (connection : Nat) (r : Request)
  | finish (connection : Nat) (now : Moment)

def receive (host : Host) (lower : String → String) (db : Database) :
    Request → Except Reply Job × Database
  | .http r =>
    (((Http.arrive host lower db r).1.map .http).mapError .http, (Http.arrive host lower db r).2)
  | .grpc r => (((Grpc.arrive host lower db r).map .grpc).mapError .grpc, db)

def perform (host : Host) (rt : Runtime) (io : AppendIo) (now : Moment) (db : Database) :
    Job → Reply × Database
  | .http job => (.http (Http.finish host rt io now db job).1, (Http.finish host rt io now db job).2)
  | .grpc work =>
    (.grpc (Grpc.reply host now.elapsed (work.perform rt io db).1), (work.perform rt io db).2)

def step (host : Host) (rt : Runtime) (io : AppendIo) (s : Server) : Event → Option Reply × Server
  | .arrive c r =>
    if (s.jobs.lookup c).isSome then (none, s)
    else
      match receive host rt.toLowercase s.db r with
      | (.error reply, db) => (some reply, { s with db := db })
      | (.ok job, db) => (none, ⟨db, Finmap.insert c job s.jobs⟩)
  | .finish c now =>
    match s.jobs.lookup c with
    | none => (none, s)
    | some job =>
      (some (perform host rt io now s.db job).1,
        ⟨(perform host rt io now s.db job).2, s.jobs.erase c⟩)

end Server

end Veldb
