import Mathlib.Data.Finmap
import Veldb.Storage

/-! The database: a catalog of tables, optionally backed by a data directory.
`lower` is `str::to_lowercase`; nothing here depends on which letters it maps. -/

namespace Veldb

abbrev Catalog := Finmap (fun _ : String => Table)

/-- The data directory as the file system keeps it. -/
structure Dir where
  snapshot : Option Bytes
  tmp : Option Bytes
  wal : Option Bytes
  deriving DecidableEq, Repr

def Dir.fresh : Dir :=
  ⟨none, none, none⟩

/-- The open data directory: the files next to the log, and the log itself. -/
structure Store where
  snapshot : Option Bytes
  tmp : Option Bytes
  wal : Wal
  deriving DecidableEq, Repr

structure Database where
  tables : Catalog
  store : Option Store
  readOnly : Bool
  memoryLimit : UInt64
  deriving DecidableEq

namespace Catalog

def table (lower : String → String) (m : Catalog) (name : String) : Option Table :=
  m.lookup (lower name)

def schemaOf (lower : String → String) (m : Catalog) (name : String) : Option Schema :=
  (m.table lower name).map Table.schema

def putTable (lower : String → String) (m : Catalog) (t : Table) : Catalog :=
  m.insert (lower t.name) t

def dropTableInner (lower : String → String) (m : Catalog) (name : String) : Bool × Catalog :=
  ((m.lookup (lower name)).isSome, m.erase (lower name))

/-- Rows before a rejected one stay in the table. -/
def insertInner (lower : String → String) (m : Catalog) (name : String)
    (rows : List (List Value)) : Exec Nat × Catalog :=
  match m.table lower name with
  | none => (bail s!"таблица '{name}' не найдена", m)
  | some t => ((t.insertMany rows).1, m.insert (lower name) (t.insertMany rows).2)

/-- Applies a record without logging it: recovery and the replica share this. -/
def apply (lower : String → String) (m : Catalog) : WalRecord → Exec Unit × Catalog
  | .createTable name schema =>
    match Table.new name schema with
    | .error e => (.error e, m)
    | .ok t => (.ok (), m.putTable lower t)
  | .dropTable name => (.ok (), (m.dropTableInner lower name).2)
  | .insert name rows =>
    match m.insertInner lower name rows with
    | (.error e, m') => (.error e, m')
    | (.ok _, m') => (.ok (), m')

/-- One record of the log as recovery and the replica take it: decoded against
the schemas known so far, then applied. -/
def applyPayload (lower : String → String) (lsn : UInt64) (m : Catalog) (payload : Bytes) :
    Exec Catalog := do
  let r ← withContext s!"запись WAL lsn={lsn.toNat}" (WalRecord.decode payload (m.schemaOf lower))
  match m.apply lower r with
  | (.error e, _) => withContext s!"применение записи WAL lsn={lsn.toNat}" (.error e)
  | (.ok (), m') => .ok m'

/-- Records already in the snapshot are skipped. -/
def replay (lower : String → String) (snapshotLsn : UInt64) : Catalog → List RawRecord → Exec Catalog
  | m, [] => .ok m
  | m, (lsn, payload) :: rs =>
    if lsn ≤ snapshotLsn then replay lower snapshotLsn m rs
    else do
      let m' ← m.applyPayload lower lsn payload
      replay lower snapshotLsn m' rs

def ofTables (lower : String → String) (tables : List Table) : Catalog :=
  tables.foldl (putTable lower) ∅

def bytesUsed (m : Catalog) : Nat :=
  (m.entries.map (fun e => e.2.bytesUsed)).sum

/-- `tables` lists the tables of the catalog in some order, as a walk over the
hash map does. -/
def Lists (m : Catalog) (tables : List Table) : Prop :=
  (tables : Multiset Table) = m.entries.map Sigma.snd

instance decidableLists (m : Catalog) (tables : List Table) : Decidable (m.Lists tables) := by
  unfold Lists
  infer_instance

end Catalog

namespace Database

def new : Database :=
  ⟨∅, none, false, 0⟩

/-- `Database::open`: the snapshot, then the log on top of it. -/
def openDir (lower : String → String) (dir : Dir) (durability : Durability) : Exec Database := do
  let (tables, snapshotLsn) ← match dir.snapshot with
    | some bytes => withContext "снапшот snapshot.vdb" (decodeSnapshot bytes)
    | none => .ok ([], 0)
  let (wal, records) ← Wal.openFile (dir.wal.getD []) durability
  let m ← Catalog.replay lower snapshotLsn (Catalog.ofTables lower tables) records
  return ⟨m, some ⟨dir.snapshot, dir.tmp, wal⟩, false, 0⟩

/-- The directory as it is left when the process ends. -/
def close (db : Database) : Dir :=
  match db.store with
  | none => Dir.fresh
  | some s => ⟨s.snapshot, s.tmp, some s.wal.file.content⟩

def nextLsn (db : Database) : UInt64 :=
  match db.store with
  | some s => s.wal.nextLsn
  | none => 0

def denyIfReadOnly (db : Database) (what : String) : Exec Unit :=
  if db.readOnly then bail s!"узел работает как реплика: {what} принимает только первичный узел"
  else .ok ()

/-- `log`: encodes against the catalog as it is now and appends to the log. -/
def log (lower : String → String) (io : AppendIo) (db : Database) (r : WalRecord) :
    Exec Unit × Database :=
  match db.store with
  | none => (.ok (), db)
  | some s =>
    match r.encode (db.tables.schemaOf lower) with
    | .error e => (.error e, db)
    | .ok payload =>
      match s.wal.append io payload with
      | (.error e, wal) => (.error e, { db with store := some { s with wal := wal } })
      | (.ok _, wal) => (.ok (), { db with store := some { s with wal := wal } })

def createTable (lower : String → String) (io : AppendIo) (db : Database) (name : String)
    (schema : Schema) : Exec Unit × Database :=
  match db.denyIfReadOnly "CREATE TABLE" with
  | .error e => (.error e, db)
  | .ok () =>
    match Table.new name schema with
    | .error e => (.error e, db)
    | .ok t =>
      if (db.tables.lookup (lower name)).isSome then (bail s!"таблица '{name}' уже существует", db)
      else
        { db with tables := db.tables.insert (lower name) t }.log lower io (.createTable name schema)

def dropTable (lower : String → String) (io : AppendIo) (db : Database) (name : String) :
    Exec Bool × Database :=
  match db.denyIfReadOnly "DROP TABLE" with
  | .error e => (.error e, db)
  | .ok () =>
    match db.tables.dropTableInner lower name with
    | (false, _) => (.ok false, db)
    | (true, m) =>
      match { db with tables := m }.log lower io (.dropTable name) with
      | (.error e, db') => (.error e, db')
      | (.ok (), db') => (.ok true, db')

def checkMemory (db : Database) : Exec Unit :=
  if db.memoryLimit > 0 ∧ db.tables.bytesUsed % usizeRange ≥ db.memoryLimit.toNat then
    bail (s!"достигнут предел памяти: занято {db.tables.bytesUsed} байт из {db.memoryLimit.toNat}. " ++
      "Сделайте снапшот и перезапустите с большим --max-memory либо удалите данные")
  else .ok ()

def insertRows (lower : String → String) (io : AppendIo) (db : Database) (name : String)
    (rows : List (List Value)) : Exec Nat × Database :=
  match db.denyIfReadOnly "INSERT" with
  | .error e => (.error e, db)
  | .ok () =>
    match db.checkMemory with
    | .error e => (.error e, db)
    | .ok () =>
      match db.tables.insertInner lower name rows with
      | (.error e, m) => (.error e, { db with tables := m })
      | (.ok n, m) =>
        match { db with tables := m }.log lower io (.insert name rows) with
        | (.error e, db') => (.error e, db')
        | (.ok (), db') => (.ok n, db')

/-- `snapshot`: `tables` is the order in which the hash map hands them out. -/
def snapshot (db : Database) (tables : List Table) : Exec UInt64 × Database :=
  match db.store with
  | none => (bail "база открыта без каталога данных, снапшот некуда писать", db)
  | some s =>
    let lsn := s.wal.nextLsn - 1
    match encodeSnapshot tables lsn with
    | .error e => (.error e, db)
    | .ok bytes => (.ok lsn, { db with store := some ⟨some bytes, none, s.wal.reset⟩ })

/-- The number `snapshot_bytes` freezes together with the log. -/
def frozenLsn (db : Database) : UInt64 :=
  match db.store with
  | some s => s.wal.nextLsn - 1
  | none => 0

def snapshotBytes (db : Database) (tables : List Table) : Exec Bytes :=
  encodeSnapshot tables db.frozenLsn

def loadSnapshotBytes (lower : String → String) (db : Database) (bytes : Bytes) :
    Exec UInt64 × Database :=
  match decodeSnapshot bytes with
  | .error e => (.error e, db)
  | .ok (tables, lsn) => (.ok lsn, { db with tables := Catalog.ofTables lower tables })

def walSince (db : Database) (after : UInt64) : Exec (List RawRecord) × Database :=
  match db.store with
  | none => (.ok [], db)
  | some s =>
    ((s.wal.recordsAfter after).1,
      { db with store := some { s with wal := (s.wal.recordsAfter after).2 } })

end Database

end Veldb
