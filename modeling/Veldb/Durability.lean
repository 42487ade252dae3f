import Veldb.Recovery

/-! Runs of calls, snapshots and restarts on one data directory, and the runs
after which the directory recovers to what was in memory. -/

namespace Veldb

open Wal

variable {lower : String → String}

namespace Database

/-- A call that writes puts its record into memory, then into the log. -/
def Writes (lower : String → String) (io : AppendIo) (db : Database) (r : WalRecord)
    (db' : Database) : Prop :=
  ∃ m, db.tables.apply lower r = (.ok (), m) ∧ { db with tables := m }.log lower io r = (.ok (), db')

theorem apply_created {db : Database} {name : String} {schema : Schema} {t : Table}
    (hn : Table.new name schema = .ok t) : db.tables.apply lower (.createTable name schema) =
      (.ok (), Finmap.insert (lower name) t db.tables) := by
  have ht : t.name = name := by rw [(Table.new_ok hn).2]
  simp only [Catalog.apply, hn, Catalog.putTable, ht]

theorem createTable_writes {io : AppendIo} {db db' : Database} {name : String} {schema : Schema}
    (h : db.createTable lower io name schema = (.ok (), db')) :
    db.Writes lower io (.createTable name schema) db' := by
  unfold createTable at h
  split at h
  · cases h
  · cases hn : Table.new name schema with
    | error e => simp [hn] at h
    | ok t =>
      simp only [hn] at h
      split at h
      · cases h
      · exact ⟨_, apply_created hn, h⟩

theorem dropTable_writes {io : AppendIo} {db db' : Database} {name : String} {b : Bool}
    (h : db.dropTable lower io name = (.ok b, db')) :
    (db.tables.lookup (lower name) = none ∧ db' = db) ∨
      ((db.tables.lookup (lower name)).isSome ∧ db.Writes lower io (.dropTable name) db') := by
  unfold dropTable at h
  split at h
  · cases h
  · cases hl : db.tables.lookup (lower name) with
    | none =>
      simp only [Catalog.dropTableInner, hl, Option.isSome_none] at h
      exact .inl ⟨rfl, (Prod.mk.inj h).2.symm⟩
    | some t =>
      simp only [Catalog.dropTableInner, hl, Option.isSome_some] at h
      split at h
      · cases h
      · next db'' hlog =>
        obtain rfl := (Prod.mk.inj h).2
        exact .inr ⟨rfl, _, rfl, hlog⟩

theorem insertRows_writes {io : AppendIo} {db db' : Database} {name : String}
    {rows : List (List Value)} {n : Nat} (h : db.insertRows lower io name rows = (.ok n, db')) :
    db.Writes lower io (.insert name rows) db' := by
  unfold insertRows at h
  split at h
  · cases h
  · split at h
    · cases h
    · split at h
      · cases h
      · next n' m hi =>
        split at h
        · cases h
        · next db'' hlog =>
          obtain rfl := (Prod.mk.inj h).2
          have ha : db.tables.apply lower (.insert name rows) = (.ok (), m) := by
            simp only [Catalog.apply, hi]
          exact ⟨m, ha, hlog⟩

theorem log_done {db db' : Database} {s : Store} {r : WalRecord} (hs : db.store = some s)
    (h : db.log lower .done r = (.ok (), db')) :
    db' = { db with store := some { s with wal := (s.wal.append .done r.payload).2 } } := by
  unfold log at h
  rw [hs] at h
  dsimp only at h
  split at h
  · cases h
  · next bytes he =>
    rw [WalRecord.encode_payload he] at h
    exact (Prod.mk.inj h).2.symm

end Database

/-- What the sequential client of one data directory does. -/
inductive Op where
  | createTable (name : String) (schema : Schema)
  | dropTable (name : String)
  | insertRows (name : String) (rows : List (List Value))
  | snapshot (tables : List Table)
  | restart (durability : Durability)

namespace Op

/-- The state after a call that returned `Ok`; `none` when it did not. -/
def exec (lower : String → String) (db : Database) : Op → Option Database
  | createTable name schema =>
    match db.createTable lower .done name schema with
    | (.ok (), db') => some db'
    | _ => none
  | dropTable name =>
    match db.dropTable lower .done name with
    | (.ok _, db') => some db'
    | _ => none
  | insertRows name rows =>
    match db.insertRows lower .done name rows with
    | (.ok _, db') => some db'
    | _ => none
  | snapshot tables =>
    if db.tables.Lists tables then
      match db.snapshot tables with
      | (.ok _, db') => some db'
      | _ => none
    else none
  | restart durability =>
    match Database.openDir lower db.close durability with
    | .ok db' => some db'
    | _ => none

def record (lower : String → String) (db : Database) : Op → Option WalRecord
  | createTable name schema => some (.createTable name schema)
  | dropTable name =>
    if (db.tables.lookup (lower name)).isSome then some (.dropTable name) else none
  | insertRows name rows => some (.insert name rows)
  | _ => none

end Op

def Store.snapshotLsn (s : Store) : UInt64 :=
  match s.snapshot with
  | none => 0
  | some bytes =>
    match decodeSnapshot bytes with
    | .ok (_, lsn) => lsn
    | .error _ => 0

namespace Database

def snapshotLsn (db : Database) : UInt64 :=
  match db.store with
  | none => 0
  | some s => s.snapshotLsn

/-- The record gets a number above the snapshot's, fits its frame, and its rows
read back as they are. -/
@[mk_iff] structure LogsSafely (lower : String → String) (db : Database) (r : WalRecord) : Prop where
  number : db.snapshotLsn < db.nextLsn
  length : r.payload.length < 2 ^ 32
  keeps : r.Keeps lower db.tables

instance decidableLogsSafely (db : Database) (r : WalRecord) : Decidable (db.LogsSafely lower r) :=
  decidable_of_iff' _ (logsSafely_iff lower db r)

def StoresSafely (tables : List Table) : Prop :=
  (∀ t ∈ tables, t.Storable) ∧ tables.length * tableSize ≤ isizeMax

instance decidableStoresSafely (tables : List Table) : Decidable (StoresSafely tables) := by
  unfold StoresSafely
  infer_instance

end Database

def Op.Safe (lower : String → String) (db : Database) : Op → Prop
  | .snapshot tables => Database.StoresSafely tables
  | op => ∀ r ∈ op.record lower db, db.LogsSafely lower r

instance Op.decidableSafe (db : Database) : (op : Op) → Decidable (op.Safe lower db)
  | .snapshot tables => inferInstanceAs (Decidable (Database.StoresSafely tables))
  | .createTable name schema => inferInstanceAs (Decidable
      (∀ r ∈ (Op.createTable name schema).record lower db, db.LogsSafely lower r))
  | .dropTable name => inferInstanceAs (Decidable
      (∀ r ∈ (Op.dropTable name).record lower db, db.LogsSafely lower r))
  | .insertRows name rows => inferInstanceAs (Decidable
      (∀ r ∈ (Op.insertRows name rows).record lower db, db.LogsSafely lower r))
  | .restart d => inferInstanceAs (Decidable
      (∀ r ∈ (Op.restart d).record lower db, db.LogsSafely lower r))

def runFrom (lower : String → String) (db : Database) (ops : List Op) : Option Database :=
  ops.foldlM (Op.exec lower) db

def openFresh (lower : String → String) (d : Durability) : Option Database :=
  (Database.openDir lower Dir.fresh d).toOption

def run (lower : String → String) (d : Durability) (ops : List Op) : Option Database :=
  openFresh lower d >>= fun db => runFrom lower db ops

def SafeFrom (lower : String → String) : Database → List Op → Prop
  | _, [] => True
  | db, op :: ops => op.Safe lower db ∧ ∀ db' ∈ op.exec lower db, SafeFrom lower db' ops

def SafeRun (lower : String → String) (d : Durability) (ops : List Op) : Prop :=
  ∀ db ∈ openFresh lower d, SafeFrom lower db ops

instance decidableSafeFrom : (db : Database) → (ops : List Op) → Decidable (SafeFrom lower db ops)
  | _, [] => isTrue trivial
  | db, op :: ops =>
    have := fun db' => decidableSafeFrom db' ops
    inferInstanceAs (Decidable (op.Safe lower db ∧ ∀ db' ∈ op.exec lower db, SafeFrom lower db' ops))

instance decidableSafeRun (d : Durability) (ops : List Op) : Decidable (SafeRun lower d ops) := by
  unfold SafeRun
  infer_instance

theorem Recovers.snapshotLsn {db : Database} {s : Store} {base : Catalog} {mark : UInt64}
    {rs : List RawRecord} (h : Recovers lower db s base mark rs) : db.snapshotLsn = mark := by
  have hb := h.based
  simp only [Database.snapshotLsn, h.stored, Store.snapshotLsn]
  unfold Store.base at hb
  cases hsnap : s.snapshot with
  | none =>
    rw [hsnap] at hb
    exact (Prod.mk.inj (Except.ok.inj hb)).2
  | some bytes =>
    rw [hsnap] at hb
    cases hdec : decodeSnapshot bytes with
    | error e => simp [hdec] at hb
    | ok r =>
      simp only [hdec] at hb ⊢
      exact (Prod.mk.inj (Except.ok.inj hb)).2

theorem Recovers.writes {db db' : Database} {s : Store} {base : Catalog} {mark : UInt64}
    {rs : List RawRecord} (h : Recovers lower db s base mark rs) {r : WalRecord}
    (hw : db.Writes lower .done r db') (hs : db.LogsSafely lower r) : Recoverable lower db' := by
  obtain ⟨m, ha, hlog⟩ := hw
  have hstored : { db with tables := m }.store = some s := h.stored
  have hlog' := Database.log_done hstored hlog
  have hnum := hs.number
  rw [h.snapshotLsn] at hnum
  simp only [Database.nextLsn, h.stored] at hnum
  exact ⟨_, _, _, _, hlog' ▸ h.write ha hnum hs.length hs.keeps⟩

/-- What one step can do: write one record, find nothing to drop, take a
snapshot or restart. -/
theorem Op.exec_cases {db db' : Database} {op : Op} (h : op.exec lower db = some db') :
    (∃ r, op.record lower db = some r ∧ db.Writes lower .done r db') ∨
      (∃ name, op = .dropTable name ∧ op.record lower db = none ∧ db' = db) ∨
      (∃ tables lsn, op = .snapshot tables ∧ db.tables.Lists tables ∧
        db.snapshot tables = (.ok lsn, db')) ∨
      ∃ d, op = .restart d ∧ Database.openDir lower db.close d = .ok db' := by
  cases op with
  | createTable name schema =>
    simp only [Op.exec] at h
    split at h
    · next db'' hcall =>
      obtain rfl := Option.some.inj h
      exact .inl ⟨_, rfl, Database.createTable_writes hcall⟩
    · cases h
  | dropTable name =>
    simp only [Op.exec] at h
    split at h
    · next b db'' hcall =>
      obtain rfl := Option.some.inj h
      rcases Database.dropTable_writes hcall with ⟨hnone, rfl⟩ | ⟨hsome, hw⟩
      · exact .inr (.inl ⟨name, rfl, by simp [Op.record, hnone], rfl⟩)
      · exact .inl ⟨_, by rw [Op.record, if_pos hsome], hw⟩
    · cases h
  | insertRows name rows =>
    simp only [Op.exec] at h
    split at h
    · next n db'' hcall =>
      obtain rfl := Option.some.inj h
      exact .inl ⟨_, rfl, Database.insertRows_writes hcall⟩
    · cases h
  | snapshot tables =>
    simp only [Op.exec] at h
    split at h
    · next hl =>
      split at h
      · next lsn db'' hcall =>
        obtain rfl := Option.some.inj h
        exact .inr (.inr (.inl ⟨tables, lsn, rfl, hl, hcall⟩))
      · cases h
    · cases h
  | restart d =>
    simp only [Op.exec] at h
    split at h
    · next db'' hopen =>
      obtain rfl := Option.some.inj h
      exact .inr (.inr (.inr ⟨d, rfl, hopen⟩))
    · cases h

theorem Op.Safe.logs {db : Database} {op : Op} {r : WalRecord} (h : op.Safe lower db)
    (hr : op.record lower db = some r) : db.LogsSafely lower r := by
  cases op with
  | snapshot tables => cases hr
  | _ => exact h r hr

theorem Recoverable.exec {db db' : Database} {op : Op} (h : Recoverable lower db)
    (hs : op.Safe lower db) (he : op.exec lower db = some db') : Recoverable lower db' := by
  obtain ⟨s, base, mark, rs, hr⟩ := h
  rcases Op.exec_cases he with ⟨r, hrec, hw⟩ | ⟨_, _, _, rfl⟩ | ⟨tables, lsn, rfl, hl, hsnap⟩ |
    ⟨d, rfl, hopen⟩
  · exact hr.writes hw (hs.logs hrec)
  · exact ⟨s, base, mark, rs, hr⟩
  · obtain ⟨bytes, _, _, hr'⟩ := recovers_snapshot hr.stored hr.sound hl hs.1 hs.2 hsnap
    exact ⟨_, _, _, _, hr'⟩
  · exact ⟨_, _, _, _, (hr.restart hopen).2⟩

theorem Recoverable.runFrom {db db' : Database} {ops : List Op} (h : Recoverable lower db)
    (hs : SafeFrom lower db ops) (hrun : runFrom lower db ops = some db') :
    Recoverable lower db' := by
  induction ops generalizing db with
  | nil =>
    obtain rfl := Option.some.inj hrun
    exact h
  | cons op ops ih =>
    obtain ⟨hop, hops⟩ := hs
    rw [Veldb.runFrom, List.foldlM_cons] at hrun
    cases he : op.exec lower db with
    | none => simp [he] at hrun
    | some db₁ =>
      rw [he] at hrun
      exact ih (h.exec hop he) (hops db₁ he) hrun

theorem openFresh_recoverable {d : Durability} {db : Database} (h : openFresh lower d = some db) :
    Recoverable lower db := by
  obtain ⟨db₀, hopen, -, hrec⟩ := recovers_fresh lower d
  rw [openFresh, hopen] at h
  exact Option.some.inj h ▸ ⟨_, _, _, _, hrec⟩

theorem run_recoverable {d : Durability} {ops : List Op} {db : Database}
    (hs : SafeRun lower d ops) (hrun : run lower d ops = some db) : Recoverable lower db := by
  cases hopen : openFresh lower d with
  | none => simp [run, hopen] at hrun
  | some db₀ =>
    rw [run, hopen] at hrun
    exact (openFresh_recoverable hopen).runFrom (hs db₀ hopen) hrun

/-- After a safe run the directory opens to the tables in memory. -/
theorem run_durable (lower : String → String) (d d' : Durability) (ops : List Op) (db : Database)
    (hs : SafeRun lower d ops) (hrun : run lower d ops = some db) :
    ∃ db', Database.openDir lower db.close d' = .ok db' ∧ db'.tables = db.tables := by
  obtain ⟨s, base, mark, rs, hr⟩ := run_recoverable hs hrun
  exact ⟨_, hr.openDir d', rfl⟩

def intsWith (xs : List Int64) : Table :=
  ⟨"t", ⟨[⟨"x", .i64⟩]⟩, [.i64 xs], xs.length⟩

theorem run_durable_ints :
    ∃ db db', run id .fsync [.createTable "t" ⟨[⟨"x", .i64⟩]⟩, .insertRows "t" [[.i64 1]],
        .snapshot [intsWith [1]], .insertRows "t" [[.i64 2]], .restart .fsync,
        .insertRows "t" [[.i64 3]]] = some db ∧
      Database.openDir id db.close .buffered = .ok db' ∧ db'.tables = db.tables := by
  obtain ⟨db, hrun⟩ : ∃ db, run id .fsync [.createTable "t" ⟨[⟨"x", .i64⟩]⟩,
      .insertRows "t" [[.i64 1]], .snapshot [intsWith [1]], .insertRows "t" [[.i64 2]],
      .restart .fsync, .insertRows "t" [[.i64 3]]] = some db :=
    Option.isSome_iff_exists.mp (by decide +kernel)
  obtain ⟨db', hopen, htables⟩ := run_durable id .fsync .buffered _ db (by decide +kernel) hrun
  exact ⟨db, db', hrun, hopen, htables⟩

/-- A snapshot, a restart, one more row: the next restart does not find the row. -/
theorem run_loses_row :
    ∃ db db', run id .fsync [.createTable "t" ⟨[⟨"x", .i64⟩]⟩, .insertRows "t" [[.i64 1]],
        .snapshot [intsWith [1]], .restart .fsync, .insertRows "t" [[.i64 2]]] = some db ∧
      Database.openDir id db.close .fsync = .ok db' ∧
      db.tables.lookup "t" = some (intsWith [1, 2]) ∧ db'.tables.lookup "t" = some (intsWith [1]) := by
  have h : (run id .fsync [.createTable "t" ⟨[⟨"x", .i64⟩]⟩, .insertRows "t" [[.i64 1]],
      .snapshot [intsWith [1]], .restart .fsync, .insertRows "t" [[.i64 2]]]).map (fun db =>
        (db.tables.lookup "t", (Database.openDir id db.close .fsync).toOption.map
          (fun db' => db'.tables.lookup "t"))) =
      some (some (intsWith [1, 2]), some (some (intsWith [1]))) := by decide +kernel
  obtain ⟨db, hrun, hdb⟩ := Option.map_eq_some_iff.mp h
  obtain ⟨hmem, hdisk⟩ := Prod.mk.inj hdb
  obtain ⟨db', hopen, hrows⟩ := Option.map_eq_some_iff.mp hdisk
  cases ho : Database.openDir id db.close .fsync with
  | error e => simp [ho, Except.toOption] at hopen
  | ok db'' =>
    rw [ho] at hopen
    obtain rfl : db'' = db' := Option.some.inj hopen
    exact ⟨db, db'', hrun, ho, hmem, hrows⟩

end Veldb
