import Veldb.Durability

/-! A crash inside `snapshot`: the file operations one after another, each of
them interruptible, and what a later `open` makes of the directory. -/

namespace Veldb

open Wal

variable {lower : String → String}

/-- The file operations of `write_snapshot` and `reset`. -/
inductive DiskOp where
  | createTmp
  | writeTmp (bs : Bytes)
  | renameTmp
  | truncateWal
  | writeWal (bs : Bytes)

namespace DiskOp

def snapshotOps (bytes : Bytes) : List DiskOp :=
  [createTmp, writeTmp bytes, renameTmp, truncateWal, writeWal walMagic,
    writeWal (Writer.u32 formatVersion)]

/-- What an interrupted operation leaves: a prefix of a write, nothing of the others. -/
def interrupted (k : Nat) : DiskOp → Option DiskOp
  | writeTmp bs => some (writeTmp (bs.take k))
  | writeWal bs => some (writeWal (bs.take k))
  | _ => none

end DiskOp

namespace Dir

def apply (dir : Dir) : DiskOp → Dir
  | .createTmp => { dir with tmp := some [] }
  | .writeTmp bs => { dir with tmp := some (dir.tmp.getD [] ++ bs) }
  | .renameTmp => { dir with snapshot := dir.tmp, tmp := none }
  | .truncateWal => { dir with wal := some [] }
  | .writeWal bs => { dir with wal := some (dir.wal.getD [] ++ bs) }

def applyAll (dir : Dir) (ops : List DiskOp) : Dir :=
  ops.foldl apply dir

end Dir

/-- A crash after `done` operations and `part` bytes of the next one. -/
structure CrashPoint where
  done : Nat
  part : Nat
  deriving DecidableEq, Repr

/-- Between 1 and 11 bytes of the log header are rewritten. -/
def CrashPoint.TearsHeader (p : CrashPoint) : Prop :=
  (p.done = 4 ∧ 0 < p.part) ∨ (p.done = 5 ∧ p.part < 4)

instance CrashPoint.decidableTearsHeader (p : CrashPoint) : Decidable p.TearsHeader := by
  unfold CrashPoint.TearsHeader
  infer_instance

def Dir.crashed (dir : Dir) (ops : List DiskOp) (p : CrashPoint) : Dir :=
  match ops[p.done]? >>= DiskOp.interrupted p.part with
  | none => dir.applyAll (ops.take p.done)
  | some op => (dir.applyAll (ops.take p.done)).apply op

theorem applyAll_snapshotOps {db db' : Database} {tables : List Table} {lsn : UInt64} {bytes : Bytes}
    (henc : encodeSnapshot tables db.frozenLsn = .ok bytes)
    (h : db.snapshot tables = (.ok lsn, db')) :
    db.close.applyAll (DiskOp.snapshotOps bytes) = db'.close := by
  cases hs : db.store with
  | none => simp [Database.snapshot, hs, bail] at h
  | some s =>
    simp only [Database.frozenLsn, hs] at henc
    simp only [Database.snapshot, hs, henc, Prod.mk.injEq, Except.ok.injEq] at h
    obtain ⟨-, rfl⟩ := h
    simp only [Database.close, hs, reset_file]
    rfl

/-- What the log file looks like at a crash point, as `open` will see it. -/
theorem openDir_torn {dir : Dir} {w : Bytes} (hw : dir.wal = some w) (h0 : w ≠ [])
    (hlt : w.length < 12) (d : Durability) (db : Database) :
    Database.openDir lower dir d ≠ .ok db := by
  have hfail : openFile (dir.wal.getD []) d = bail "wal.log не похож на WAL veldb" := by
    have hshort : w.length < walMagic.length + 4 ∨ w.take 8 ≠ walMagic := .inl hlt
    rw [hw, Option.getD_some, openFile, if_neg h0, if_pos hshort]
  intro h
  simp only [Database.openDir, hfail] at h
  cases hs : dir.snapshot with
  | none => simp [hs, bail, bind, Except.bind] at h
  | some bytes =>
    simp only [hs] at h
    cases hd : withContext "снапшот snapshot.vdb" (decodeSnapshot bytes) with
    | error e => simp [hd, bind, Except.bind] at h
    | ok r => simp [hd, bail, bind, Except.bind] at h

section

variable {db : Database} {s : Store} {base : Catalog} {mark : UInt64} {rs : List RawRecord}

theorem Recovers.openDir_tmp (h : Recovers lower db s base mark rs) (tmp : Option Bytes)
    (d : Durability) :
    ∃ db', Database.openDir lower ⟨s.snapshot, tmp, some s.wal.file.content⟩ d = .ok db' ∧
      db'.tables = db.tables := by
  have hwal : ∀ d, openFile ((Dir.mk s.snapshot tmp (some s.wal.file.content)).wal.getD []) d =
      .ok (⟨fileOf rs, lsnAfter rs, d⟩, rs) := by
    intro d
    rw [Option.getD_some, h.logged]
    exact openFile_fileOf h.payloads d
  exact ⟨_, openDir_eq rfl h.based hwal h.replayed d, rfl⟩

/-- From the rename on the new snapshot covers whatever records the log still has. -/
theorem Recovers.openDir_renamed (h : Recovers lower db s base mark rs) {tables : List Table}
    {bytes w : Bytes} {ts : List RawRecord} (hl : db.tables.Lists tables)
    (hst : Database.StoresSafely tables)
    (henc : encodeSnapshot tables (s.wal.nextLsn - 1) = .ok bytes)
    (hw : ∀ d, openFile w d = .ok (⟨fileOf ts, lsnAfter ts, d⟩, ts))
    (hts : ∀ r ∈ ts, r.1 ≤ s.wal.nextLsn - 1) (tmp : Option Bytes) (d : Durability) :
    ∃ db', Database.openDir lower ⟨some bytes, tmp, some w⟩ d = .ok db' ∧
      db'.tables = db.tables := by
  have hinv : ∀ t ∈ tables, t.Inv := by
    intro t ht
    obtain ⟨k, hk⟩ := (Catalog.lists_mem hl t).mp ht
    exact (h.sound.shaped k t hk).inv (hst.1 t ht)
  obtain ⟨bytes', henc', hdec⟩ := decodeSnapshot_encodeSnapshot (s.wal.nextLsn - 1) hinv hst.2
  obtain rfl := Except.ok.inj (henc'.symm.trans henc)
  let s' : Store := ⟨some bytes', tmp, s.wal⟩
  have hbase : s'.base lower = .ok (db.tables, s.wal.nextLsn - 1) := by
    simp only [s', Store.base, hdec, Catalog.ofTables_eq h.sound.keyed hl]
  have hreplay : Catalog.replay lower (s.wal.nextLsn - 1) db.tables ts = .ok db.tables := by
    rw [Catalog.replay_eq_journal]
    exact Journal.replay_covered _ _ _ hts
  let dir : Dir := ⟨some bytes', tmp, some w⟩
  have hsnap : s'.snapshot = dir.snapshot := rfl
  exact ⟨_, openDir_eq hsnap hbase hw hreplay d, rfl⟩

end

/-- After a safe run, a crash anywhere inside `snapshot` loses nothing, except
where it leaves part of the log header. -/
theorem snapshot_crash_safe (lower : String → String) (d d' : Durability) (ops : List Op)
    (db : Database) (tables : List Table) (bytes : Bytes) (p : CrashPoint)
    (hs : SafeRun lower d ops) (hrun : run lower d ops = some db) (hl : db.tables.Lists tables)
    (hst : Database.StoresSafely tables) (henc : encodeSnapshot tables db.frozenLsn = .ok bytes) :
    (∃ db', Database.openDir lower (db.close.crashed (DiskOp.snapshotOps bytes) p) d' = .ok db' ∧
        db'.tables = db.tables) ↔ ¬p.TearsHeader := by
  obtain ⟨s, base, mark, rs, hr⟩ := run_recoverable hs hrun
  have hclose : db.close = ⟨s.snapshot, s.tmp, some s.wal.file.content⟩ := by
    simp only [Database.close, hr.stored]
  have henc' : encodeSnapshot tables (s.wal.nextLsn - 1) = .ok bytes := by
    simpa only [Database.frozenLsn, hr.stored] using henc
  have hold : ∀ d, openFile s.wal.file.content d = .ok (⟨fileOf rs, lsnAfter rs, d⟩, rs) := by
    intro d
    rw [hr.logged]
    exact openFile_fileOf hr.payloads d
  have hnew : ∀ d, openFile header d = .ok (⟨fileOf [], lsnAfter [], d⟩, []) := by
    intro d
    have hnil : ∀ r ∈ ([] : List RawRecord), r.2.length < 2 ^ 32 := by simp
    exact openFile_fileOf hnil d
  obtain ⟨n, k⟩ := p
  rw [hclose]
  rcases n with _ | _ | _ | _ | _ | _ | n
  · exact iff_of_true (hr.openDir_tmp s.tmp d') (by simp [CrashPoint.TearsHeader])
  · exact iff_of_true (hr.openDir_tmp (some ([] ++ bytes.take k)) d') (by simp [CrashPoint.TearsHeader])
  · exact iff_of_true (hr.openDir_tmp (some bytes) d') (by simp [CrashPoint.TearsHeader])
  · exact iff_of_true (hr.openDir_renamed hl hst henc' hold hr.ordered none d')
      (by simp [CrashPoint.TearsHeader])
  · by_cases hk : k = 0
    · subst hk
      exact iff_of_true (hr.openDir_renamed hl hst henc' openFile_nil (by simp) none d')
        (by simp [CrashPoint.TearsHeader])
    · have hw : (walMagic.take k).length < 12 := by
        simp [walMagic]
      have h0 : walMagic.take k ≠ [] := by simp [walMagic, hk]
      refine iff_of_false ?_ (by simp [CrashPoint.TearsHeader]; omega)
      rintro ⟨db', hopen, _⟩
      exact openDir_torn (w := walMagic.take k) rfl h0 hw d' db' hopen
  · by_cases hk : k < 4
    · have hw : (walMagic ++ (Writer.u32 formatVersion).take k).length < 12 := by
        simp [walMagic, Writer.u32]
        omega
      refine iff_of_false ?_ (by simp [CrashPoint.TearsHeader, hk])
      rintro ⟨db', hopen, _⟩
      exact openDir_torn (w := walMagic ++ (Writer.u32 formatVersion).take k) rfl (by simp [walMagic]) hw
        d' db' hopen
    · have hfull : (Writer.u32 formatVersion).take k = Writer.u32 formatVersion :=
        List.take_of_length_le (by simp [Writer.u32]; omega)
      have hdone := hr.openDir_renamed hl hst henc' hnew (by simp) none d'
      refine iff_of_true ?_ (by simp [CrashPoint.TearsHeader]; omega)
      have hdir : (Dir.mk s.snapshot s.tmp (some s.wal.file.content)).crashed
          (DiskOp.snapshotOps bytes) ⟨5, k⟩ =
          ⟨some bytes, none, some (walMagic ++ (Writer.u32 formatVersion).take k)⟩ := rfl
      rw [hdir, hfull]
      exact hdone
  · have hdone := hr.openDir_renamed hl hst henc' hnew (by simp) none d'
    refine iff_of_true ?_ (by simp [CrashPoint.TearsHeader])
    have hdir : (Dir.mk s.snapshot s.tmp (some s.wal.file.content)).crashed
        (DiskOp.snapshotOps bytes) ⟨n + 6, k⟩ = ⟨some bytes, none, some header⟩ := by
      have hget : (DiskOp.snapshotOps bytes)[n + 6]? = none := by simp [DiskOp.snapshotOps]
      have htake : (DiskOp.snapshotOps bytes).take (n + 6) = DiskOp.snapshotOps bytes := by
        simp [DiskOp.snapshotOps]
      simp only [Dir.crashed, hget, htake]
      rfl
    rw [hdir]
    exact hdone

theorem snapshot_crash_safe_renamed :
    ∃ db bytes, run id .fsync [.createTable "t" ⟨[⟨"x", .i64⟩]⟩, .insertRows "t" [[.i64 1]]] = some db ∧
      encodeSnapshot [intsWith [1]] db.frozenLsn = .ok bytes ∧
      ∃ db', Database.openDir id (db.close.crashed (DiskOp.snapshotOps bytes) ⟨3, 0⟩) .fsync = .ok db' ∧
        db'.tables = db.tables := by
  obtain ⟨db, hrun⟩ : ∃ db, run id .fsync [.createTable "t" ⟨[⟨"x", .i64⟩]⟩,
      .insertRows "t" [[.i64 1]]] = some db := Option.isSome_iff_exists.mp (by decide +kernel)
  have hlists : ∀ db ∈ run id .fsync [.createTable "t" ⟨[⟨"x", .i64⟩]⟩, .insertRows "t" [[.i64 1]]],
      db.tables.Lists [intsWith [1]] := by decide +kernel
  have hst : Database.StoresSafely [intsWith [1]] := by decide +kernel
  obtain ⟨bytes, henc⟩ : ∃ bytes, encodeSnapshot [intsWith [1]] db.frozenLsn = .ok bytes := ⟨_, rfl⟩
  exact ⟨db, bytes, hrun, henc, (snapshot_crash_safe id .fsync .fsync _ db _ bytes ⟨3, 0⟩
    (by decide +kernel) hrun (hlists db hrun) hst henc).mpr (by decide)⟩

/-- Three bytes of the header rewritten: the directory does not open any more. -/
theorem snapshot_crash_torn :
    ∃ db bytes, run id .fsync [.createTable "t" ⟨[⟨"x", .i64⟩]⟩, .insertRows "t" [[.i64 1]]] = some db ∧
      db.tables.Lists [intsWith [1]] ∧ encodeSnapshot [intsWith [1]] db.frozenLsn = .ok bytes ∧
      Database.openDir id (db.close.crashed (DiskOp.snapshotOps bytes) ⟨4, 3⟩) .fsync =
        bail "wal.log не похож на WAL veldb" := by
  obtain ⟨db, hrun⟩ : ∃ db, run id .fsync [.createTable "t" ⟨[⟨"x", .i64⟩]⟩,
      .insertRows "t" [[.i64 1]]] = some db := Option.isSome_iff_exists.mp (by decide +kernel)
  have hbad : ∀ db ∈ run id .fsync [.createTable "t" ⟨[⟨"x", .i64⟩]⟩, .insertRows "t" [[.i64 1]]],
      db.tables.Lists [intsWith [1]] ∧ ∀ bytes ∈ (encodeSnapshot [intsWith [1]] db.frozenLsn).toOption,
        Database.openDir id (db.close.crashed (DiskOp.snapshotOps bytes) ⟨4, 3⟩) .fsync =
          bail "wal.log не похож на WAL veldb" := by decide +kernel
  obtain ⟨bytes, henc⟩ : ∃ bytes, encodeSnapshot [intsWith [1]] db.frozenLsn = .ok bytes := ⟨_, rfl⟩
  obtain ⟨hl, hopen⟩ := hbad db hrun
  exact ⟨db, bytes, hrun, hl, henc, hopen bytes (by rw [henc]; rfl)⟩

end Veldb
