import Veldb.Library.Journal
import Veldb.LogRecords
import Veldb.SnapshotRoundTrip
import Veldb.WalRecovery

/-! The data directory as a journal: the snapshot is the base, the log holds the
records the base does not cover, and replaying it gives the tables in memory. -/

namespace Veldb

open Wal

variable {lower : String → String}

namespace Catalog

theorem replay_eq_journal (lower : String → String) (mark : UInt64) (m : Catalog)
    (rs : List RawRecord) :
    replay lower mark m rs =
      Journal.replay (· ≤ mark) (fun lsn m payload => m.applyPayload lower lsn payload) m rs := by
  induction rs generalizing m with
  | nil => rfl
  | cons r rs ih =>
    obtain ⟨lsn, payload⟩ := r
    rw [replay, Journal.replay]
    by_cases hl : lsn ≤ mark
    · rw [if_pos hl, if_pos hl, ih]
    · rw [if_neg hl, if_neg hl]
      cases m.applyPayload lower lsn payload with
      | error e => rfl
      | ok m' => exact ih m'

end Catalog

def Store.base (lower : String → String) (s : Store) : Exec (Catalog × UInt64) :=
  match s.snapshot with
  | none => .ok (∅, 0)
  | some bytes =>
    match decodeSnapshot bytes with
    | .ok (tables, lsn) => .ok (Catalog.ofTables lower tables, lsn)
    | .error e => .error e

/-- The directory of `db` recovers to what `db` has in memory: `base` is the
snapshot, `mark` its number and `rs` the log. -/
structure Recovers (lower : String → String) (db : Database) (s : Store) (base : Catalog)
    (mark : UInt64) (rs : List RawRecord) : Prop where
  stored : db.store = some s
  sound : db.tables.Sound lower
  based : s.base lower = .ok (base, mark)
  logged : s.wal.file = fileOf rs
  payloads : ∀ r ∈ rs, r.2.length < 2 ^ 32
  replayed : Catalog.replay lower mark base rs = .ok db.tables
  ordered : ∀ r ∈ rs, r.1 ≤ s.wal.nextLsn - 1
  next : rs = [] ∨ s.wal.nextLsn = lsnAfter rs

def Recoverable (lower : String → String) (db : Database) : Prop :=
  ∃ s base mark rs, Recovers lower db s base mark rs

theorem openDir_eq {dir : Dir} {s : Store} {base m : Catalog} {mark : UInt64} {rs : List RawRecord}
    (hs : s.snapshot = dir.snapshot) (hb : s.base lower = .ok (base, mark))
    (hw : ∀ d, openFile (dir.wal.getD []) d = .ok (⟨fileOf rs, lsnAfter rs, d⟩, rs))
    (hr : Catalog.replay lower mark base rs = .ok m) (d : Durability) :
    Database.openDir lower dir d =
      .ok ⟨m, some ⟨dir.snapshot, dir.tmp, ⟨fileOf rs, lsnAfter rs, d⟩⟩, false, 0⟩ := by
  unfold Store.base at hb
  rw [hs] at hb
  cases hsnap : dir.snapshot with
  | none =>
    rw [hsnap] at hb
    obtain ⟨rfl, rfl⟩ := Prod.mk.inj (Except.ok.inj hb)
    simp only [Database.openDir, hsnap, hw d, bind, Except.bind, Catalog.ofTables, List.foldl_nil, hr]
    rfl
  | some bytes =>
    simp only [hsnap] at hb
    split at hb
    · next tables lsn hdec =>
      obtain ⟨rfl, rfl⟩ := Prod.mk.inj (Except.ok.inj hb)
      simp only [Database.openDir, hsnap, hdec, withContext_ok, hw d, bind, Except.bind, hr]
      rfl
    · cases hb

theorem Recovers.openDir {db : Database} {s : Store} {base : Catalog} {mark : UInt64}
    {rs : List RawRecord} (h : Recovers lower db s base mark rs) (d : Durability) :
    Database.openDir lower db.close d =
      .ok ⟨db.tables, some ⟨s.snapshot, s.tmp, ⟨fileOf rs, lsnAfter rs, d⟩⟩, false, 0⟩ := by
  have hclose : db.close = ⟨s.snapshot, s.tmp, some s.wal.file.content⟩ := by
    simp only [Database.close, h.stored]
  rw [hclose]
  refine openDir_eq rfl h.based (fun d => ?_) h.replayed d
  rw [Option.getD_some, h.logged]
  exact openFile_fileOf h.payloads d

theorem recovers_fresh (lower : String → String) (d : Durability) :
    ∃ db, Database.openDir lower Dir.fresh d = .ok db ∧ db.tables = ∅ ∧
      Recovers lower db ⟨none, none, ⟨fileOf [], 1, d⟩⟩ ∅ 0 [] := by
  have hwal : ∀ d, openFile (Dir.fresh.wal.getD []) d = .ok (⟨fileOf [], lsnAfter [], d⟩, []) :=
    openFile_nil
  have hbase : Store.base lower ⟨none, none, ⟨fileOf [], 1, d⟩⟩ = .ok (∅, 0) := rfl
  have hopen : Database.openDir lower Dir.fresh d =
      .ok ⟨∅, some ⟨none, none, ⟨fileOf [], 1, d⟩⟩, false, 0⟩ := openDir_eq rfl hbase hwal rfl d
  exact ⟨_, hopen, rfl, rfl, Catalog.sound_empty, rfl, rfl, by simp, rfl, by simp, .inl rfl⟩

theorem Recovers.restart {db db' : Database} {s : Store} {base : Catalog} {mark : UInt64}
    {rs : List RawRecord} (h : Recovers lower db s base mark rs) {d : Durability}
    (ho : Database.openDir lower db.close d = .ok db') :
    db'.tables = db.tables ∧
      Recovers lower db' ⟨s.snapshot, s.tmp, ⟨fileOf rs, lsnAfter rs, d⟩⟩ base mark rs := by
  rw [h.openDir d] at ho
  obtain rfl := Except.ok.inj ho
  refine ⟨rfl, rfl, h.sound, h.based, rfl, h.payloads, h.replayed, ?_, .inr rfl⟩
  intro r hr
  rcases h.next with hnil | hnext
  · rw [hnil] at hr
    cases hr
  · rw [← hnext]
    exact h.ordered r hr

theorem lsnAfter_append (rs : List RawRecord) (r : RawRecord) : lsnAfter (rs ++ [r]) = r.1 + 1 := by
  simp [lsnAfter]

theorem le_add_one_sub {a mark n : UInt64} (hn : mark < n) (ha : a ≤ n - 1) : a ≤ n + 1 - 1 := by
  have h0 : mark.toNat < n.toNat := UInt64.lt_iff_toNat_lt.mp hn
  have h1 : (1 : UInt64) ≤ n := by
    rw [UInt64.le_iff_toNat_le, UInt64.toNat_one]
    omega
  have hle := UInt64.le_iff_toNat_le.mp ha
  rw [UInt64.toNat_sub_of_le _ _ h1] at hle
  rw [UInt64.add_sub_cancel, UInt64.le_iff_toNat_le]
  omega

theorem Recovers.write {db : Database} {s : Store} {base : Catalog} {mark : UInt64}
    {rs : List RawRecord} (h : Recovers lower db s base mark rs) {r : WalRecord} {m : Catalog}
    (ha : db.tables.apply lower r = (.ok (), m)) (hl : mark < s.wal.nextLsn)
    (hlen : r.payload.length < 2 ^ 32) (hk : r.Keeps lower db.tables) :
    Recovers lower { db with tables := m, store := some { s with wal := (s.wal.append .done r.payload).2 } }
      { s with wal := (s.wal.append .done r.payload).2 } base mark
      (rs ++ [(s.wal.nextLsn, r.payload)]) := by
  have happ := append_fileOf h.logged r.payload
  rw [happ]
  refine ⟨rfl, h.sound.apply (WalRecord.fits_of_payload hlen) ha, h.based, rfl, ?_, ?_, ?_, ?_⟩
  · exact List.forall_mem_append.mpr ⟨h.payloads, List.forall_mem_singleton.mpr hlen⟩
  · have hrep := h.replayed
    have hpay := Catalog.applyPayload_payload h.sound hlen hk ha s.wal.nextLsn
    rw [Catalog.replay_eq_journal] at hrep ⊢
    exact Journal.replay_record _ _ hrep (by simpa using hl) hpay
  · intro x hx
    rcases List.mem_append.mp hx with hx | hx
    · exact le_add_one_sub hl (h.ordered x hx)
    · rw [List.mem_singleton.mp hx]
      simp
  · refine .inr ?_
    rw [lsnAfter_append]

theorem recovers_snapshot {db db' : Database} {s : Store} (hs : db.store = some s)
    (hsound : db.tables.Sound lower) {tables : List Table} {lsn : UInt64}
    (hl : db.tables.Lists tables) (hst : ∀ t ∈ tables, t.Storable)
    (hn : tables.length * tableSize ≤ isizeMax) (h : db.snapshot tables = (.ok lsn, db')) :
    ∃ bytes, encodeSnapshot tables (s.wal.nextLsn - 1) = .ok bytes ∧
      db' = { db with store := some ⟨some bytes, none, s.wal.reset⟩ } ∧
      Recovers lower db' ⟨some bytes, none, s.wal.reset⟩ db.tables (s.wal.nextLsn - 1) [] := by
  have hinv : ∀ t ∈ tables, t.Inv := by
    intro t ht
    obtain ⟨k, hk⟩ := (Catalog.lists_mem hl t).mp ht
    exact (hsound.shaped k t hk).inv (hst t ht)
  obtain ⟨bytes, henc, hdec⟩ := decodeSnapshot_encodeSnapshot (s.wal.nextLsn - 1) hinv hn
  simp only [Database.snapshot, hs, henc, Prod.mk.injEq, Except.ok.injEq] at h
  obtain ⟨-, rfl⟩ := h
  refine ⟨bytes, henc, rfl, rfl, hsound, ?_, ?_, by simp, rfl, by simp, .inl rfl⟩
  · simp only [Store.base, hdec, Catalog.ofTables_eq hsound.keyed hl]
  · rw [reset_file]

end Veldb
