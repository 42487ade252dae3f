import Veldb.Library.WriteBehind
import Veldb.Durability

/-! Clients that write at the same time. A call changes memory in one step and
reaches the log in a later one; between the two other clients and snapshots run. -/

namespace Veldb

open Wal WriteBehind

variable {lower : String → String}

inductive Call where
  | createTable (name : String) (schema : Schema)
  | dropTable (name : String)
  | insertRows (name : String) (rows : List (List Value))

namespace Database

/-- The first half of a call: the change in memory, and the record it has yet to log. -/
def enter (lower : String → String) (db : Database) : Call → Exec (Option WalRecord) × Database
  | .createTable name schema =>
    match db.denyIfReadOnly "CREATE TABLE" with
    | .error e => (.error e, db)
    | .ok () =>
      match Table.new name schema with
      | .error e => (.error e, db)
      | .ok t =>
        if (db.tables.lookup (lower name)).isSome then (bail s!"таблица '{name}' уже существует", db)
        else (.ok (some (.createTable name schema)),
          { db with tables := db.tables.insert (lower name) t })
  | .dropTable name =>
    match db.denyIfReadOnly "DROP TABLE" with
    | .error e => (.error e, db)
    | .ok () =>
      match db.tables.dropTableInner lower name with
      | (false, _) => (.ok none, db)
      | (true, m) => (.ok (some (.dropTable name)), { db with tables := m })
  | .insertRows name rows =>
    match db.denyIfReadOnly "INSERT" with
    | .error e => (.error e, db)
    | .ok () =>
      match db.checkMemory with
      | .error e => (.error e, db)
      | .ok () =>
        match db.tables.insertInner lower name rows with
        | (.error e, m) => (.error e, { db with tables := m })
        | (.ok _, m) => (.ok (some (.insert name rows)), { db with tables := m })

def finish (lower : String → String) (io : AppendIo) (db : Database) :
    Option WalRecord → Exec Unit × Database
  | none => (.ok (), db)
  | some r => db.log lower io r

def call (lower : String → String) (io : AppendIo) (db : Database) : Call → Exec Unit × Database
  | .createTable name schema => db.createTable lower io name schema
  | .dropTable name =>
    (Except.map (fun _ => ()) (db.dropTable lower io name).1, (db.dropTable lower io name).2)
  | .insertRows name rows =>
    (Except.map (fun _ => ()) (db.insertRows lower io name rows).1, (db.insertRows lower io name rows).2)

theorem call_eq (io : AppendIo) (db : Database) (c : Call) :
    db.call lower io c = match db.enter lower c with
      | (.error e, db') => (.error e, db')
      | (.ok r, db') => db'.finish lower io r := by
  cases c with
  | createTable name schema =>
    simp only [call, createTable, enter]
    cases db.denyIfReadOnly "CREATE TABLE" with
    | error e => rfl
    | ok u =>
      cases Table.new name schema with
      | error e => rfl
      | ok t =>
        simp only
        split
        · rfl
        · rfl
  | dropTable name =>
    simp only [call, dropTable, enter]
    cases db.denyIfReadOnly "DROP TABLE" with
    | error e => rfl
    | ok u =>
      rcases db.tables.dropTableInner lower name with ⟨_ | _, m⟩
      · rfl
      · simp only [finish]
        rcases log lower io { db with tables := m } (.dropTable name) with ⟨e | u, db'⟩ <;> rfl
  | insertRows name rows =>
    simp only [call, insertRows, enter]
    cases db.denyIfReadOnly "INSERT" with
    | error e => rfl
    | ok u =>
      cases db.checkMemory with
      | error e => rfl
      | ok u =>
        rcases db.tables.insertInner lower name rows with ⟨e | n, m⟩
        · rfl
        · simp only [finish]
          rcases log lower io { db with tables := m } (.insert name rows) with ⟨e | u, db'⟩ <;> rfl

theorem enter_ok {db db' : Database} {c : Call} {r : Option WalRecord}
    (h : db.enter lower c = (.ok r, db')) :
    (r = none ∧ db' = db) ∨ ∃ rec m, r = some rec ∧ db.tables.apply lower rec = (.ok (), m) ∧
      db' = { db with tables := m } := by
  cases c with
  | createTable name schema =>
    unfold enter at h
    dsimp only at h
    split at h
    · cases h
    · cases hn : Table.new name schema with
      | error e => simp [hn] at h
      | ok t =>
        simp only [hn] at h
        split at h
        · cases h
        · obtain ⟨hr, rfl⟩ := Prod.mk.inj h
          exact .inr ⟨_, _, (Except.ok.inj hr).symm, apply_created hn, rfl⟩
  | dropTable name =>
    unfold enter at h
    dsimp only at h
    split at h
    · cases h
    · split at h
      · obtain ⟨hr, rfl⟩ := Prod.mk.inj h
        exact .inl ⟨(Except.ok.inj hr).symm, rfl⟩
      · next m hd =>
        obtain ⟨hr, rfl⟩ := Prod.mk.inj h
        refine .inr ⟨_, _, (Except.ok.inj hr).symm, ?_, rfl⟩
        simp [Catalog.apply, hd]
  | insertRows name rows =>
    unfold enter at h
    dsimp only at h
    split at h
    · cases h
    · split at h
      · cases h
      · split at h
        · cases h
        · next n m hi =>
          obtain ⟨hr, rfl⟩ := Prod.mk.inj h
          refine .inr ⟨_, _, (Except.ok.inj hr).symm, ?_, rfl⟩
          simp [Catalog.apply, hi]

end Database

/-- The database and the calls whose record is not logged yet, in the order they
changed memory. -/
structure Session where
  db : Database
  pending : List (Nat × WalRecord)

inductive SessionOp where
  | enter (client : Nat) (call : Call)
  | log (client : Nat)
  | snapshot (tables : List Table)

/-- One atomic step; `none` when it is not enabled or does not return `Ok`. -/
def SessionOp.exec (lower : String → String) (s : Session) : SessionOp → Option Session
  | enter client call =>
    if s.pending.any (fun e => e.1 == client) then none
    else match s.db.enter lower call with
      | (.ok none, db') => some ⟨db', s.pending⟩
      | (.ok (some r), db') => some ⟨db', s.pending ++ [(client, r)]⟩
      | (.error _, _) => none
  | log client =>
    match s.pending.find? (fun e => e.1 == client) with
    | none => none
    | some e =>
      match s.db.log lower .done e.2 with
      | (.ok (), db') => some ⟨db', s.pending.eraseP (fun e => e.1 == client)⟩
      | (.error _, _) => none
  | snapshot tables =>
    if s.db.tables.Lists tables then
      match s.db.snapshot tables with
      | (.ok _, db') => some ⟨db', s.pending⟩
      | (.error _, _) => none
    else none

def WalRecord.isInsert : WalRecord → Bool
  | insert _ _ => true
  | _ => false

/-- What a step has to meet: an insert keeps its rows and its frame; a record is
logged after the earlier ones of its table and above the snapshot's number; no
insert is half done at a snapshot. -/
def SessionOp.Safe (lower : String → String) (s : Session) : SessionOp → Prop
  | enter _ call => ∀ o ∈ (s.db.enter lower call).1.toOption, ∀ r ∈ o,
      r.payload.length < 2 ^ 32 ∧ r.Keeps lower s.db.tables
  | log client => s.db.snapshotLsn < s.db.nextLsn ∧
      ∀ e ∈ s.pending.find? (fun e => e.1 == client),
        ∀ x ∈ s.pending.takeWhile (fun e => !(e.1 == client)), lower x.2.table ≠ lower e.2.table
  | snapshot tables => (∀ x ∈ s.pending, x.2.isInsert = false) ∧ Database.StoresSafely tables

instance SessionOp.decidableSafe (s : Session) : (op : SessionOp) → Decidable (op.Safe lower s)
  | enter _ call => inferInstanceAs (Decidable (∀ o ∈ (s.db.enter lower call).1.toOption, ∀ r ∈ o,
      r.payload.length < 2 ^ 32 ∧ r.Keeps lower s.db.tables))
  | log client => inferInstanceAs (Decidable (s.db.snapshotLsn < s.db.nextLsn ∧
      ∀ e ∈ s.pending.find? (fun e => e.1 == client),
        ∀ x ∈ s.pending.takeWhile (fun e => !(e.1 == client)), lower x.2.table ≠ lower e.2.table))
  | snapshot tables => inferInstanceAs (Decidable
      ((∀ x ∈ s.pending, x.2.isInsert = false) ∧ Database.StoresSafely tables))

def sessionRun (lower : String → String) (s : Session) (ops : List SessionOp) : Option Session :=
  ops.foldlM (SessionOp.exec lower) s

def SessionSafe (lower : String → String) : Session → List SessionOp → Prop
  | _, [] => True
  | s, op :: ops => op.Safe lower s ∧ ∀ s' ∈ op.exec lower s, SessionSafe lower s' ops

instance decidableSessionSafe :
    (s : Session) → (ops : List SessionOp) → Decidable (SessionSafe lower s ops)
  | _, [] => isTrue trivial
  | s, op :: ops =>
    have := fun s' => decidableSessionSafe s' ops
    inferInstanceAs (Decidable
      (op.Safe lower s ∧ ∀ s' ∈ op.exec lower s, SessionSafe lower s' ops))

namespace WalRecord

/-- `Keeps` on the table slot the record goes into. -/
def KeepsIn (s : Option Table) : WalRecord → Prop
  | insert _ rows => ∀ t ∈ s, ∀ r ∈ rows, t.schema.Keeps r
  | _ => True

instance decidableKeepsIn (s : Option Table) : (r : WalRecord) → Decidable (r.KeepsIn s)
  | insert _ rows => inferInstanceAs (Decidable (∀ t ∈ s, ∀ r ∈ rows, t.schema.Keeps r))
  | createTable _ _ => inferInstanceAs (Decidable True)
  | dropTable _ => inferInstanceAs (Decidable True)

theorem keeps_iff {m : Catalog} {r : WalRecord} :
    r.Keeps lower m ↔ r.KeepsIn (m.lookup (lower r.table)) := by
  cases r <;> exact Iff.rfl

def slotStep (e : Nat × WalRecord) (s : Option Table) : Exec (Option Table) :=
  if e.2.KeepsIn s then Catalog.slotApply s e.2 else bail ""

theorem slotStep_ok {e : Nat × WalRecord} {s s' : Option Table} :
    slotStep e s = .ok s' ↔ e.2.KeepsIn s ∧ Catalog.slotApply s e.2 = .ok s' := by
  unfold slotStep
  split
  · next h => simp [h]
  · next h => simp [h]

theorem slotStep_constant {e : Nat × WalRecord} (h : e.2.isInsert = false) (s s' : Option Table) :
    slotStep e s = slotStep e s' := by
  obtain ⟨c, r⟩ := e
  cases r with
  | insert name rows => cases h
  | _ => rfl

end WalRecord

def slotOf (lower : String → String) (e : Nat × WalRecord) : String :=
  lower e.2.table

theorem lookup_setSlot_eq (m : Catalog) (k : String) (s : Option Table) :
    (fun k' => (m.setSlot k s).lookup k') = Function.update (fun k' => m.lookup k') k s := by
  funext k'
  rw [Catalog.lookup_setSlot, Function.update_apply]

/-- The directory recovers to `σ`, and what is pending leads from `σ` to memory. -/
structure Session.Inv (lower : String → String) (s : Session) (σ : Catalog) : Prop where
  recovers : Recoverable lower { s.db with tables := σ }
  sound : s.db.tables.Sound lower
  payloads : ∀ e ∈ s.pending, e.2.payload.length < 2 ^ 32
  drains : Drains (slotOf lower) WalRecord.slotStep (fun k => σ.lookup k)
    (fun k => s.db.tables.lookup k) s.pending

theorem Session.Inv.enter {s s' : Session} {σ : Catalog} {client : Nat} {call : Call}
    (h : s.Inv lower σ) (hs : (SessionOp.enter client call).Safe lower s)
    (he : (SessionOp.enter client call).exec lower s = some s') : s'.Inv lower σ := by
  simp only [SessionOp.exec] at he
  split at he
  · cases he
  · split at he
    · next db' hent =>
      obtain rfl := Option.some.inj he
      rcases Database.enter_ok hent with ⟨_, rfl⟩ | ⟨_, _, hr, _⟩
      · exact h
      · cases hr
    · next r db' hent =>
      obtain rfl := Option.some.inj he
      rcases Database.enter_ok hent with ⟨hr, _⟩ | ⟨rec, m, hr, ha, rfl⟩
      · cases hr
      · obtain rfl := Option.some.inj hr
        obtain ⟨hlen, hkeep⟩ := hs _ (by rw [hent]; rfl) r rfl
        obtain ⟨slot, hslot, rfl⟩ := Catalog.apply_ok_iff.mp ha
        refine ⟨h.recovers, h.sound.apply (WalRecord.fits_of_payload hlen) ha, ?_, ?_⟩
        · exact List.forall_mem_append.mpr ⟨h.payloads, List.forall_mem_singleton.mpr hlen⟩
        · have hstep : WalRecord.slotStep (client, r) (s.db.tables.lookup (lower r.table)) = .ok slot :=
            WalRecord.slotStep_ok.mpr ⟨WalRecord.keeps_iff.mp hkeep, hslot⟩
          have hpush := h.drains.push hstep
          rw [← lookup_setSlot_eq] at hpush
          exact hpush
    · cases he

theorem Session.Inv.log {s s' : Session} {σ : Catalog} {client : Nat} (h : s.Inv lower σ)
    (hs : (SessionOp.log client).Safe lower s)
    (he : (SessionOp.log client).exec lower s = some s') : ∃ σ', s'.Inv lower σ' := by
  obtain ⟨hnum, hfirst⟩ := hs
  simp only [SessionOp.exec] at he
  cases hf : s.pending.find? (fun e => e.1 == client) with
  | none => simp [hf] at he
  | some e =>
    simp only [hf] at he
    obtain ⟨hclient, P, Q, hsplit, hP⟩ := List.find?_eq_some_iff_append.mp hf
    have hbefore : s.pending.takeWhile (fun e => !(e.1 == client)) = P := by
      rw [hsplit, List.takeWhile_append_of_pos (by simpa using hP),
        List.takeWhile_cons_of_neg (by simpa using hclient), List.append_nil]
    have herase : (e :: Q).eraseP (fun e => e.1 == client) = Q := List.eraseP_cons_of_pos hclient
    have hafter : s.pending.eraseP (fun e => e.1 == client) = P ++ Q := by
      rw [hsplit, List.eraseP_append_right _ (by simpa using hP), herase]
    have hfirst' : ∀ x ∈ P, slotOf lower x ≠ slotOf lower e := by
      intro x hx
      exact hfirst e hf x (by rwa [hbefore])
    have hdrains := h.drains
    rw [hsplit] at hdrains
    obtain ⟨slot, hslot, hrest⟩ := hdrains.pop hfirst'
    obtain ⟨hkeep, happ⟩ := WalRecord.slotStep_ok.mp hslot
    have hσ : σ.apply lower e.2 = (.ok (), σ.setSlot (lower e.2.table) slot) :=
      Catalog.apply_ok_iff.mpr ⟨slot, happ, rfl⟩
    have hlen : e.2.payload.length < 2 ^ 32 := h.payloads e (List.mem_of_find?_eq_some hf)
    obtain ⟨st, base, mark, rs, hrec⟩ := h.recovers
    split at he
    · next db' hlog =>
      obtain rfl := Option.some.inj he
      have hst : s.db.store = some st := hrec.stored
      have hmark : mark < st.wal.nextLsn := by
        have hsnap : s.db.snapshotLsn = mark := hrec.snapshotLsn
        simp only [Database.nextLsn, hst, hsnap] at hnum
        exact hnum
      have hdb := Database.log_done hst hlog
      have hrec' := hrec.write hσ hmark hlen (WalRecord.keeps_iff.mpr hkeep)
      refine ⟨σ.setSlot (lower e.2.table) slot, ?_, ?_, ?_, ?_⟩
      · rw [hdb]
        exact ⟨_, _, _, _, hrec'⟩
      · rw [hdb]
        exact h.sound
      · intro x hx
        exact h.payloads x (List.mem_of_mem_eraseP hx)
      · rw [← lookup_setSlot_eq] at hrest
        simp only [hafter, hdb]
        exact hrest
    · cases he

theorem Session.Inv.snapshot {s s' : Session} {σ : Catalog} {tables : List Table}
    (h : s.Inv lower σ) (hs : (SessionOp.snapshot tables).Safe lower s)
    (he : (SessionOp.snapshot tables).exec lower s = some s') : s'.Inv lower s.db.tables := by
  obtain ⟨hins, hst, hn⟩ := hs
  obtain ⟨st, base, mark, rs, hrec⟩ := h.recovers
  simp only [SessionOp.exec] at he
  split at he
  · next hl =>
    split at he
    · next lsn db' hsnap =>
      obtain rfl := Option.some.inj he
      have hstore : s.db.store = some st := hrec.stored
      obtain ⟨bytes, _, hdb, hrec'⟩ := recovers_snapshot hstore h.sound hl hst hn hsnap
      have htables : db'.tables = s.db.tables := by rw [hdb]
      refine ⟨?_, htables ▸ h.sound, h.payloads, ?_⟩
      · rw [← htables]
        exact ⟨_, _, _, _, hrec'⟩
      · have hsync := h.drains.sync (fun e he => WalRecord.slotStep_constant (hins e he))
        rw [htables]
        exact hsync
    · cases he
  · cases he

theorem Session.Inv.exec {s s' : Session} {σ : Catalog} {op : SessionOp} (h : s.Inv lower σ)
    (hs : op.Safe lower s) (he : op.exec lower s = some s') : ∃ σ', s'.Inv lower σ' := by
  cases op with
  | enter client call => exact ⟨σ, h.enter hs he⟩
  | log client => exact h.log hs he
  | snapshot tables => exact ⟨_, h.snapshot hs he⟩

theorem Session.Inv.run {s s' : Session} {σ : Catalog} {ops : List SessionOp} (h : s.Inv lower σ)
    (hs : SessionSafe lower s ops) (hrun : sessionRun lower s ops = some s') :
    ∃ σ', s'.Inv lower σ' := by
  induction ops generalizing s σ with
  | nil =>
    obtain rfl := Option.some.inj hrun
    exact ⟨σ, h⟩
  | cons op ops ih =>
    obtain ⟨hop, hops⟩ := hs
    rw [sessionRun, List.foldlM_cons] at hrun
    cases he : op.exec lower s with
    | none => simp [he] at hrun
    | some s₁ =>
      rw [he] at hrun
      obtain ⟨σ₁, h₁⟩ := h.exec hop he
      exact ih h₁ (hops s₁ he) hrun

theorem Session.inv_of_recoverable {db : Database} (h : Recoverable lower db) :
    Session.Inv lower ⟨db, []⟩ db.tables := by
  obtain ⟨s, base, mark, rs, hrec⟩ := h
  exact ⟨⟨s, base, mark, rs, hrec⟩, hrec.sound, by simp, drains_refl⟩

/-- Any number of clients in any interleaving whose steps are safe: once every
call has returned, the directory opens to the tables in memory. -/
theorem concurrent_durable (lower : String → String) (d d' : Durability) (before : List Op)
    (db : Database) (ops : List SessionOp) (s : Session) (hbefore : SafeRun lower d before)
    (hdb : run lower d before = some db) (hs : SessionSafe lower ⟨db, []⟩ ops)
    (hrun : sessionRun lower ⟨db, []⟩ ops = some s) (hdone : s.pending = []) :
    ∃ db', Database.openDir lower s.db.close d' = .ok db' ∧ db'.tables = s.db.tables := by
  obtain ⟨σ, h⟩ := (Session.inv_of_recoverable (run_recoverable hbefore hdb)).run hs hrun
  have hdrains := h.drains
  rw [hdone] at hdrains
  have hσ : σ = s.db.tables := Finmap.ext_lookup (fun k => congrFun hdrains.eq k)
  obtain ⟨st, base, mark, rs, hrec⟩ := h.recovers
  rw [hσ] at hrec
  exact ⟨_, hrec.openDir d', rfl⟩

def orderlyClients : List SessionOp :=
  [.enter 0 (.createTable "t" ⟨[⟨"x", .i64⟩]⟩), .snapshot [intsWith []], .log 0,
    .enter 0 (.insertRows "t" [[.i64 1]]), .enter 1 (.insertRows "t" [[.i64 2]]), .log 0, .log 1]

theorem concurrent_durable_orderly :
    ∃ db s, run id .fsync [] = some db ∧ sessionRun id ⟨db, []⟩ orderlyClients = some s ∧
      ∃ db', Database.openDir id s.db.close .fsync = .ok db' ∧ db'.tables = s.db.tables := by
  obtain ⟨db, hdb⟩ : ∃ db, run id .fsync [] = some db :=
    Option.isSome_iff_exists.mp (by decide +kernel)
  have hall : ∀ db ∈ run id .fsync [], SessionSafe id ⟨db, []⟩ orderlyClients ∧
      (sessionRun id ⟨db, []⟩ orderlyClients).isSome ∧
      ∀ s ∈ sessionRun id ⟨db, []⟩ orderlyClients, s.pending = [] := by decide +kernel
  obtain ⟨hs, hsome, hdone⟩ := hall db hdb
  obtain ⟨s, hrun⟩ := Option.isSome_iff_exists.mp hsome
  exact ⟨db, s, hdb, hrun, concurrent_durable id .fsync .fsync [] db orderlyClients s
    (by decide +kernel) hdb hs hrun (hdone s hrun)⟩

/-- The snapshot falls between the two halves of an insert. -/
def halfLoggedInsert : List SessionOp :=
  [.enter 0 (.createTable "t" ⟨[⟨"x", .i64⟩]⟩), .log 0, .enter 0 (.insertRows "t" [[.i64 1]]),
    .snapshot [intsWith [1]], .log 0]

theorem concurrent_doubles_row :
    ∃ db s db', run id .fsync [] = some db ∧ sessionRun id ⟨db, []⟩ halfLoggedInsert = some s ∧
      s.pending = [] ∧ s.db.tables.lookup "t" = some (intsWith [1]) ∧
      Database.openDir id s.db.close .fsync = .ok db' ∧
      db'.tables.lookup "t" = some (intsWith [1, 1]) := by
  obtain ⟨db, hdb⟩ : ∃ db, run id .fsync [] = some db :=
    Option.isSome_iff_exists.mp (by decide +kernel)
  have hall : ∀ db ∈ run id .fsync [], (sessionRun id ⟨db, []⟩ halfLoggedInsert).isSome ∧
      ∀ s ∈ sessionRun id ⟨db, []⟩ halfLoggedInsert, s.pending = [] ∧
        s.db.tables.lookup "t" = some (intsWith [1]) ∧
        (Database.openDir id s.db.close .fsync).toOption.isSome ∧
        ∀ db' ∈ (Database.openDir id s.db.close .fsync).toOption,
          db'.tables.lookup "t" = some (intsWith [1, 1]) := by decide +kernel
  obtain ⟨hsome, hend⟩ := hall db hdb
  obtain ⟨s, hrun⟩ := Option.isSome_iff_exists.mp hsome
  obtain ⟨hdone, hmem, hopens, hrows⟩ := hend s hrun
  cases ho : Database.openDir id s.db.close .fsync with
  | error e =>
    rw [ho] at hopens
    cases hopens
  | ok db' => exact ⟨db, s, db', hdb, hrun, hdone, hmem, ho, hrows db' (by rw [ho]; rfl)⟩

end Veldb
