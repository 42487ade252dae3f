import Veldb.Restarts

/-! A server that dies inside a statement. Its directory gives back what it gave back before, or what
it gives back after the statement, and nothing between. -/

namespace Veldb

open Attempts Comparisons Simulation

variable {lower : String → String}

namespace Database

/-- The call with all of its calls to the tables and the log. -/
theorem run_call (rt : Runtime) (io : AppendIo) (db : Database) (plan : Statement) :
    (db.run rt io plan).2 =
      (plan.call rt.toLowercase db).elim db (fun c => (db.call rt.toLowercase io c).2) := by
  cases plan with
  | createTable name schema ifNotExists =>
    simp only [run, runCreateTable, Statement.call]
    by_cases hp : ifNotExists = true ∧ (db.tables.table rt.toLowercase name).isSome = true
    · rw [if_pos hp, if_pos hp]
      rfl
    · rw [if_neg hp, if_neg hp]
      simp only [Option.elim_some, call]
      rcases db.createTable rt.toLowercase io name schema with ⟨e | u, db'⟩ <;> rfl
  | dropTable name ifExists =>
    simp only [run, runDropTable, Statement.call, Option.elim_some, call]
    rcases db.dropTable rt.toLowercase io name with ⟨e | dropped, db'⟩
    · rfl
    · dsimp only
      split <;> rfl
  | insert table columns rows =>
    simp only [run, runInsert, Statement.call]
    cases columns.elim (.ok rows) (fun names => reorder rt.toLowercase table names rows db) with
    | error e => rfl
    | ok rows' =>
      simp only [Except.toOption, Option.map_some, Option.elim_some, call]
      rcases db.insertRows rt.toLowercase io table rows' with ⟨e | n, db'⟩ <;> rfl
  | _ => rfl

end Database

/-- A record that was cut off is not in the log, and one that is whole is as good as answered for. -/
theorem call_torn {db : Database} {m : Catalog} {c : Call} (h : db.Tracks lower m) (written : Nat)
    (hlog : ∀ r ∈ db.toLog lower c, db.LogsSafely lower r) :
    (db.call lower (.writeFails written) c).2.close = (db.call lower .done c).2.close ∨
      ∀ d, Database.openDir lower (db.call lower (.writeFails written) c).2.close d =
        Database.openDir lower db.close d := by
  rw [Database.call_eq, Database.call_eq]
  rcases he : db.enter lower c with ⟨e | _ | r, db'⟩
  · exact .inl rfl
  · exact .inl rfl
  have hsafe := hlog r (Database.toLog_eq_some.mpr (congrArg Prod.fst he))
  obtain ⟨s, base, mark, rs, hrec⟩ := h.recovers
  have hstored : db'.store = some s := by
    rcases Database.enter_ok he with ⟨hnone, -⟩ | ⟨r', m', -, -, rfl⟩
    · cases hnone
    · exact hrec.stored
  simp only [Database.finish, Database.log, hstored]
  cases henc : r.encode (db'.tables.schemaOf lower) with
  | error e => exact .inl rfl
  | ok payload =>
    obtain rfl := WalRecord.encode_payload henc
    have hend : s.wal.file.pos = s.wal.file.content.length := by
      rw [hrec.logged]
      rfl
    by_cases hw : (Wal.frame s.wal.nextLsn r.payload).length ≤ written
    · refine .inl ?_
      simp only [Wal.append, bail, List.take_of_length_le hw, Database.close]
    · refine .inr fun d => ?_
      have htorn : Wal.frameAt ((Wal.frame s.wal.nextLsn r.payload).take written) = none :=
        Wal.frameAt_torn hsafe.length (by omega)
      have hopen : ∀ d,
          Wal.openFile (s.wal.file.content ++ (Wal.frame s.wal.nextLsn r.payload).take written) d =
            .ok (⟨Wal.fileOf rs, Wal.lsnAfter rs, d⟩, rs) := by
        intro d
        rw [hrec.logged]
        exact (congrArg (Wal.openFile · d) (List.append_assoc _ _ _)).trans
          (Wal.openFile_stream hrec.payloads _ htorn d)
      have hwhole := hrec.openDir d
      have hclose : Database.close { db with tables := m } = db.close := rfl
      rw [hclose] at hwhole
      rw [hwhole]
      simp only [Wal.append, bail, Database.close, File.writeAll_end hend]
      refine openDir_eq rfl hrec.based (fun d => ?_) hrec.replayed d
      exact hopen d

/-- What can happen to a server: besides events, it may die inside a statement, with the frame of its
record written up to some byte, and be started again. -/
inductive Happening where
  | event (e : Event)
  | crash (stmt : Sa.Statement) (written : Nat) (durability : Durability) (limit : UInt64)

/-- What it comes to: a record is in the log or it is not. -/
inductive Course where
  | event (e : Event)
  | crash (stmt : Sa.Statement) (limit : UInt64) (logged : Bool)

namespace Database

variable (tx : Texts) (rt : Runtime) (db : Database)

/-- The directory as a crash inside the statement leaves it. -/
def crashed (stmt : Sa.Statement) (written : Nat) : Dir :=
  (db.execute tx rt (.writeFails written) stmt).2.close

def live : Happening → Reply × Database
  | .event e => db.serve tx rt e
  | .crash stmt written durability limit =>
    match start rt.toLowercase (db.crashed tx rt stmt written) durability limit with
    | .ok db' => (.opened (.ok ()), db')
    | .error e => (.opened (.error e), db)

/-- The crash came after the last byte of the record if the files are those of the whole statement. -/
def course : Happening → Option Course
  | .event e => some (.event e)
  | .crash stmt written _ limit =>
    some (.crash stmt limit (db.crashed tx rt stmt written = (db.execute tx rt .done stmt).2.close))

end Database

def Kept.live (tx : Texts) (rt : Runtime) (s : Kept) : Course → Option QueryResult × Kept
  | .event e => s.serve tx rt e
  | .crash stmt limit logged =>
    let kept := if logged then (s.serve tx rt (.statement stmt)).2.kept else s.kept
    (none, ⟨⟨false, limit⟩, kept, kept⟩)

/-- After a crash the directory opens. -/
def Course.Agrees : Course → Reply → Option QueryResult → Prop
  | .event e, reply, ans => e.Agrees reply ans
  | .crash _ _ _, reply, _ => ∃ u, reply = .opened (.ok u)

def Kept.Survives (tx : Texts) (rt : Runtime) (db : Database) (s : Kept) : Happening → Prop
  | .event e => s.Allows tx rt db e
  | .crash stmt _ _ _ => s.Allows tx rt db (.statement stmt)

section Crashes

variable {tx : Texts} {rt : Runtime} {db : Database} {s : Kept}

theorem execute_torn (h : db.Keeps rt.toLowercase s) {stmt : Sa.Statement} (hsafe : db.SafelyRuns tx rt stmt)
    (written : Nat) : db.crashed tx rt stmt written = (db.execute tx rt .done stmt).2.close ∨
      ∀ d, Database.openDir rt.toLowercase (db.crashed tx rt stmt written) d =
        Database.openDir rt.toLowercase db.close d := by
  obtain ⟨-, -, m, ht, -⟩ := h
  unfold Database.SafelyRuns at hsafe
  unfold Database.crashed Database.execute
  cases hplan : planStatement tx (db.tables.schemaOf rt.toLowercase) stmt with
  | error e => exact .inl rfl
  | ok plan =>
    dsimp only
    rw [Database.run_call, Database.run_call]
    cases hcall : plan.call rt.toLowercase db with
    | none => exact .inl rfl
    | some c => exact call_torn ht written (hsafe plan hplan c hcall)

theorem crash_keeps (hrt : rt.Sorting) (hsel : Partitions rt.selectNthUnstableBy)
    (h : db.Keeps rt.toLowercase s) {stmt : Sa.Statement} (hok : s.Allows tx rt db (.statement stmt))
    (written : Nat) (d : Durability) (limit : UInt64) :
    let logged := decide (db.crashed tx rt stmt written = (db.execute tx rt .done stmt).2.close)
    ∃ db', Database.start rt.toLowercase (db.crashed tx rt stmt written) d limit = .ok db' ∧
      db'.Keeps rt.toLowercase (s.live tx rt (.crash stmt limit logged)).2 := by
  intro logged
  by_cases hwhole : db.crashed tx rt stmt written = (db.execute tx rt .done stmt).2.close
  · obtain ⟨db', hstart, hkeeps⟩ := restart_keeps (execute_keeps hrt hsel h hok.1 hok.2) d limit
    refine ⟨db', hwhole ▸ hstart, ?_⟩
    simp only [logged, Kept.live, hwhole, decide_true, if_true]
    exact hkeeps
  · have hsame := (execute_torn h hok.2 written).resolve_left hwhole
    obtain ⟨db', hstart, hkeeps⟩ := restart_keeps h d limit
    refine ⟨db', ?_, ?_⟩
    · rw [Database.start, hsame]
      exact hstart
    · simp only [logged, Kept.live, hwhole, decide_false, Bool.false_eq_true, if_false]
      exact hkeeps

/-- A server that may die at any byte of any record serves its clients as the two levels of rows do,
and finds after each crash the rows it had kept, or also those of the statement it died in. -/
theorem lives_kept (hrt : rt.Sorting) (hsel : Partitions rt.selectNthUnstableBy)
    (h : db.Keeps rt.toLowercase s) {run : List Happening}
    (hall : Allowed (Database.live tx rt) (Kept.live tx rt) (Database.course tx rt)
      (Kept.Survives tx rt) db s run) :
    let courses := seen (Database.live tx rt) (Database.course tx rt) db run
    List.Forall₂ (fun a b => a.1 = b.1 ∧ a.1.Agrees a.2 b.2)
      (transcript (Database.live tx rt) (Database.course tx rt) db run)
      (transcript (Kept.live tx rt) (fun _ => some) s courses) ∧
    (after (Database.live tx rt) db run).Keeps rt.toLowercase (after (Kept.live tx rt) s courses) := by
  have hstep : Simulates (Database.live tx rt) (Kept.live tx rt) (Database.course tx rt)
      (fun db s => db.Keeps rt.toLowercase s) (Kept.Survives tx rt) Course.Agrees := by
    constructor
    · intro db s x j h hok hsee
      cases x with
      | event e =>
        obtain rfl := Option.some.inj hsee
        exact serve_keeps hrt hsel h hok
      | crash stmt written d limit =>
        obtain rfl := Option.some.inj hsee
        obtain ⟨db', hstart, hkeeps⟩ := crash_keeps hrt hsel h hok written d limit
        simp only [Database.live, hstart]
        exact ⟨⟨(), rfl⟩, hkeeps⟩
    · intro db s x h hok hsee
      cases x <;> cases hsee
  exact hstep.run h hall

end Crashes

/-- `INSERT INTO t VALUES (1), ('x')` -/
def insertHalf : Sa.Statement :=
  .insert (.tableName [.identifier "t"]) []
    (some (valuesQuery [[.value (.number "1")], [.value (.singleQuotedString "x")]]))

theorem plan_insertHalf {catalog : Schemas} (h : catalog "t" = some intsSchema) :
    planStatement plainTexts catalog insertHalf = .ok (.insert "t" none [[.i64 1], [.str "x"]]) := by
  rw [insertHalf, planStatement_plain rfl h rfl]
  rfl

/-- A table, a batch that is refused at its second row, and a crash in the record of another row. -/
def halfRun : List Happening :=
  [.event (.statement createInts), .event (.statement insertHalf), .crash (insertInt "2") 20 .fsync 0,
    .event (.statement selectInts)]

def halfLoaded : Database :=
  after (Database.live plainTexts plainRuntime) Database.freshDb
    [.event (.statement createInts), .event (.statement insertHalf)]

theorem lives_kept_half :
    (after (Database.live plainTexts plainRuntime) Database.freshDb halfRun).Keeps plainRuntime.toLowercase
      (after (Kept.live plainTexts plainRuntime) ⟨⟨false, 0⟩, ∅, ∅⟩
        [.event (.statement createInts), .event (.statement insertHalf),
          .crash (insertInt "2") 0 false, .event (.statement selectInts)]) := by
  have hseen : seen (Database.live plainTexts plainRuntime) (Database.course plainTexts plainRuntime)
      Database.freshDb halfRun = [.event (.statement createInts), .event (.statement insertHalf),
        .crash (insertInt "2") 0 false, .event (.statement selectInts)] := by
    have htorn : decide (halfLoaded.crashed plainTexts plainRuntime (insertInt "2") 20 =
        (halfLoaded.execute plainTexts plainRuntime .done (insertInt "2")).2.close) = false := by
      decide +kernel
    exact congrArg (fun logged => [Course.event (.statement createInts), .event (.statement insertHalf),
      .crash (insertInt "2") 0 logged, .event (.statement selectInts)]) htorn
  suffices hall : Allowed (Database.live plainTexts plainRuntime) (Kept.live plainTexts plainRuntime)
      (Database.course plainTexts plainRuntime) (Kept.Survives plainTexts plainRuntime) Database.freshDb
      ⟨⟨false, 0⟩, ∅, ∅⟩ halfRun from
    hseen ▸ (lives_kept plainRuntime_sorting plainRuntime_partitions (keeps_freshDb _) hall).2
  refine ⟨?_, ⟨?_, ?_⟩, ?_, ?_, trivial⟩
  · exact ⟨admits_createInts _, safely_createInts (by decide +kernel)⟩
  · intro plan hplan
    obtain rfl := Except.ok.inj
      ((plan_insertHalf (schemaOf_t [] (by decide +kernel))).symm.trans hplan)
    refine ⟨?_, reserves_ints [] (by decide +kernel) (by decide) (by decide)⟩
    intro row hrow v hv
    rcases List.mem_pair.mp hrow with rfl | rfl
    · obtain rfl := List.mem_singleton.mp hv
      trivial
    · obtain rfl := List.mem_singleton.mp hv
      exact (by decide +kernel : (utf8 "x").length < 2 ^ 64)
  · intro plan hplan c hc
    obtain rfl := Except.ok.inj ((plan_insertHalf (by decide +kernel)).symm.trans hplan)
    obtain rfl : Call.insertRows "t" [[.i64 1], [.str "x"]] = c := Option.some.inj hc
    decide +kernel
  · exact ⟨admits_insertInt [[.i64 1]] (k := 2) (by decide +kernel) (by decide) (by decide +kernel),
      safely_insertInt (k := 2) (by decide +kernel) (by decide +kernel) (by decide +kernel)⟩
  · exact ⟨admits_selectInts [] (by decide +kernel) (by decide),
      safely_selectInts (by decide +kernel)⟩

end Veldb
