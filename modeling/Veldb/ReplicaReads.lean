import Veldb.CaughtUp
import Veldb.Follow
import Veldb.TornStatements

/-! A replica that is read while it follows. The loop of `follow` is taken apart into its requests and
its single records, and between any two of these the primary and the replica serve their clients. -/

namespace Veldb

open Attempts Comparisons Simulation Wal

variable {lower : String → String}

/-- Where the loop of a replica stands: asleep or with its next request to send, amid the records of
a reply, or ended by a panic. -/
inductive Loop where
  | idle (applied : Option UInt64)
  | pulling (applied lsn : UInt64) (records : List ReplyRecord)
  | ended

/-- An error is printed and survived. -/
def Loop.failed (applied : Option UInt64) (e : Fault) : Loop :=
  match e with
  | .crash _ => .ended
  | .bail _ => .idle (if e.isGap then none else applied)

structure Cluster where
  primary : Database
  replica : Database
  loop : Loop

namespace Cluster

inductive Event where
  | write (stmt : Sa.Statement)
  | read (stmt : Sa.Statement)
  | snapshot (tables : List Table)
  | restart (durability : Durability) (limit : UInt64)
  | bootstrap (tables : List Table)
  | fetch
  | take
  | lost

def bootstrap (lower : String → String) (c : Cluster) (tables : List Table) : Cluster :=
  match c.loop with
  | .idle none =>
    match c.replica.bootstrap lower (c.primary.snapshotBytes tables) with
    | (.ok lsn, db) => { c with replica := db, loop := .idle (some lsn) }
    | (.error e, db) => { c with replica := db, loop := .failed none e }
  | _ => c

/-- The request of `pull_once`. -/
def fetch (c : Cluster) : Cluster :=
  match c.loop with
  | .idle (some applied) =>
    match c.primary.wal applied with
    | (.ok ⟨some records⟩, db) => { c with primary := db, loop := .pulling applied applied records }
    | (.ok ⟨none⟩, db) =>
      { c with primary := db, loop := .failed (some applied) (.bail "в ответе нет 'records'") }
    | (.error e, db) => { c with primary := db, loop := .failed (some applied) e }
  | _ => c

/-- The next record of the reply, or the end of `pull_once` when there is none. -/
def take (lower : String → String) (c : Cluster) : Cluster :=
  match c.loop with
  | .pulling _ lsn [] => { c with loop := .idle (some lsn) }
  | .pulling applied lsn (rec :: records) =>
    match takeRecord lower c.replica.tables lsn rec with
    | (.ok (), m) =>
      { c with replica := { c.replica with tables := m }, loop := .pulling applied (lsn + 1) records }
    | (.error e, m) =>
      { c with replica := { c.replica with tables := m }, loop := .failed (some applied) e }
  | _ => c

/-- A request that fails on the way leaves everything as it was. -/
def step (tx : Texts) (rt : Runtime) (c : Cluster) : Event → Option (Exec QueryResult) × Cluster
  | .write stmt =>
    (some (c.primary.execute tx rt .done stmt).1,
      { c with primary := (c.primary.execute tx rt .done stmt).2 })
  | .read stmt =>
    (some (c.replica.execute tx rt .done stmt).1,
      { c with replica := (c.replica.execute tx rt .done stmt).2 })
  | .snapshot tables => (none, { c with primary := (c.primary.snapshot tables).2 })
  | .restart durability limit =>
    match Database.start rt.toLowercase c.primary.close durability limit with
    | .ok db => (none, { c with primary := db })
    | .error _ => (none, c)
  | .bootstrap tables => (none, c.bootstrap rt.toLowercase tables)
  | .fetch => (none, c.fetch)
  | .take => (none, c.take rt.toLowercase)
  | .lost => (none, c)

end Cluster

/-- How an iteration of `follow` ends with its `pull_once`. -/
def Follower.pulled (applied : UInt64) : Exec (UInt64 × Nat) × Database → Option Follower
  | (.error e, db) => survive e db (some applied)
  | (.ok (lsn, _), db) => some ⟨db, some lsn⟩

theorem Follower.follow_eq (s : Follower) (snapshot : Exec Bytes) (reply : Exec WalReply) :
    s.follow lower snapshot reply = match s.pullFrom lower snapshot with
      | (.error e, db) => survive e db none
      | (.ok l, db) => pulled l (db.pullOnce lower reply l) := by
  unfold follow
  rcases s.pullFrom lower snapshot with ⟨e | l, db⟩
  · rfl
  · dsimp only
    rcases db.pullOnce lower reply l with ⟨e | res, db'⟩ <;> rfl

namespace Cluster

variable {c : Cluster}

/-- What the loop keeps between two iterations. -/
def follower (c : Cluster) : Option Follower :=
  match c.loop with
  | .idle applied => some ⟨c.replica, applied⟩
  | _ => none

theorem follower_failed {applied : Option UInt64} {e : Fault} (h : c.loop = .failed applied e) :
    c.follower = Follower.survive e c.replica applied := by
  rw [follower, h]
  cases e <;> rfl

theorem take_failed {applied : Option UInt64} {e : Fault} (h : c.loop = .failed applied e) :
    c.take lower = c := by
  rw [take, h]
  cases e <;> rfl

theorem fetch_failed {e : Fault} (h : c.loop = .failed none e) : c.fetch = c := by
  rw [fetch, h]
  cases e with
  | crash msg => rfl
  | bail msg =>
    simp only [Loop.failed, ite_self]

/-- The records of a reply, taken one by one, are those of one `pull_once`. -/
theorem take_records {applied lsn : UInt64} {records : List ReplyRecord}
    (h : c.loop = .pulling applied lsn records) (n : Nat) :
    ((take lower)^[records.length + 1] c).follower = Follower.pulled applied
      ((Database.pullRecords lower c.replica.tables lsn n records).1,
        { c.replica with tables := (Database.pullRecords lower c.replica.tables lsn n records).2 }) := by
  induction records generalizing c lsn n with
  | nil =>
    simp only [List.length_nil, Nat.zero_add, Function.iterate_one, take, h]
    rfl
  | cons rec records ih =>
    rw [List.length_cons, Function.iterate_succ_apply]
    rcases pullRecords_cons lower c.replica.tables lsn n rec records with ⟨m, ht, hp⟩ | ⟨e, m, ht, hp⟩
    · have hc : take lower c = { c with
          replica := { c.replica with tables := m }, loop := .pulling applied (lsn + 1) records } := by
        simp only [take, h, ht]
      rw [hc, hp]
      exact ih rfl (n + 1)
    · have hc : take lower c = { c with
          replica := { c.replica with tables := m }, loop := .failed (some applied) e } := by
        simp only [take, h, ht]
      rw [hc, hp, Function.iterate_fixed (take_failed rfl)]
      exact follower_failed rfl

/-- An iteration in its steps leaves what `follow` leaves. -/
theorem follow_steps {applied : Option UInt64} (h : c.loop = .idle applied) (tables : List Table)
    {reply : Exec WalReply} (hreply : ∀ l db, (Follower.mk c.replica applied).pullFrom lower
      (c.primary.snapshotBytes tables) = (.ok l, db) → reply = (c.primary.wal l).1) :
    ∃ n, ((take lower)^[n] (c.bootstrap lower tables).fetch).follower =
      (Follower.mk c.replica applied).follow lower (c.primary.snapshotBytes tables) reply := by
  rw [Follower.follow_eq]
  rcases hp : (Follower.mk c.replica applied).pullFrom lower (c.primary.snapshotBytes tables)
    with ⟨e | l, db⟩
  · cases applied with
    | some l => cases (Prod.mk.inj hp).1
    | none =>
      have hb : c.bootstrap lower tables = { c with replica := db, loop := .failed none e } := by
        have hp' : c.replica.bootstrap lower (c.primary.snapshotBytes tables) = (.error e, db) := hp
        simp only [bootstrap, h, hp']
      refine ⟨0, ?_⟩
      rw [hb, fetch_failed rfl]
      exact follower_failed rfl
  · have hb : c.bootstrap lower tables = { c with replica := db, loop := .idle (some l) } := by
      cases applied with
      | some l' =>
        obtain ⟨hl, rfl⟩ := Prod.mk.inj hp
        obtain rfl := Except.ok.inj hl
        simp only [bootstrap, h]
        rw [← h]
      | none =>
        have hp' : c.replica.bootstrap lower (c.primary.snapshotBytes tables) = (.ok l, db) := hp
        simp only [bootstrap, h, hp']
    rw [hb, hreply l db hp]
    rcases hw : c.primary.wal l with ⟨e | ⟨_ | records⟩, primary⟩
    · refine ⟨0, ?_⟩
      simp only [fetch, hw]
      exact follower_failed rfl
    · refine ⟨0, ?_⟩
      simp only [fetch, hw]
      exact @follower_failed ⟨primary, db, _⟩ (some l) (.bail "в ответе нет 'records'") rfl
    · refine ⟨records.length + 1, ?_⟩
      simp only [fetch, hw]
      exact take_records rfl 0

end Cluster

/-- What the clients may know: the tables of the primary after each recorded statement, and how many
of these statements the replica has. -/
structure Copies where
  mode : Mode
  limit : UInt64
  states : List Relations
  seen : Nat

namespace Copies

def upTo (s : Copies) (k : Nat) : Relations :=
  (s.states.take k).getLastD ∅

def now (s : Copies) : Relations :=
  s.upTo s.states.length

/-- What a cluster's event comes to; a statement of the primary is recorded or it is not. -/
inductive Event where
  | write (stmt : Sa.Statement) (recorded : Bool)
  | read (stmt : Sa.Statement)
  | restart (limit : UInt64)
  | forward
  | jump

/-- The replica answers as of a recorded statement and moves on from it, never back. -/
def step (tx : Texts) (rt : Runtime) (s : Copies) : Event → Option QueryResult × Copies
  | .write stmt recorded =>
    let r := s.now.execute tx rt s.mode stmt
    (r.1, if recorded then { s with states := s.states ++ [r.2] } else s)
  | .read stmt => (((s.upTo s.seen).execute tx rt ⟨true, s.limit⟩ stmt).1, s)
  | .restart limit => (none, { s with mode := ⟨false, limit⟩ })
  | .forward => (none, { s with seen := min (s.seen + 1) s.states.length })
  | .jump => (none, { s with seen := s.states.length })

end Copies

namespace Cluster

variable (tx : Texts) (rt : Runtime) (c : Cluster)

/-- A statement is recorded if the number of the next record grows. A record moves the replica on, and
a snapshot makes it jump. -/
def see : Event → Option Copies.Event
  | .write stmt =>
    some (.write stmt ((c.primary.execute tx rt .done stmt).2.nextLsn ≠ c.primary.nextLsn))
  | .read stmt => some (.read stmt)
  | .restart _ limit => some (.restart limit)
  | .bootstrap _ =>
    match c.loop with
    | .idle none => some .jump
    | _ => none
  | .take =>
    match c.loop with
    | .pulling _ lsn (rec :: _) =>
      if (takeRecord rt.toLowercase c.replica.tables lsn rec).1.isOk then some .forward else none
    | _ => none
  | _ => none

end Cluster

def Copies.Event.Agrees : Copies.Event → Option (Exec QueryResult) → Option QueryResult → Prop
  | .write stmt _, reply, ans => ∃ r, reply = some r ∧ Answers stmt.isQuery r ans
  | .read stmt, reply, ans => ∃ r, reply = some r ∧ Answers stmt.isQuery r ans
  | _, reply, ans => reply = none ∧ ans = none

/-- What the statement writes to the log can be shipped, and where it fails it does nothing. -/
def Database.SafelyShips (tx : Texts) (rt : Runtime) (db : Database) (stmt : Sa.Statement) : Prop :=
  ∀ plan, planStatement tx (db.tables.schemaOf rt.toLowercase) stmt = .ok plan →
    ∀ c ∈ plan.call rt.toLowercase db,
      (∀ r ∈ db.toLog rt.toLowercase c, db.Ships rt.toLowercase r) ∧
      ∀ e db', db.call rt.toLowercase .done c = (.error e, db') → db' = db

/-- What has to be seen to from outside: the statements, the room for a snapshot, and that a restart
goes on counting. -/
def Copies.Allows (tx : Texts) (rt : Runtime) (c : Cluster) (s : Copies) : Cluster.Event → Prop
  | .write stmt => s.now.Admits tx rt stmt ∧ c.primary.SafelyShips tx rt stmt
  | .read stmt => (s.upTo s.seen).Admits tx rt stmt
  | .snapshot tables => c.primary.tables.Lists tables ∧ Database.StoresSafely tables
  | .restart _ _ => c.primary.KeepsCount
  | .bootstrap tables => c.primary.tables.Lists tables ∧ Database.StoresSafely tables
  | _ => True

/-- The records that the loop holds go on from the replica's tables, or the first of them is a gap. -/
def Loop.Reaches (H : List Bytes) (seen : Nat) : Loop → Prop
  | .idle applied => ∀ l ∈ applied, l = UInt64.ofNat seen
  | .pulling _ lsn records =>
    lsn = UInt64.ofNat seen ∧
      ((∃ ps qs, H.drop seen = ps ++ qs ∧ records = replyOf (numbered (lsn + 1) ps)) ∨
        ∃ next p rs, next ≠ lsn + 1 ∧ records = replyOf ((next, p) :: rs))
  | .ended => False

/-- `H` is every payload ever logged, `w` how many of them the snapshot holds. -/
structure Cluster.Follows (lower : String → String) (c : Cluster) (s : Copies) (H : List Bytes) (w : Nat) :
    Prop where
  agrees : Agrees lower ⟨c.primary, c.replica, none⟩ H w
  recorded : s.states.length = H.length
  states : ∀ k ≤ H.length,
    ∃ m, Catalog.playAll lower 1 ∅ (H.take k) = .ok m ∧ m.Represents (s.upTo k)
  within : s.seen ≤ H.length
  held : Catalog.playAll lower 1 ∅ (H.take s.seen) = .ok c.replica.tables
  loop : c.loop.Reaches H s.seen
  mode : c.primary.mode = s.mode
  reading : c.replica.mode = ⟨true, s.limit⟩

section Following

variable {tx : Texts} {rt : Runtime} {c : Cluster} {s : Copies} {H : List Bytes} {w : Nat}

theorem Agrees.copy {net : Net} (h : Agrees lower net H w) (db : Database) :
    Agrees lower ⟨net.primary, db, none⟩ H w :=
  ⟨h.recovers, h.played, h.within, h.counted, nofun⟩

theorem Cluster.Follows.primary (h : c.Follows lower s H w) :
    c.primary.Represents .done s.mode s.now := by
  obtain ⟨m, hm, hrep⟩ := h.states H.length (le_refl _)
  rw [List.take_length] at hm
  obtain rfl := Except.ok.inj (hm.symm.trans h.agrees.played)
  rw [← h.recorded] at hrep
  exact ⟨hrep, h.mode, fun _ _ => trivial⟩

theorem Cluster.Follows.replica (h : c.Follows lower s H w) :
    c.replica.Represents .done ⟨true, s.limit⟩ (s.upTo s.seen) := by
  obtain ⟨m, hm, hrep⟩ := h.states s.seen h.within
  obtain rfl := Except.ok.inj (hm.symm.trans h.held)
  exact ⟨hrep, h.reading, fun _ _ => trivial⟩

theorem call_readOnly {db : Database} (h : db.readOnly = true) (io : AppendIo) (call : Call) :
    (db.call lower io call).2 = db := by
  cases call <;>
    simp only [Database.call, Database.createTable, Database.dropTable, Database.insertRows,
      Database.denyIfReadOnly, h, if_true, bail]

theorem execute_readOnly {db : Database} (h : db.readOnly = true) (io : AppendIo) (stmt : Sa.Statement) :
    (db.execute tx rt io stmt).2 = db := by
  unfold Database.execute
  cases planStatement tx (db.tables.schemaOf rt.toLowercase) stmt with
  | error e => rfl
  | ok plan =>
    dsimp only
    rw [Database.run_call]
    cases plan.call rt.toLowercase db with
    | none => rfl
    | some call => exact call_readOnly h io call

/-- A call leaves the database as it was or writes one record that can be shipped. -/
theorem call_shipped {db : Database} {call : Call}
    (hships : ∀ r ∈ db.toLog lower call, db.Ships lower r)
    (hfails : ∀ e db', db.call lower .done call = (.error e, db') → db' = db) :
    (db.call lower .done call).2 = db ∨
      ∃ r, db.Ships lower r ∧ db.Writes lower .done r (db.call lower .done call).2 := by
  rcases hc : db.call lower .done call with ⟨e | u, db'⟩
  · exact .inl (hfails e db' hc)
  rw [Database.call_eq] at hc
  rcases he : db.enter lower call with ⟨e | r, db''⟩
  · rw [he] at hc
    cases (Prod.mk.inj hc).1
  rw [he] at hc
  rcases Database.enter_ok he with ⟨rfl, rfl⟩ | ⟨rec, m, rfl, happ, rfl⟩
  · exact .inl (Prod.mk.inj hc).2.symm
  · exact .inr ⟨rec, hships rec (Database.toLog_eq_some.mpr (congrArg Prod.fst he)), m, happ, hc⟩

theorem execute_shipped {db replica : Database} (h : Agrees rt.toLowercase ⟨db, replica, none⟩ H w)
    {stmt : Sa.Statement} (hs : db.SafelyShips tx rt stmt) :
    (db.execute tx rt .done stmt).2 = db ∨
      ∃ p, Agrees rt.toLowercase ⟨(db.execute tx rt .done stmt).2, replica, none⟩ (H ++ [p]) w := by
  unfold Database.SafelyShips at hs
  unfold Database.execute
  cases hplan : planStatement tx (db.tables.schemaOf rt.toLowercase) stmt with
  | error e => exact .inl rfl
  | ok plan =>
    dsimp only
    rw [Database.run_call]
    cases hcall : plan.call rt.toLowercase db with
    | none => exact .inl rfl
    | some call =>
      obtain ⟨hships, hfails⟩ := hs plan hplan call hcall
      rcases call_shipped hships hfails with hsame | ⟨r, hr, hw⟩
      · exact .inl hsame
      · exact .inr ⟨r.payload, h.write hw hr⟩

theorem upTo_append {k : Nat} (hk : k ≤ s.states.length) (rels : Relations) :
    { s with states := s.states ++ [rels] }.upTo k = s.upTo k := by
  simp only [Copies.upTo, List.take_append_of_le_length hk]

theorem upTo_last (s : Copies) (rels : Relations) :
    { s with states := s.states ++ [rels] }.upTo (s.states.length + 1) = rels := by
  have hall : (s.states ++ [rels]).take (s.states.length + 1) = s.states ++ [rels] :=
    List.take_of_length_le (by rw [List.length_append, List.length_singleton])
  simp only [Copies.upTo, hall, List.getLastD_concat]

theorem Loop.Reaches.append {loop : Loop} {seen : Nat} (h : loop.Reaches H seen) (hs : seen ≤ H.length)
    (p : Bytes) : loop.Reaches (H ++ [p]) seen := by
  cases loop with
  | idle applied => exact h
  | pulling applied lsn records =>
    obtain ⟨hl, ⟨ps, qs, hdrop, hrecords⟩ | hgap⟩ := h
    · refine ⟨hl, .inl ⟨ps, qs ++ [p], ?_, hrecords⟩⟩
      rw [List.drop_append_of_le_length hs, hdrop, List.append_assoc]
    · exact ⟨hl, .inr hgap⟩
  | ended => exact h

theorem write_follows (hrt : rt.Sorting) (hsel : Partitions rt.selectNthUnstableBy)
    (h : c.Follows rt.toLowercase s H w) {stmt : Sa.Statement} (hok : s.Allows tx rt c (.write stmt)) :
    let recorded := decide ((c.primary.execute tx rt .done stmt).2.nextLsn ≠ c.primary.nextLsn)
    Answers stmt.isQuery (c.primary.execute tx rt .done stmt).1 (s.step tx rt (.write stmt recorded)).1 ∧
      ∃ H', (c.step tx rt (.write stmt)).2.Follows rt.toLowercase
        (s.step tx rt (.write stmt recorded)).2 H' w := by
  intro recorded
  obtain ⟨hans, hst⟩ := execute_refines hrt hsel h.primary hok.1
  refine ⟨hans, ?_⟩
  rcases execute_shipped h.agrees hok.2 with hsame | ⟨p, hagrees⟩
  · have hno : recorded = false := by simp [recorded, hsame]
    refine ⟨H, ?_⟩
    simp only [Cluster.step, Copies.step, hno, hsame, Bool.false_eq_true, if_false]
    exact h
  · have hyes : recorded = true := by
      have hcounted := hagrees.counted
      rw [List.length_append, List.length_singleton] at hcounted
      refine decide_eq_true fun hlsn => ?_
      have hnext : (c.primary.execute tx rt .done stmt).2.nextLsn = UInt64.ofNat (H.length + 1 + 1) := by
        rw [hagrees.nextLsn, List.length_append, List.length_singleton]
      rw [hnext, h.agrees.nextLsn] at hlsn
      have := ofNat_inj hcounted (by omega) hlsn
      omega
    refine ⟨H ++ [p], ?_⟩
    simp only [Cluster.step, Copies.step, hyes, if_true]
    refine ⟨hagrees, ?_, fun k hk => ?_, ?_, ?_, h.loop.append h.within p, hst.mode, h.reading⟩
    · rw [List.length_append, List.length_append, h.recorded]
      rfl
    · rw [List.length_append, List.length_singleton] at hk
      rcases Nat.le_or_eq_of_le_succ hk with hold | rfl
      · rw [List.take_append_of_le_length hold, upTo_append (h.recorded ▸ hold)]
        exact h.states k hold
      · have hlast : (H ++ [p]).take (H.length + 1) = H ++ [p] :=
          List.take_of_length_le (by rw [List.length_append, List.length_singleton])
        refine ⟨(c.primary.execute tx rt .done stmt).2.tables, ?_, ?_⟩
        · exact hlast.symm ▸ hagrees.played
        · exact h.recorded ▸ (upTo_last s _).symm ▸ hst.tables
    · rw [List.length_append]
      exact Nat.le_add_right_of_le h.within
    · rw [List.take_append_of_le_length h.within]
      exact h.held

theorem snapshot_follows (h : c.Follows lower s H w) {tables : List Table}
    (hl : c.primary.tables.Lists tables) (hst : Database.StoresSafely tables) :
    { c with primary := (c.primary.snapshot tables).2 }.Follows lower s H H.length := by
  obtain ⟨st, base, -, hrec⟩ := h.agrees.recovers
  have hstored : c.primary.store = some st := hrec.stored
  have hinv : ∀ t ∈ tables, t.Inv := by
    intro t hmem
    obtain ⟨k, hk⟩ := (Catalog.lists_mem hl t).mp hmem
    exact (hrec.sound.shaped k t hk).inv (hst.1 t hmem)
  obtain ⟨bytes, henc, -⟩ := decodeSnapshot_encodeSnapshot (st.wal.nextLsn - 1) hinv hst.2
  have hcall : c.primary.snapshot tables = (.ok (st.wal.nextLsn - 1),
      { c.primary with store := some ⟨some bytes, none, st.wal.reset⟩ }) := by
    simp only [Database.snapshot, hstored, henc]
  have hagrees := h.agrees.snapshot hl hst hcall
  rw [hcall]
  exact ⟨hagrees, h.recorded, h.states, h.within, h.held, h.loop, h.mode, h.reading⟩

theorem restart_follows (h : c.Follows lower s H w) (hk : c.primary.KeepsCount) (d : Durability)
    (limit : UInt64) : ∃ db, Database.start lower c.primary.close d limit = .ok db ∧
      { c with primary := db }.Follows lower { s with mode := ⟨false, limit⟩ } H w := by
  obtain ⟨st, base, -, hrec⟩ := h.agrees.recovers
  have hopen := hrec.openDir d
  obtain ⟨⟨st', base', hnext, hrec'⟩, hplayed, hwithin, hcounted, -⟩ := h.agrees.restart hk hopen
  refine ⟨_, bind_pure_eq_ok.mpr ⟨_, hopen, rfl⟩,
    ⟨⟨st', base', hnext, ?_⟩, hplayed, hwithin, hcounted, nofun⟩, h.recorded, h.states, h.within,
    h.held, h.loop, rfl, h.reading⟩
  exact ⟨hrec'.stored, hrec'.sound, hrec'.based, hrec'.logged, hrec'.payloads, hrec'.replayed,
    hrec'.ordered, hrec'.next⟩

theorem Agrees.bootstrapped {net : Net} (h : Agrees lower net H w) {tables : List Table}
    (hl : net.primary.tables.Lists tables) (hst : Database.StoresSafely tables) :
    net.replica.bootstrap lower (net.primary.snapshotBytes tables) =
      (.ok (UInt64.ofNat H.length), { net.replica with tables := net.primary.tables }) := by
  obtain ⟨st, base, hnext, hrec⟩ := h.recovers
  have hinv : ∀ t ∈ tables, t.Inv := by
    intro t hmem
    obtain ⟨k, hk⟩ := (Catalog.lists_mem hl t).mp hmem
    exact (hrec.sound.shaped k t hk).inv (hst.1 t hmem)
  obtain ⟨bytes, henc, hdec⟩ := decodeSnapshot_encodeSnapshot net.primary.frozenLsn hinv hst.2
  have hmark : net.primary.frozenLsn = UInt64.ofNat H.length := by
    simp only [Database.frozenLsn, hrec.stored]
    rw [hnext, ← ofNat_succ, UInt64.add_sub_cancel]
  rw [hmark] at hdec
  simp only [Database.bootstrap, Database.snapshotBytes, henc, withContext_ok, Database.loadSnapshotBytes,
    hdec, Catalog.ofTables_eq hrec.sound.keyed hl]

theorem bootstrap_follows (h : c.Follows lower s H w) {tables : List Table}
    (hl : c.primary.tables.Lists tables) (hst : Database.StoresSafely tables) (hloop : c.loop = .idle none) :
    (c.bootstrap lower tables).Follows lower { s with seen := s.states.length } H w := by
  have hboot : c.replica.bootstrap lower (c.primary.snapshotBytes tables) = _ :=
    h.agrees.bootstrapped hl hst
  simp only [Cluster.bootstrap, hloop, hboot]
  refine ⟨h.agrees.copy _, h.recorded, h.states, h.recorded.le, ?_, ?_, h.mode, h.reading⟩
  · rw [h.recorded, List.take_length]
    exact h.agrees.played
  · intro l hl
    rw [h.recorded]
    exact (Option.some.inj hl).symm

/-- The reply goes on from the replica, or shows it a gap at once. -/
theorem fetch_follows (h : c.Follows lower s H w) : c.fetch.Follows lower s H w := by
  have hloop := h.loop
  cases hc : c.loop with
  | pulling applied lsn records =>
    simp only [Cluster.fetch, hc]
    exact h
  | ended =>
    simp only [Cluster.fetch, hc]
    exact h
  | idle applied =>
    cases applied with
    | none =>
      simp only [Cluster.fetch, hc]
      exact h
    | some l =>
      rw [hc] at hloop
      obtain rfl : l = UInt64.ofNat s.seen := hloop l rfl
      have hwal : c.primary.wal (UInt64.ofNat s.seen) = _ := h.agrees.wal _
      simp only [Cluster.fetch, hc, hwal]
      refine ⟨h.agrees, h.recorded, h.states, h.within, h.held, ⟨rfl, ?_⟩, h.mode, h.reading⟩
      have hcounted := h.agrees.counted
      have hseen := h.within
      by_cases hw : w ≤ s.seen
      · refine .inl ⟨H.drop s.seen, [], (List.append_nil _).symm, ?_⟩
        rw [filter_numbered hw hseen hcounted, ofNat_succ]
      · cases hd : H.drop w with
        | nil => exact .inl ⟨[], H.drop s.seen, rfl, rfl⟩
        | cons p ps =>
          have hlen := congrArg List.length hd
          rw [List.length_drop, List.length_cons] at hlen
          have hfirst : UInt64.ofNat s.seen < UInt64.ofNat (w + 1) :=
            (ofNat_lt_ofNat (by omega) (by omega)).mpr (by omega)
          refine .inr ⟨UInt64.ofNat (w + 1), p, (numbered (UInt64.ofNat (w + 1) + 1) ps).filter
            (fun r => UInt64.ofNat s.seen < r.1), fun hgap => ?_, ?_⟩
          · rw [ofNat_succ] at hgap
            have := ofNat_inj (by omega) (by omega) hgap
            omega
          · rw [numbered, List.filter_cons_of_pos (by simpa using hfirst)]

/-- The gap is the only error that a record can meet. -/
theorem take_follows (h : c.Follows lower s H w) {applied lsn : UInt64} {rec : ReplyRecord}
    {records : List ReplyRecord} (hc : c.loop = .pulling applied lsn (rec :: records)) :
    ((takeRecord lower c.replica.tables lsn rec).1 = .ok () ∧
      (c.take lower).Follows lower { s with seen := min (s.seen + 1) s.states.length } H w) ∨
    ∃ e, (takeRecord lower c.replica.tables lsn rec).1 = .error e ∧
      (c.take lower).Follows lower s H w := by
  have hloop := h.loop
  rw [hc] at hloop
  obtain ⟨rfl, ⟨ps, qs, hdrop, hrecords⟩ | ⟨next, p, rs, hgap, hrecords⟩⟩ := hloop
  · cases ps with
    | nil => cases hrecords
    | cons p ps =>
      obtain ⟨rfl, rfl⟩ := List.cons_eq_cons.mp hrecords
      have hlen := congrArg List.length hdrop
      rw [List.length_drop, List.length_append, List.length_cons] at hlen
      have hnext : H.take (s.seen + 1) = H.take s.seen ++ [p] := by
        rw [List.take_add, hdrop]
        rfl
      have hrest : H.drop (s.seen + 1) = ps ++ qs := by
        rw [← List.drop_drop, hdrop]
        rfl
      have hlt : s.seen < H.length := by omega
      obtain ⟨m, hm, -⟩ := h.states (s.seen + 1) hlt
      have hone : Catalog.playAll lower (UInt64.ofNat s.seen + 1) c.replica.tables [p] = .ok m := by
        rw [hnext, Catalog.playAll_append, h.held, List.length_take, Nat.min_eq_left h.within,
          UInt64.add_comm] at hm
        exact hm
      have htake : takeRecord lower c.replica.tables (UInt64.ofNat s.seen)
          ⟨some (UInt64.ofNat s.seen + 1), some (hex p)⟩ = (.ok (), m) := by
        have hpull := pullRecords_numbered _ 0 hone
        simp only [numbered, replyOf, List.map_cons, List.map_nil] at hpull
        simp only [takeRecord, hpull]
      refine .inl ⟨congrArg Prod.fst htake, ?_⟩
      have hmin : min (s.seen + 1) s.states.length = s.seen + 1 :=
        Nat.min_eq_left (h.recorded ▸ hlt)
      simp only [Cluster.take, hc, htake, hmin]
      exact ⟨h.agrees.copy _, h.recorded, h.states, hlt, hm,
        ⟨ofNat_succ _, .inl ⟨ps, qs, hrest, rfl⟩⟩, h.mode, h.reading⟩
  · obtain ⟨rfl, rfl⟩ := List.cons_eq_cons.mp hrecords
    obtain ⟨e, hpull, hisGap⟩ := pullRecords_gap lower c.replica.tables 0 hgap p []
    have htake : takeRecord lower c.replica.tables (UInt64.ofNat s.seen) ⟨some next, some (hex p)⟩ =
        (.error e, c.replica.tables) := by
      simp only [replyOf, List.map_cons, List.map_nil] at hpull
      simp only [takeRecord, hpull]
    refine .inr ⟨e, congrArg Prod.fst htake, ?_⟩
    simp only [Cluster.take, hc, htake]
    refine ⟨h.agrees.copy _, h.recorded, h.states, h.within, h.held, ?_, h.mode, h.reading⟩
    cases e with
    | crash msg => cases hisGap
    | bail msg =>
      simp only [Loop.failed, hisGap, if_true]
      intro l hl
      cases hl

theorem step_seen (hrt : rt.Sorting) (hsel : Partitions rt.selectNthUnstableBy)
    (h : c.Follows rt.toLowercase s H w) {e : Cluster.Event} (hok : s.Allows tx rt c e) {j : Copies.Event}
    (hsee : c.see tx rt e = some j) :
    j.Agrees (c.step tx rt e).1 (s.step tx rt j).1 ∧
      ∃ H' w', (c.step tx rt e).2.Follows rt.toLowercase (s.step tx rt j).2 H' w' := by
  cases e with
  | write stmt =>
    obtain rfl := Option.some.inj hsee
    obtain ⟨hans, H', hfollows⟩ := write_follows hrt hsel h hok
    exact ⟨⟨_, rfl, hans⟩, H', w, hfollows⟩
  | read stmt =>
    obtain rfl := Option.some.inj hsee
    have hread : c.replica.readOnly = true := congrArg Mode.readOnly h.reading
    have hsame : (c.replica.execute tx rt .done stmt).2 = c.replica := execute_readOnly hread .done stmt
    refine ⟨⟨_, rfl, (execute_refines hrt hsel h.replica hok).answer⟩, H, w, ?_⟩
    simp only [Cluster.step, Copies.step, hsame]
    exact h
  | restart d limit =>
    obtain rfl := Option.some.inj hsee
    obtain ⟨db, hstart, hfollows⟩ := restart_follows h hok d limit
    simp only [Cluster.step, hstart]
    exact ⟨⟨rfl, rfl⟩, H, w, hfollows⟩
  | bootstrap tables =>
    simp only [Cluster.see] at hsee
    split at hsee
    · next hloop =>
      obtain rfl := Option.some.inj hsee
      exact ⟨⟨rfl, rfl⟩, H, w, bootstrap_follows h hok.1 hok.2 hloop⟩
    · cases hsee
  | take =>
    simp only [Cluster.see] at hsee
    split at hsee
    · next hloop =>
      rcases take_follows h hloop with ⟨htaken, hfollows⟩ | ⟨e, hgap, -⟩
      · rw [htaken] at hsee
        obtain rfl := Option.some.inj hsee
        exact ⟨⟨rfl, rfl⟩, H, w, hfollows⟩
      · rw [hgap] at hsee
        cases hsee
    · cases hsee
  | _ => cases hsee

theorem step_unseen (h : c.Follows rt.toLowercase s H w) {e : Cluster.Event} (hok : s.Allows tx rt c e)
    (hsee : c.see tx rt e = none) : ∃ H' w', (c.step tx rt e).2.Follows rt.toLowercase s H' w' := by
  cases e with
  | snapshot tables => exact ⟨H, H.length, snapshot_follows h hok.1 hok.2⟩
  | fetch => exact ⟨H, w, fetch_follows h⟩
  | lost => exact ⟨H, w, h⟩
  | bootstrap tables =>
    refine ⟨H, w, ?_⟩
    have hloop : c.loop ≠ .idle none := by
      intro hloop
      simp only [Cluster.see, hloop] at hsee
      cases hsee
    have hsame : c.bootstrap rt.toLowercase tables = c := by
      unfold Cluster.bootstrap
      split
      · next hidle => exact absurd hidle hloop
      · rfl
    simp only [Cluster.step, hsame]
    exact h
  | take =>
    refine ⟨H, w, ?_⟩
    have hloop := h.loop
    cases hc : c.loop with
    | idle applied =>
      simp only [Cluster.step, Cluster.take, hc]
      exact h
    | ended =>
      simp only [Cluster.step, Cluster.take, hc]
      exact h
    | pulling applied lsn records =>
      cases records with
      | nil =>
        rw [hc] at hloop
        simp only [Cluster.step, Cluster.take, hc]
        refine ⟨h.agrees, h.recorded, h.states, h.within, h.held, fun l hl => ?_, h.mode, h.reading⟩
        exact (Option.some.inj hl).symm.trans hloop.1
      | cons rec records =>
        rcases take_follows h hc with ⟨htaken, -⟩ | ⟨e, -, hfollows⟩
        · simp only [Cluster.see, hc, htaken] at hsee
          cases hsee
        · exact hfollows
  | _ => cases hsee

/-- A server on a fresh directory, and a replica in memory that has asked for nothing yet. -/
def Cluster.started (primary : Database) (limit : UInt64) : Cluster :=
  ⟨primary, { Database.new with readOnly := true, memoryLimit := limit }, .idle none⟩

theorem started_follows {primary : Database} {d : Durability} {limit : UInt64}
    (h : Database.start lower Dir.fresh d limit = .ok primary) (copyLimit : UInt64) :
    (Cluster.started primary copyLimit).Follows lower ⟨⟨false, limit⟩, copyLimit, [], 0⟩ [] 0 := by
  obtain ⟨db, hopen, hempty, hrec⟩ := recovers_fresh lower d
  obtain ⟨db', hopen', rfl⟩ := bind_pure_eq_ok.mp h
  obtain rfl := Except.ok.inj (hopen.symm.trans hopen')
  have hmode : db.readOnly = false := by
    have hfresh : Database.openDir lower Dir.fresh d =
        .ok ⟨∅, some ⟨none, none, ⟨fileOf [], 1, d⟩⟩, false, 0⟩ := rfl
    exact congrArg Database.readOnly (Except.ok.inj (hopen.symm.trans hfresh))
  refine ⟨⟨⟨⟨none, none, ⟨fileOf [], 1, d⟩⟩, ∅, rfl, ?_⟩, ?_, le_refl 0, by decide, nofun⟩,
    rfl, fun k hk => ?_, le_refl 0, rfl, nofun, ?_, rfl⟩
  · exact ⟨hrec.stored, hrec.sound, hrec.based, hrec.logged, hrec.payloads, hrec.replayed, hrec.ordered,
      hrec.next⟩
  · exact congrArg Except.ok hempty.symm
  · obtain rfl := Nat.le_zero.mp hk
    exact ⟨∅, rfl, fun _ => .none⟩
  · exact congrArg (fun readOnly => Mode.mk readOnly limit) hmode

/-- Whatever the order of statements, snapshots, restarts, requests of the replica and single records
taken from the replies, the primary answers as the tables of rows do, and the replica as they did after
a recorded statement: after the one that its last record or snapshot stands for. -/
theorem replica_reads (hrt : rt.Sorting) (hsel : Partitions rt.selectNthUnstableBy) {d : Durability}
    {limit copyLimit : UInt64} {primary : Database}
    (hopen : Database.start rt.toLowercase Dir.fresh d limit = .ok primary) {run : List Cluster.Event}
    (hall : Allowed (Cluster.step tx rt) (Copies.step tx rt) (Cluster.see tx rt)
      (fun c s => s.Allows tx rt c) (Cluster.started primary copyLimit)
      ⟨⟨false, limit⟩, copyLimit, [], 0⟩ run) :
    let c := Cluster.started primary copyLimit
    let events := seen (Cluster.step tx rt) (Cluster.see tx rt) c run
    let c' := after (Cluster.step tx rt) c run
    let s' := after (Copies.step tx rt) ⟨⟨false, limit⟩, copyLimit, [], 0⟩ events
    List.Forall₂ (fun a b => a.1 = b.1 ∧ a.1.Agrees a.2 b.2)
      (transcript (Cluster.step tx rt) (Cluster.see tx rt) c run)
      (transcript (Copies.step tx rt) (fun _ => some) ⟨⟨false, limit⟩, copyLimit, [], 0⟩ events) ∧
    c'.primary.Represents .done s'.mode s'.now ∧
    c'.replica.Represents .done ⟨true, s'.limit⟩ (s'.upTo s'.seen) ∧ c'.loop ≠ .ended := by
  have hstep : Simulates (Cluster.step tx rt) (Copies.step tx rt) (Cluster.see tx rt)
      (fun c s => ∃ H w, c.Follows rt.toLowercase s H w) (fun c s => s.Allows tx rt c)
      Copies.Event.Agrees := by
    constructor
    · rintro c s e j ⟨H, w, h⟩ hok hsee
      exact step_seen hrt hsel h hok hsee
    · rintro c s e ⟨H, w, h⟩ hok hsee
      exact step_unseen h hok hsee
  obtain ⟨htranscripts, H, w, h⟩ := hstep.run ⟨[], 0, started_follows hopen copyLimit⟩ hall
  refine ⟨htranscripts, h.primary, h.replica, fun hended => ?_⟩
  have hloop := h.loop
  rw [hended] at hloop
  exact hloop

end Following

theorem ships_of_ok {tx : Texts} {rt : Runtime} {db : Database} {stmt : Sa.Statement} {plan : Statement}
    {call : Call} (hplan : planStatement tx (db.tables.schemaOf rt.toLowercase) stmt = .ok plan)
    (hcall : plan.call rt.toLowercase db = some call)
    (hships : ∀ r ∈ db.toLog rt.toLowercase call, db.Ships rt.toLowercase r)
    (hok : (db.call rt.toLowercase .done call).1.isOk = true) : db.SafelyShips tx rt stmt := by
  intro plan' hplan' call' hcall'
  obtain rfl := Except.ok.inj (hplan.symm.trans hplan')
  obtain rfl := Option.some.inj (hcall.symm.trans hcall')
  refine ⟨hships, fun e db' herr => ?_⟩
  rw [herr] at hok
  cases hok

/-- A row that the replica takes and one that it does not yet have when it is read. -/
def laggingRun : List Cluster.Event :=
  [.write createInts, .bootstrap [intsWith []], .write (insertInt "1"), .fetch, .write (insertInt "2"),
    .take, .read selectInts, .take, .lost]

theorem replica_reads_lagging :
    let c := Cluster.started Database.freshDb 0
    let c' := after (Cluster.step plainTexts plainRuntime) c laggingRun
    let s' := after (Copies.step plainTexts plainRuntime) ⟨⟨false, 0⟩, 0, [], 0⟩
      (seen (Cluster.step plainTexts plainRuntime) (Cluster.see plainTexts plainRuntime) c laggingRun)
    c'.primary.Represents .done s'.mode s'.now ∧
      c'.replica.Represents .done ⟨true, s'.limit⟩ (s'.upTo s'.seen) ∧ c'.loop ≠ .ended := by
  have hopen : Database.start plainRuntime.toLowercase Dir.fresh .fsync 0 = .ok Database.freshDb := rfl
  suffices hall : Allowed (Cluster.step plainTexts plainRuntime) (Copies.step plainTexts plainRuntime)
      (Cluster.see plainTexts plainRuntime) (fun c s => s.Allows plainTexts plainRuntime c)
      (Cluster.started Database.freshDb 0) ⟨⟨false, 0⟩, 0, [], 0⟩ laggingRun from
    (replica_reads plainRuntime_sorting plainRuntime_partitions hopen hall).2
  refine ⟨?_, ?_, ?_, trivial, ?_, trivial, ?_, trivial, trivial, trivial⟩
  · exact ⟨admits_createInts _,
      ships_of_ok (plan_createInts _) rfl (by decide +kernel) (by decide +kernel)⟩
  · exact ⟨by decide +kernel, by decide +kernel⟩
  · exact ⟨admits_insertInt [] (k := 1) (by decide +kernel) (by decide) (by decide +kernel),
      ships_of_ok (plan_insertInt (by decide +kernel) (k := 1) (by decide +kernel)) rfl (by decide +kernel)
        (by decide +kernel)⟩
  · exact ⟨admits_insertInt [[.i64 1]] (k := 2) (by decide +kernel) (by decide) (by decide +kernel),
      ships_of_ok (plan_insertInt (by decide +kernel) (k := 2) (by decide +kernel)) rfl (by decide +kernel)
        (by decide +kernel)⟩
  · exact admits_selectInts [[.i64 1]] (by decide +kernel) (by decide)

end Veldb
