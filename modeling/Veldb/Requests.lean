import Veldb.Services
import Veldb.Sessions

/-! Requests served over tables of rows. Which protocol a request comes by does not show, nor do
snapshots and reads of the log, and overlapping requests take effect one after another. -/

namespace Veldb

open Attempts Comparisons Simulation

/-- What a request asks for. -/
inductive Ask where
  | query (sql : String)
  | insert (table : String) (rows : List (List Cell))
  | health
  | schema

inductive Answer where
  | rows (q : QueryResult)
  | done (message : QueryResult)
  | inserted (n : Nat)
  | health (tables rows bytes : Nat)
  | schema (tables : List Relation)

/-- What is left to do of a request; a batch has been read for the schema its table had. -/
inductive Waiting where
  | run (plan : Statement)
  | batch (table : String) (schema : Schema) (rows : List (List Value))

def Relations.listed (lower : String → String) (m : Relations) : List Relation :=
  m.names.filterMap (fun n => m.lookup (lower n))

structure Service where
  rels : Relations
  waiting : Finmap (fun _ : Nat => Waiting)

namespace Service

inductive Event where
  | arrive (connection : Nat) (ask : Ask)
  | finish (connection : Nat)

def receive (host : Host) (lower : String → String) (m : Relations) :
    Ask → Except (Option Answer) Waiting
  | .query sql => ((planSql host sql (m.schemaOf lower)).map .run).mapError (fun _ => none)
  | .insert table rows =>
    match m.lookup (lower table) with
    | none => .error none
    | some r =>
      match r.schema.readCells rows with
      | none => .error none
      | some values => .ok (.batch table r.schema values)
  | .health => .error (some (.health m.names.length ((m.listed lower).map (·.rows.length)).sum
      ((m.listed lower).map Relation.bytesUsed).sum))
  | .schema => .error (some (.schema (m.listed lower)))

def perform (rt : Runtime) (mode : Mode) (m : Relations) : Waiting → Option Answer × Relations
  | .run plan =>
    ((m.run rt mode plan).1.map (if plan.isQuery then Answer.rows else Answer.done), (m.run rt mode plan).2)
  | .batch table _ rows =>
    ((m.insert rt.toLowercase mode table none rows).1.map (fun _ => .inserted rows.length),
      (m.insert rt.toLowercase mode table none rows).2)

def step (host : Host) (rt : Runtime) (mode : Mode) (s : Service) :
    Event → Option (Option Answer) × Service
  | .arrive c ask =>
    match receive host rt.toLowercase s.rels ask with
    | .error ans => (some ans, s)
    | .ok w => (none, { s with waiting := Finmap.insert c w s.waiting })
  | .finish c =>
    match s.waiting.lookup c with
    | none => (none, s)
    | some w => (some (perform rt mode s.rels w).1, ⟨(perform rt mode s.rels w).2, s.waiting.erase c⟩)

end Service

/-- What a request asks the tables for; taking a snapshot or reading the log is nothing to them. -/
def Server.Request.ask (host : Host) : Server.Request → Option Ask
  | .http .health => some .health
  | .http .schema => some .schema
  | .http (.query sql) => some (.query sql)
  | .http (.insert table rows) => some (.insert table (rows.map (List.map (Json.cell host.texts))))
  | .http _ => none
  | .grpc (.query sql) => some (.query sql)
  | .grpc (.insert table rows) => some (.insert table (rows.map (List.map Pb.Value.cell)))
  | .grpc .health => some .health
  | .grpc .schema => some .schema

def Server.Job.work : Server.Job → Option Work
  | .http (.work w) => some w
  | .http _ => none
  | .grpc w => some w

/-- An event of the server as the tables of rows meet it. -/
def Server.see (host : Host) (s : Server) : Server.Event → Option Service.Event
  | .arrive c r => if (s.jobs.lookup c).isSome then none else (r.ask host).map (.arrive c)
  | .finish c _ => ((s.jobs.lookup c).bind Server.Job.work).map (fun _ => .finish c)

def Server.Reply.Refused : Server.Reply → Prop
  | .http r => r.status = 400
  | .grpc r => ∃ status, r = .error status

/-- An answer in the words of a protocol. How long it took, where the log stands and whether there is
one are the server's own to say. -/
def Server.Reply.Shows (rt : Runtime) (jt : JsonTexts) (reply : Server.Reply) : Answer → Prop
  | .rows q => ∃ elapsed, reply = .http (Http.queryReply rt jt q elapsed) ∨
      reply = .grpc (.ok (Grpc.queryReply q elapsed))
  | .done q => ∃ elapsed, reply = .http (Http.queryReply rt jt q elapsed) ∨
      reply = .grpc (.ok (Grpc.queryReply q elapsed))
  | .inserted n => reply = .http (Http.insertReply n) ∨ reply = .grpc (.ok (Grpc.insertReply n))
  | .health tables rows bytes => ∃ persistent lsn,
      reply = .http (Http.healthReply tables rows bytes persistent lsn) ∨
        reply = .grpc (.ok (Grpc.healthReply tables rows bytes persistent lsn))
  | .schema tables =>
      reply = .http (Http.schemaReply (tables.map (fun r =>
        Http.tableInfo r.name r.schema r.rows.length r.bytesUsed))) ∨
      reply = .grpc (.ok (.schema (tables.map (fun r => Grpc.tableInfo r.name r.schema r.rows.length))))

/-- A query may be refused for what the rows do not show. -/
def Server.Reply.Tells (rt : Runtime) (jt : JsonTexts) (reply : Server.Reply) : Option Answer → Prop
  | none => reply.Refused
  | some (.rows q) => reply.Shows rt jt (.rows q) ∨ reply.Refused
  | some a => reply.Shows rt jt a

/-- The work is what waits to be done. -/
inductive Work.Stands : Work → Waiting → Prop
  | run {plan : Statement} (h : plan.Shaped) : Stands (.run plan) (.run plan)
  | batch {table : String} {schema : Schema} {rows : List (List Value)}
      (h : ∀ row ∈ rows, row.map Value.typeOf = schema.types) :
      Stands (.insertRows table rows) (.batch table schema rows)

structure Server.Serves (io : AppendIo) (mode : Mode) (s : Server) (v : Service) : Prop where
  db : s.db.Represents io mode v.rels
  jobs : ∀ c, Option.Rel Work.Stands ((s.jobs.lookup c).bind Server.Job.work) (v.waiting.lookup c)

section Arriving

variable {host : Host} {lower : String → String} {io : AppendIo} {mode : Mode} {db : Database}
  {rels : Relations} {rt : Runtime}

theorem listed_map {α : Type} {f : Table → α} {g : Relation → α} (h : db.Represents io mode rels)
    (hfg : ∀ t r, t.Represents r → f t = g r) :
    (db.listed lower).map f = (rels.listed lower).map g := by
  unfold Database.listed Relations.listed
  rw [represents_names h, List.map_filterMap, List.map_filterMap]
  refine List.filterMap_congr fun n _ => ?_
  exact represents_map h.tables hfg (lower n)

theorem health_shows (host : Host) (rt : Runtime) (h : db.Represents io mode rels) :
    (Server.Reply.http (Http.health lower db)).Shows rt host.json (.health rels.names.length
      ((rels.listed lower).map (·.rows.length)).sum ((rels.listed lower).map Relation.bytesUsed).sum) ∧
    (Server.Reply.grpc (.ok (Grpc.health lower db))).Shows rt host.json (.health rels.names.length
      ((rels.listed lower).map (·.rows.length)).sum ((rels.listed lower).map Relation.bytesUsed).sum) := by
  rw [← represents_names h, ← listed_map h fun _ _ htr => htr.nrows,
    ← listed_map h fun _ _ htr => represents_bytesUsed htr]
  exact ⟨⟨_, _, .inl rfl⟩, ⟨_, _, .inr rfl⟩⟩

theorem schema_shows (host : Host) (rt : Runtime) (h : db.Represents io mode rels) :
    (Server.Reply.http (Http.schema lower db)).Shows rt host.json (.schema (rels.listed lower)) ∧
    (Server.Reply.grpc (.ok (Grpc.schema lower db))).Shows rt host.json (.schema (rels.listed lower)) := by
  have hhttp : (db.listed lower).map (fun t => Http.tableInfo t.name t.schema t.nrows t.bytesUsed) =
      (rels.listed lower).map (fun r => Http.tableInfo r.name r.schema r.rows.length r.bytesUsed) :=
    listed_map h fun t r htr => by rw [htr.name, htr.schema, htr.nrows, represents_bytesUsed htr]
  have hgrpc : (db.listed lower).map (fun t => Grpc.tableInfo t.name t.schema t.nrows) =
      (rels.listed lower).map (fun r => Grpc.tableInfo r.name r.schema r.rows.length) :=
    listed_map h fun t r htr => by rw [htr.name, htr.schema, htr.nrows]
  refine ⟨.inl ?_, .inr ?_⟩
  · rw [Http.schema, hhttp]
  · rw [Grpc.schema, hgrpc]

theorem planSql_shaped {sql : String} {catalog : Schemas} {plan : Statement}
    (h : planSql host sql catalog = .ok plan) : plan.Shaped := by
  obtain ⟨stmts, -, h⟩ := bind_eq_ok.mp h
  match stmts, h with
  | [], h => cases h
  | [stmt], h => exact (planStatement_shaped h).1
  | _ :: _ :: _, h => cases h

/-- What has arrived is answered, or waits, as the tables of rows have it. -/
structure Received (rt : Runtime) (host : Host) (io : AppendIo) (mode : Mode) (rels : Relations)
    (c : Except Server.Reply Server.Job × Database) (a : Except (Option Answer) Waiting) : Prop where
  state : c.2.Represents io mode rels
  answered : ∀ reply, c.1 = .error reply → ∃ ans, a = .error ans ∧ reply.Tells rt host.json ans
  waits : ∀ job, c.1 = .ok job → ∃ work w, job.work = some work ∧ a = .ok w ∧ work.Stands w

theorem received_answered {reply : Server.Reply} {ans : Option Answer}
    (h : db.Represents io mode rels) (htells : reply.Tells rt host.json ans) :
    Received rt host io mode rels (.error reply, db) (.error ans) :=
  ⟨h, fun _ hr => ⟨_, rfl, Except.error.inj hr ▸ htells⟩, nofun⟩

theorem received_waits {job : Server.Job} {work : Work} {w : Waiting} (h : db.Represents io mode rels)
    (hjob : job.work = some work) (hstands : work.Stands w) :
    Received rt host io mode rels (.ok job, db) (.ok w) :=
  ⟨h, nofun, fun _ hj => ⟨_, _, Except.ok.inj hj ▸ hjob, rfl, hstands⟩⟩

theorem receive_query (h : db.Represents io mode rels) (sql : String) {wrap : Work → Server.Job}
    {refuse : Fault → Server.Reply} (hwrap : ∀ w, (wrap w).work = some w)
    (hrefuse : ∀ e, (refuse e).Refused) :
    Received rt host io mode rels
      (((planSql host sql (db.tables.schemaOf lower)).map (wrap ∘ .run)).mapError refuse, db)
      (Service.receive host lower rels (.query sql)) := by
  rw [Service.receive, represents_schemaOf h.tables]
  cases hplan : planSql host sql (rels.schemaOf lower) with
  | error e =>
    have hrefused : (refuse e).Tells rt host.json none := hrefuse e
    exact received_answered h hrefused
  | ok plan => exact received_waits h (hwrap _) (.run (planSql_shaped hplan))

theorem receive_insert {α : Type} {read : DataType → α → Exec Value} {cell : α → Cell}
    (hread : ∀ ty a, (read ty a).toOption = (cell a).read ty) (h : db.Represents io mode rels)
    (table : String) (rows : List (List α)) {wrap : Work → Server.Job} {refuse : Fault → Server.Reply}
    {absent : Server.Reply} (hwrap : ∀ w, (wrap w).work = some w)
    (hrefuse : ∀ e, (refuse e).Refused) (habsent : absent.Refused) :
    Received rt host io mode rels
      (match db.tables.table lower table with
        | none => .error absent
        | some t => ((readRows read t.schema rows).map (wrap ∘ .insertRows table)).mapError refuse, db)
      (Service.receive host lower rels (.insert table (rows.map (List.map cell)))) := by
  have hno : ∀ e, (refuse e).Tells rt host.json none := hrefuse
  rw [Service.receive, Catalog.table]
  rcases represents_lookup h.tables (lower table) with ⟨ht, hr⟩ | ⟨t, r, ht, hr, htr⟩
  · have habsent' : absent.Tells rt host.json none := habsent
    rw [ht, hr]
    exact received_answered h habsent'
  · have hcells := readRows_cells hread r.schema rows
    simp only [ht, hr, htr.schema]
    cases hrows : readRows read r.schema rows with
    | error e =>
      rw [hrows] at hcells
      simp only [← hcells]
      exact received_answered h (hno e)
    | ok values =>
      rw [hrows] at hcells
      simp only [← hcells]
      exact received_waits h (hwrap _) (.batch (readCells_typed hcells.symm))

theorem receive_httpQuery (sql : String) : Server.receive host lower db (.http (.query sql)) =
    (((planSql host sql (db.tables.schemaOf lower)).map ((Server.Job.http ∘ .work) ∘ .run)).mapError
      (.http ∘ Http.apiError host), db) := by
  simp only [Server.receive, Http.arrive]
  cases planSql host sql (db.tables.schemaOf lower) <;> rfl

theorem receive_grpcQuery (sql : String) : Server.receive host lower db (.grpc (.query sql)) =
    (((planSql host sql (db.tables.schemaOf lower)).map (Server.Job.grpc ∘ .run)).mapError
      (.grpc ∘ .error ∘ Grpc.status host), db) := by
  simp only [Server.receive, Grpc.arrive]
  cases planSql host sql (db.tables.schemaOf lower) <;> rfl

theorem receive_httpInsert (table : String) (rows : List (List (Json JsonNumber))) :
    Server.receive host lower db (.http (.insert table rows)) =
      (match db.tables.table lower table with
        | none => .error (.http (Http.apiError host (.bail s!"таблица '{table}' не найдена")))
        | some t => ((readRows (Value.fromJson host.texts host.json) t.schema rows).map
            ((Server.Job.http ∘ .work) ∘ .insertRows table)).mapError
              (.http ∘ Http.apiError host), db) := by
  simp only [Server.receive, Http.arrive, Http.insert]
  cases db.tables.table lower table with
  | none => rfl
  | some t =>
    rw [orBail, ok_bind]
    dsimp only
    cases readRows (Value.fromJson host.texts host.json) t.schema rows <;> rfl

theorem receive_grpcInsert (table : String) (rows : List (List Pb.Value)) :
    Server.receive host lower db (.grpc (.insert table rows)) =
      (match db.tables.table lower table with
        | none => .error (.grpc (.error ⟨.notFound, s!"таблица '{table}' не найдена"⟩))
        | some t => ((readRows fromPb t.schema rows).map (Server.Job.grpc ∘ .insertRows table)).mapError
            (.grpc ∘ .error ∘ Grpc.status host), db) := by
  simp only [Server.receive, Grpc.arrive, Grpc.insert]
  cases db.tables.table lower table with
  | none => rfl
  | some t =>
    dsimp only
    cases readRows fromPb t.schema rows <;> rfl

theorem apiError_refused (e : Fault) : (Server.Reply.http (Http.apiError host e)).Refused := by
  cases e <;> rfl

theorem receive_refines (h : db.Represents io mode rels) {r : Server.Request} {ask : Ask}
    (hask : r.ask host = some ask) :
    Received rt host io mode rels (Server.receive host lower db r)
      (Service.receive host lower rels ask) := by
  cases r with
  | http r =>
    cases r with
    | health =>
      obtain rfl := Option.some.inj hask
      exact received_answered h (health_shows host rt h).1
    | schema =>
      obtain rfl := Option.some.inj hask
      exact received_answered h (schema_shows host rt h).1
    | query sql =>
      obtain rfl := Option.some.inj hask
      rw [receive_httpQuery]
      exact receive_query h sql (fun _ => rfl) apiError_refused
    | insert table rows =>
      obtain rfl := Option.some.inj hask
      rw [receive_httpInsert]
      exact receive_insert fromJson_cell h table rows (fun _ => rfl) apiError_refused rfl
    | snapshot => cases hask
    | wal after => cases hask
    | replicationSnapshot => cases hask
  | grpc r =>
    cases r with
    | health =>
      obtain rfl := Option.some.inj hask
      exact received_answered h (health_shows host rt h).2
    | schema =>
      obtain rfl := Option.some.inj hask
      exact received_answered h (schema_shows host rt h).2
    | query sql =>
      obtain rfl := Option.some.inj hask
      rw [receive_grpcQuery]
      exact receive_query h sql (fun _ => rfl) fun e => ⟨_, rfl⟩
    | insert table rows =>
      obtain rfl := Option.some.inj hask
      rw [receive_grpcInsert]
      exact receive_insert fromPb_cell h table rows (fun _ => rfl) (fun e => ⟨_, rfl⟩) ⟨_, rfl⟩

end Arriving

section Finishing

variable {host : Host} {io : AppendIo} {mode : Mode} {db : Database} {rels : Relations} {rt : Runtime}

/-- A job in flight can be done whatever has become of the tables since it was taken on. -/
def Relations.PermitsWork (rt : Runtime) (rels : Relations) : Waiting → Prop
  | .run plan => rels.Permits rt plan
  | .batch table _ rows => rels.Takes rt.toLowercase table rows

/-- What is made of an outcome tells of the answer. -/
structure Performed (rt : Runtime) (host : Host) (io : AppendIo) (mode : Mode)
    (c : Exec Outcome × Database) (a : Option Answer × Relations) : Prop where
  state : c.2.Represents io mode a.2
  http : ∀ elapsed, (Server.Reply.http (Http.reply host rt elapsed c.1)).Tells rt host.json a.1
  grpc : ∀ elapsed, (Server.Reply.grpc (Grpc.reply host elapsed c.1)).Tells rt host.json a.1

theorem reply_refused {ans : Option Answer} (hans : ∀ a, ans = some a → ∃ q, a = .rows q) (e : Fault)
    (elapsed : F64) :
    (Server.Reply.http (Http.reply host rt elapsed (.error e))).Tells rt host.json ans ∧
      (Server.Reply.grpc (Grpc.reply host elapsed (.error e))).Tells rt host.json ans := by
  have hhttp : (Server.Reply.http (Http.reply host rt elapsed (.error e))).Refused := apiError_refused e
  have hgrpc : (Server.Reply.grpc (Grpc.reply host elapsed (.error e))).Refused := ⟨_, rfl⟩
  cases ans with
  | none => exact ⟨hhttp, hgrpc⟩
  | some a =>
    obtain ⟨q, rfl⟩ := hans a rfl
    exact ⟨.inr hhttp, .inr hgrpc⟩

theorem perform_run (hrt : rt.Sorting) (hsel : Partitions rt.selectNthUnstableBy)
    (h : db.Represents io mode rels) {plan : Statement} (hshape : plan.Shaped)
    (hpermits : rels.Permits rt plan) :
    Performed rt host io mode (Work.perform rt io db (.run plan))
      (Service.perform rt mode rels (.run plan)) := by
  obtain ⟨⟨hfound, hcertain⟩, hstate⟩ := run_refines hrt hsel h hshape hpermits
  simp only [Work.perform, Service.perform]
  cases hres : (db.run rt io plan).1 with
  | ok q =>
    rw [hfound q hres]
    refine ⟨hstate, fun elapsed => ?_, fun elapsed => ?_⟩
    · cases plan.isQuery with
      | true => exact .inl ⟨elapsed, .inl rfl⟩
      | false => exact ⟨elapsed, .inl rfl⟩
    · cases plan.isQuery with
      | true => exact .inl ⟨elapsed, .inr rfl⟩
      | false => exact ⟨elapsed, .inr rfl⟩
  | error e =>
    have hans : ∀ a, (rels.run rt mode plan).1.map (if plan.isQuery then Answer.rows else Answer.done) =
        some a → ∃ q, a = .rows q := by
      intro a ha
      obtain ⟨q, hq, rfl⟩ := Option.map_eq_some_iff.mp ha
      cases hquery : plan.isQuery with
      | true => exact ⟨q, rfl⟩
      | false => exact nomatch hres.symm.trans (hcertain hquery q hq)
    exact ⟨hstate, fun elapsed => (reply_refused hans e elapsed).1,
      fun elapsed => (reply_refused hans e elapsed).2⟩

theorem insert_found {lower : String → String} {table : String} {r : Relation}
    (hr : rels.lookup (lower table) = some r) (rows : List (List Value)) :
    rels.insert lower mode table none rows =
      if mode.readOnly ∨ rels.Full mode then (none, rels)
      else
        (if ∀ row ∈ rows, r.schema.Accepts row then some (.message s!"вставлено строк: {rows.length}")
          else none, Finmap.insert (lower table) (r.insert rows) rels) := by
  rw [Relations.insert, hr]
  rfl

theorem perform_batch (h : db.Represents io mode rels) (table : String) (schema : Schema)
    {rows : List (List Value)} (htakes : rels.Takes rt.toLowercase table rows) :
    Performed rt host io mode (Work.perform rt io db (.insertRows table rows))
      (Service.perform rt mode rels (.batch table schema rows)) := by
  have hrefuse : ∀ e {db' : Database} {rels' : Relations}, db'.Represents io mode rels' →
      db.insertRows rt.toLowercase io table rows = (.error e, db') →
      rels.insert rt.toLowercase mode table none rows = (none, rels') →
      Performed rt host io mode (Work.perform rt io db (.insertRows table rows))
        (Service.perform rt mode rels (.batch table schema rows)) := by
    intro e db' rels' hstate hres hans
    have hno : ∀ a, (none : Option Answer) = some a → ∃ q, a = .rows q := nofun
    rw [Work.perform, Service.perform, hres, hans]
    exact ⟨hstate, fun elapsed => (reply_refused hno e elapsed).1,
      fun elapsed => (reply_refused hno e elapsed).2⟩
  rcases represents_lookup h.tables (rt.toLowercase table) with ⟨ht, hr⟩ | ⟨t, r, ht, hr, htr⟩
  · obtain ⟨m, hm⟩ := Database.insertRows_refused (.inr (.inr ht)) io rows
    refine hrefuse (.bail m) h hm ?_
    rw [Relations.insert, hr]
  · have hinsert := insertRows_refines h ht htr htakes.1 (htakes.2 r hr)
    by_cases hrefused : mode.readOnly ∨ rels.Full mode
    · rw [if_pos hrefused] at hinsert
      obtain ⟨e, he⟩ := hinsert
      refine hrefuse e h he ?_
      rw [insert_found hr, if_pos hrefused]
    · rw [if_neg hrefused] at hinsert
      obtain ⟨db', hdb', hres⟩ := hinsert
      by_cases hall : ∀ row ∈ rows, r.schema.Accepts row
      · rw [if_pos hall] at hres
        rw [Work.perform, Service.perform, hres, insert_found hr, if_neg hrefused, if_pos hall]
        exact ⟨hdb', fun elapsed => .inl rfl, fun elapsed => .inr rfl⟩
      · rw [if_neg hall] at hres
        obtain ⟨e, he⟩ := hres
        refine hrefuse e hdb' he ?_
        rw [insert_found hr, if_neg hrefused, if_neg hall]

theorem perform_refines (hrt : rt.Sorting) (hsel : Partitions rt.selectNthUnstableBy)
    (h : db.Represents io mode rels) {work : Work} {w : Waiting} (hstands : work.Stands w)
    (hpermits : rels.PermitsWork rt w) :
    Performed rt host io mode (work.perform rt io db) (Service.perform rt mode rels w) := by
  cases hstands with
  | run hshape => exact perform_run hrt hsel h hshape hpermits
  | batch _ => exact perform_batch h _ _ hpermits

/-- A snapshot is written beside the tables. -/
theorem snapshot_represents (h : db.Represents io mode rels) (tables : List Table) :
    (db.snapshot tables).2.Represents io mode rels := by
  unfold Database.snapshot
  cases hs : db.store with
  | none => exact h
  | some s =>
    dsimp only
    cases encodeSnapshot tables (s.wal.nextLsn - 1) with
    | error e => exact h
    | ok bytes =>
      refine ⟨h.tables, h.mode, fun s' hs' => ?_⟩
      obtain rfl := Option.some.inj hs'
      exact h.logs s hs

theorem walSince_represents (h : db.Represents io mode rels) (after : UInt64) :
    (db.walSince after).2.Represents io mode rels := by
  unfold Database.walSince
  cases hs : db.store with
  | none => exact h
  | some s =>
    have hdur : (s.wal.recordsAfter after).2.durability = s.wal.durability := by
      unfold Wal.recordsAfter
      cases Wal.openFile s.wal.file.content s.wal.durability <;> rfl
    refine ⟨h.tables, h.mode, fun s' hs' => ?_⟩
    obtain rfl := Option.some.inj hs'
    exact hdur ▸ h.logs s hs

end Finishing

/-- A job in flight is done when the tables permit it. -/
def Service.Permits (rt : Runtime) (v : Service) : Server.Event → Prop
  | .arrive _ _ => True
  | .finish c _ => ∀ w ∈ v.waiting.lookup c, v.rels.PermitsWork rt w

section Serving

variable {host : Host} {io : AppendIo} {mode : Mode} {rt : Runtime} {s : Server} {v : Service}

theorem not_waiting (h : s.Serves io mode v) {c : Nat}
    (hc : (s.jobs.lookup c).bind Server.Job.work = none) : v.waiting.lookup c = none := by
  have hjobs := h.jobs c
  cases hw : v.waiting.lookup c with
  | none => rfl
  | some w =>
    rw [hc, hw] at hjobs
    cases hjobs

theorem serves_taken (h : s.Serves io mode v) (c : Nat) {db : Database} (hdb : db.Represents io mode v.rels)
    {job : Server.Job} {work : Work} {w : Waiting} (hjob : job.work = some work) (hstands : work.Stands w) :
    Server.Serves io mode ⟨db, Finmap.insert c job s.jobs⟩ ⟨v.rels, Finmap.insert c w v.waiting⟩ := by
  refine ⟨hdb, fun c' => ?_⟩
  by_cases hc : c' = c
  · subst hc
    rw [Finmap.lookup_insert, Finmap.lookup_insert, Option.bind_some, hjob]
    exact .some hstands
  · rw [Finmap.lookup_insert_of_ne _ hc, Finmap.lookup_insert_of_ne _ hc]
    exact h.jobs c'

/-- A job that the tables do not know of is taken. -/
theorem serves_hidden (h : s.Serves io mode v) {c : Nat} (hfree : s.jobs.lookup c = none) {db : Database}
    (hdb : db.Represents io mode v.rels) {job : Server.Job} (hjob : job.work = none) :
    Server.Serves io mode ⟨db, Finmap.insert c job s.jobs⟩ v := by
  refine ⟨hdb, fun c' => ?_⟩
  by_cases hc : c' = c
  · subst hc
    rw [Finmap.lookup_insert, Option.bind_some, hjob, not_waiting h (by rw [hfree]; rfl)]
    exact .none
  · rw [Finmap.lookup_insert_of_ne _ hc]
    exact h.jobs c'

theorem serves_done (h : s.Serves io mode v) (c : Nat) {db : Database} {rels : Relations}
    (hdb : db.Represents io mode rels) :
    Server.Serves io mode ⟨db, s.jobs.erase c⟩ ⟨rels, v.waiting.erase c⟩ := by
  refine ⟨hdb, fun c' => ?_⟩
  by_cases hc : c' = c
  · subst hc
    rw [Finmap.lookup_erase, Finmap.lookup_erase]
    exact .none
  · rw [Finmap.lookup_erase_ne hc, Finmap.lookup_erase_ne hc]
    exact h.jobs c'

theorem arrive_refines (h : s.Serves io mode v) {c : Nat} {r : Server.Request} {ask : Ask}
    (hfree : s.jobs.lookup c = none) (hask : r.ask host = some ask) :
    Option.Rel (fun reply ans => reply.Tells rt host.json ans) (s.step host rt io (.arrive c r)).1
      (v.step host rt mode (.arrive c ask)).1 ∧
    (s.step host rt io (.arrive c r)).2.Serves io mode (v.step host rt mode (.arrive c ask)).2 := by
  have hrec := @receive_refines host rt.toLowercase io mode s.db v.rels rt h.db r ask hask
  rw [Server.step, if_neg (by simp [hfree]), Service.step]
  rcases hres : Server.receive host rt.toLowercase s.db r with ⟨reply | job, db⟩
  · rw [hres] at hrec
    obtain ⟨ans, hans, htells⟩ := hrec.answered reply rfl
    rw [hans]
    exact ⟨.some htells, hrec.state, h.jobs⟩
  · rw [hres] at hrec
    obtain ⟨work, w, hjob, hw, hstands⟩ := hrec.waits job rfl
    rw [hw]
    exact ⟨.none, serves_taken h c hrec.state hjob hstands⟩

/-- What no table is asked for leaves all as it was. -/
theorem arrive_hidden (h : s.Serves io mode v) {c : Nat} {r : Server.Request}
    (hask : s.see host (.arrive c r) = none) : (s.step host rt io (.arrive c r)).2.Serves io mode v := by
  rw [Server.step]
  rw [Server.see] at hask
  by_cases hbusy : (s.jobs.lookup c).isSome = true
  · rw [if_pos hbusy]
    exact h
  · have hfree : s.jobs.lookup c = none := by simpa using hbusy
    rw [if_neg hbusy] at hask ⊢
    have hnone := Option.map_eq_none_iff.mp hask
    cases r with
    | http r =>
      cases r with
      | snapshot => exact serves_hidden h hfree h.db rfl
      | wal after =>
        have hwal : (Http.wal host s.db after).2 = (s.db.walSince after).2 := by
          rw [Http.wal]
          rcases s.db.walSince after with ⟨e | records, db⟩ <;> rfl
        have hdb := walSince_represents h.db after
        rw [← hwal] at hdb
        exact ⟨hdb, h.jobs⟩
      | replicationSnapshot => exact serves_hidden h hfree h.db rfl
      | _ => cases hnone
    | grpc r => cases r <;> cases hnone

theorem finish_refines (hrt : rt.Sorting) (hsel : Partitions rt.selectNthUnstableBy)
    (h : s.Serves io mode v) {c : Nat} (now : Moment)
    (hpermits : ∀ w, v.waiting.lookup c = some w → v.rels.PermitsWork rt w)
    {work : Work} (hwork : (s.jobs.lookup c).bind Server.Job.work = some work) :
    Option.Rel (fun reply ans => reply.Tells rt host.json ans) (s.step host rt io (.finish c now)).1
      (v.step host rt mode (.finish c)).1 ∧
    (s.step host rt io (.finish c now)).2.Serves io mode (v.step host rt mode (.finish c)).2 := by
  obtain ⟨job, hjob, hw⟩ := Option.bind_eq_some_iff.mp hwork
  have hjobs := h.jobs c
  rw [hwork] at hjobs
  cases hwait : v.waiting.lookup c with
  | none =>
    rw [hwait] at hjobs
    cases hjobs
  | some w =>
    rw [hwait] at hjobs
    cases hjobs with
    | some hstands =>
      have hdone := @perform_refines host io mode s.db v.rels rt hrt hsel h.db work w hstands
        (hpermits w hwait)
      rw [Server.step, Service.step, hjob, hwait]
      dsimp only
      cases job with
      | http job =>
        cases job with
        | work work' =>
          obtain rfl := Option.some.inj hw
          exact ⟨.some (hdone.http now.elapsed), serves_done h c hdone.state⟩
        | _ => cases hw
      | grpc work' =>
        obtain rfl := Option.some.inj hw
        exact ⟨.some (hdone.grpc now.elapsed), serves_done h c hdone.state⟩

theorem finish_hidden (h : s.Serves io mode v) {c : Nat} (now : Moment)
    (hwork : (s.jobs.lookup c).bind Server.Job.work = none) :
    (s.step host rt io (.finish c now)).2.Serves io mode v := by
  have herase : v.waiting.erase c = v.waiting := erase_absent (not_waiting h hwork)
  have hsame : ∀ {db : Database}, db.Represents io mode v.rels →
      Server.Serves io mode ⟨db, s.jobs.erase c⟩ v := fun hdb => by
    have hdone := serves_done h c hdb
    rwa [herase] at hdone
  rw [Server.step]
  cases hjob : s.jobs.lookup c with
  | none => exact h
  | some job =>
    rw [hjob] at hwork
    cases job with
    | http job =>
      cases job with
      | work w => cases hwork
      | snapshot =>
        refine hsame ?_
        have hsnap := snapshot_represents h.db now.tables
        simp only [Server.perform, Http.finish]
        rcases hres : s.db.snapshot now.tables with ⟨e | lsn, db⟩ <;> rwa [hres] at hsnap
      | snapshotBytes =>
        refine hsame ?_
        simp only [Server.perform, Http.finish]
        cases s.db.snapshotBytes now.tables <;> exact h.db
    | grpc w => cases hwork

theorem server_simulates (hrt : rt.Sorting) (hsel : Partitions rt.selectNthUnstableBy) :
    Simulates (Server.step host rt io) (Service.step host rt mode) (Server.see host)
      (fun s v => s.Serves io mode v) (fun _ v e => v.Permits rt e)
      (fun _ => Option.Rel fun reply ans => reply.Tells rt host.json ans) := by
  refine ⟨fun s v e seen hserves hok hsee => ?_, fun s v e hserves hok hsee => ?_⟩
  · cases e with
    | arrive c r =>
      rw [Server.see] at hsee
      by_cases hbusy : (s.jobs.lookup c).isSome = true
      · rw [if_pos hbusy] at hsee
        cases hsee
      · rw [if_neg hbusy] at hsee
        obtain ⟨ask, hask, rfl⟩ := Option.map_eq_some_iff.mp hsee
        exact arrive_refines hserves (by simpa using hbusy) hask
    | finish c now =>
      obtain ⟨work, hwork, rfl⟩ := Option.map_eq_some_iff.mp hsee
      exact finish_refines hrt hsel hserves now hok hwork
  · cases e with
    | arrive c r => exact arrive_hidden hserves hsee
    | finish c now => exact finish_hidden hserves now (Option.map_eq_none_iff.mp hsee)

/-- Whichever protocol the requests come by and however they overlap, they are answered as the tables
of rows answer them, one after another. -/
theorem requests_refine {db : Database} {rels : Relations} (hrt : rt.Sorting)
    (hsel : Partitions rt.selectNthUnstableBy) (h : db.Represents io mode rels) {events : List Server.Event}
    (hall : Allowed (Server.step host rt io) (Service.step host rt mode) (Server.see host)
      (fun _ v e => v.Permits rt e) ⟨db, ∅⟩ ⟨rels, ∅⟩ events) :
    List.Forall₂ (fun a b => a.1 = b.1 ∧ Option.Rel (fun reply ans => reply.Tells rt host.json ans) a.2 b.2)
      (transcript (Server.step host rt io) (Server.see host) ⟨db, ∅⟩ events)
      (transcript (Service.step host rt mode) (fun _ => some) ⟨rels, ∅⟩
        (seen (Server.step host rt io) (Server.see host) ⟨db, ∅⟩ events)) ∧
    (after (Server.step host rt io) ⟨db, ∅⟩ events).Serves io mode
      (after (Service.step host rt mode) ⟨rels, ∅⟩
        (seen (Server.step host rt io) (Server.see host) ⟨db, ∅⟩ events)) := by
  have hstart : Server.Serves io mode ⟨db, ∅⟩ ⟨rels, ∅⟩ := ⟨h, fun _ => .none⟩
  exact (server_simulates hrt hsel).run hstart hall

end Serving

def intsHost : Host where
  texts := plainTexts
  json := plainJson
  parseSql sql := if sql = "CREATE TABLE t (x INT)" then .ok [createInts] else .ok [selectInts]
  joinError place := place

/-- Two batches by two protocols; the second to arrive is done first. -/
def overlapping : List Server.Event :=
  [.arrive 0 (.http (.query "CREATE TABLE t (x INT)")), .finish 0 ⟨[], F64.zero⟩,
    .arrive 1 (.grpc (.insert "t" [[⟨some (.i 5)⟩]])),
    .arrive 2 (.http (.insert "t" [[.number (.posInt 6)]])), .finish 2 ⟨[], F64.zero⟩]

theorem overlapping_allowed :
    Allowed (Server.step intsHost plainRuntime .done) (Service.step intsHost plainRuntime ⟨false, 0⟩)
      (Server.see intsHost) (fun _ v e => v.Permits plainRuntime e) ⟨Database.new, ∅⟩ ⟨∅, ∅⟩
      overlapping := by
  refine ⟨trivial, fun w hw => ?_, trivial, trivial, fun w hw => ?_, trivial⟩
  · have hplan : w = .run (.createTable "t" intsSchema false) := (Option.some.inj hw).symm
    subst hplan
    trivial
  · have hbatch : w = .batch "t" intsSchema [[.i64 6]] := (Option.some.inj hw).symm
    subst hbatch
    refine ⟨by simp [Value.Fits], fun r hr => ?_⟩
    have hempty : r = Relation.new "t" intsSchema (by decide) := (Option.some.inj hr).symm
    subst hempty
    decide

theorem requests_refine_overlapping :
    List.Forall₂ (fun a b => a.1 = b.1 ∧
        Option.Rel (fun reply ans => Server.Reply.Tells plainRuntime intsHost.json reply ans) a.2 b.2)
      (transcript (Server.step intsHost plainRuntime .done) (Server.see intsHost) ⟨Database.new, ∅⟩
        overlapping)
      (transcript (Service.step intsHost plainRuntime ⟨false, 0⟩) (fun _ => some) ⟨∅, ∅⟩
        (seen (Server.step intsHost plainRuntime .done) (Server.see intsHost) ⟨Database.new, ∅⟩
          overlapping)) ∧
    (after (Server.step intsHost plainRuntime .done) ⟨Database.new, ∅⟩ overlapping).Serves .done ⟨false, 0⟩
      (after (Service.step intsHost plainRuntime ⟨false, 0⟩) ⟨∅, ∅⟩
        (seen (Server.step intsHost plainRuntime .done) (Server.see intsHost) ⟨Database.new, ∅⟩
          overlapping)) :=
  requests_refine plainRuntime_sorting plainRuntime_partitions (represents_nothing .done)
    overlapping_allowed

section Batches

variable {host : Host} {io : AppendIo} {mode : Mode} {rt : Runtime} {s : Server} {v : Service}

/-- A batch read for the columns that its table still has is inserted whole or not at all, whatever
the other requests do in between. -/
theorem batch_whole {db : Database} {rels : Relations} (hrt : rt.Sorting)
    (hsel : Partitions rt.selectNthUnstableBy) (h : db.Represents io mode rels) {events : List Server.Event}
    (hall : Allowed (Server.step host rt io) (Service.step host rt mode) (Server.see host)
      (fun _ v e => v.Permits rt e) ⟨db, ∅⟩ ⟨rels, ∅⟩ events)
    (hs : after (Server.step host rt io) ⟨db, ∅⟩ events = s)
    (hv : after (Service.step host rt mode) ⟨rels, ∅⟩
      (seen (Server.step host rt io) (Server.see host) ⟨db, ∅⟩ events) = v)
    {c : Nat} {table : String} {rows : List (List Value)} {r : Relation}
    (hr : v.rels.lookup (rt.toLowercase table) = some r)
    (hwaits : v.waiting.lookup c = some (.batch table r.schema rows))
    (hfits : ∀ row ∈ rows, ∀ x ∈ row, x.Fits) (hroom : r.Reserves rows.length) (now : Moment) :
    ∃ reply s', s.step host rt io (.finish c now) = (some reply, s') ∧
      ((reply.Refused ∧ s'.db.Represents io mode v.rels) ∨
        (reply.Shows rt host.json (.inserted rows.length) ∧ ∃ r' : Relation,
          r'.schema = r.schema ∧ r'.rows = r.rows ++ rows ∧
          s'.db.Represents io mode (Finmap.insert (rt.toLowercase table) r' v.rels))) := by
  have hstart : Server.Serves io mode ⟨db, ∅⟩ ⟨rels, ∅⟩ := ⟨h, fun _ => .none⟩
  have hserves := ((server_simulates hrt hsel).run hstart hall).2
  rw [hs, hv] at hserves
  have hjobs := hserves.jobs c
  rw [hwaits] at hjobs
  cases hwork : (s.jobs.lookup c).bind Server.Job.work with
  | none =>
    rw [hwork] at hjobs
    cases hjobs
  | some work =>
    rw [hwork] at hjobs
    have htyped : ∀ row ∈ rows, row.map Value.typeOf = r.schema.types := by
      cases hjobs with
      | some hstands =>
        cases hstands with
        | batch htyped => exact htyped
    have hpermits : ∀ w, v.waiting.lookup c = some w → v.rels.PermitsWork rt w := by
      intro w hw
      obtain rfl := Option.some.inj (hwaits.symm.trans hw)
      exact ⟨hfits, fun r' hr' => Option.some.inj (hr.symm.trans hr') ▸ hroom⟩
    obtain ⟨htells, hnext⟩ := @finish_refines host io mode rt s v hrt hsel hserves c now hpermits work hwork
    have hall' : ∀ row ∈ rows, r.schema.Accepts row := fun row hrow => accepts_typed (htyped row hrow)
    have hstep : Service.step host rt mode v (.finish c) =
        (some (Service.perform rt mode v.rels (.batch table r.schema rows)).1,
          ⟨(Service.perform rt mode v.rels (.batch table r.schema rows)).2, v.waiting.erase c⟩) := by
      rw [Service.step, hwaits]
    rcases hres : s.step host rt io (.finish c now) with ⟨_ | reply, s'⟩
    · rw [hres, hstep] at htells
      cases htells
    · rw [hres, hstep] at htells hnext
      refine ⟨reply, s', rfl, ?_⟩
      by_cases hrefused : mode.readOnly ∨ v.rels.Full mode
      · rw [Service.perform, insert_found hr, if_pos hrefused] at htells hnext
        cases htells with
        | some htells => exact .inl ⟨htells, hnext.db⟩
      · rw [Service.perform, insert_found hr, if_neg hrefused, if_pos hall'] at htells hnext
        cases htells with
        | some htells => exact .inr ⟨htells, r.insert rows, rfl, insert_typed htyped, hnext.db⟩

end Batches

def oneRow : Relation where
  name := "t"
  schema := intsSchema
  rows := [[.i64 6]]
  valid := by decide
  typed := by decide

theorem batch_whole_overlapping :
    ∃ reply s', (after (Server.step intsHost plainRuntime .done) ⟨Database.new, ∅⟩ overlapping).step
        intsHost plainRuntime .done (.finish 1 ⟨[], F64.zero⟩) = (some reply, s') ∧
      ((reply.Refused ∧ s'.db.Represents .done ⟨false, 0⟩
          (after (Service.step intsHost plainRuntime ⟨false, 0⟩) ⟨∅, ∅⟩
            (seen (Server.step intsHost plainRuntime .done) (Server.see intsHost) ⟨Database.new, ∅⟩
              overlapping)).rels) ∨
        (reply.Shows plainRuntime intsHost.json (.inserted 1) ∧ ∃ r' : Relation,
          r'.schema = intsSchema ∧ r'.rows = [[.i64 6]] ++ [[.i64 5]] ∧
          s'.db.Represents .done ⟨false, 0⟩ (Finmap.insert (plainRuntime.toLowercase "t") r'
            (after (Service.step intsHost plainRuntime ⟨false, 0⟩) ⟨∅, ∅⟩
              (seen (Server.step intsHost plainRuntime .done) (Server.see intsHost) ⟨Database.new, ∅⟩
                overlapping)).rels))) := by
  have hfits : ∀ row ∈ [[Value.i64 5]], ∀ x ∈ row, x.Fits := by simp [Value.Fits]
  have hr : (after (Service.step intsHost plainRuntime ⟨false, 0⟩) ⟨∅, ∅⟩
      (seen (Server.step intsHost plainRuntime .done) (Server.see intsHost) ⟨Database.new, ∅⟩
        overlapping)).rels.lookup (plainRuntime.toLowercase "t") = some oneRow := rfl
  exact batch_whole plainRuntime_sorting plainRuntime_partitions (represents_nothing .done)
    overlapping_allowed rfl rfl hr rfl hfits (by decide) ⟨[], F64.zero⟩

end Veldb
