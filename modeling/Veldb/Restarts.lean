import Veldb.FailedWrites
import Veldb.Sessions

/-! A server on a data directory: statements, snapshots and restarts in any order. The rows in memory
and those the directory gives back differ by the batches that were refused halfway, and by nothing
else. -/

namespace Veldb

open Attempts Comparisons Simulation

variable {lower : String → String}

/-- The rows a server answers from, and those its directory gives back. -/
structure Kept where
  mode : Mode
  now : Relations
  kept : Relations

inductive Event where
  | statement (stmt : Sa.Statement)
  | snapshot (tables : List Table)
  | restart (durability : Durability) (limit : UInt64)

inductive Reply where
  | answer (r : Exec QueryResult)
  | taken (r : Exec UInt64)
  | opened (r : Exec Unit)

namespace Database

/-- The server opens its directory and then sets the limit. -/
def start (lower : String → String) (dir : Dir) (durability : Durability) (limit : UInt64) :
    Exec Database := do
  let db ← openDir lower dir durability
  return { db with memoryLimit := limit }

def serve (tx : Texts) (rt : Runtime) (db : Database) : Event → Reply × Database
  | .statement stmt => (.answer (db.execute tx rt .done stmt).1, (db.execute tx rt .done stmt).2)
  | .snapshot tables => (.taken (db.snapshot tables).1, (db.snapshot tables).2)
  | .restart durability limit =>
    match start rt.toLowercase db.close durability limit with
    | .ok db' => (.opened (.ok ()), db')
    | .error e => (.opened (.error e), db)

end Database

namespace Kept

/-- What is answered is kept. A batch refused halfway is in memory only, until a snapshot keeps it or
a restart forgets it. -/
def serve (tx : Texts) (rt : Runtime) (s : Kept) : Event → Option QueryResult × Kept
  | .statement stmt =>
    let r := s.now.execute tx rt s.mode stmt
    (r.1, ⟨s.mode, r.2, if r.1.isSome then (s.kept.execute tx rt ⟨false, 0⟩ stmt).2 else s.kept⟩)
  | .snapshot _ => (none, { s with kept := s.now })
  | .restart _ limit => (none, ⟨⟨false, limit⟩, s.kept, s.kept⟩)

end Kept

namespace Relations

/-- What a record of the log does to the rows. -/
def apply (lower : String → String) (m : Relations) : WalRecord → Relations
  | .createTable name schema =>
    match h : schema.validate with
    | .ok () => Finmap.insert (lower name) (Relation.new name schema h) m
    | .error _ => m
  | .dropTable name => m.erase (lower name)
  | .insert table rows =>
    match m.lookup (lower table) with
    | none => m
    | some r => Finmap.insert (lower table) (r.insert rows) m

variable {m : Relations} {name : String} {schema : Schema}

theorem apply_create (h : schema.validate = .ok ()) :
    m.apply lower (.createTable name schema) =
      Finmap.insert (lower name) (Relation.new name schema h) m := by
  rw [apply]
  split
  · rfl
  · next e he => exact nomatch h.symm.trans he

theorem apply_create_refused {e : Fault} (h : schema.validate = .error e) :
    m.apply lower (.createTable name schema) = m := by
  rw [apply]
  split
  · next hv => exact nomatch h.symm.trans hv
  · rfl

end Relations

section Records

variable {m : Catalog} {rels : Relations}

theorem represents_apply (h : m.Represents rels) {r : WalRecord} (hf : r.Fits) {m' : Catalog}
    (ha : m.apply lower r = (.ok (), m')) : m'.Represents (rels.apply lower r) := by
  cases r with
  | createTable name schema =>
    unfold Relations.apply
    dsimp only
    split
    · next hv =>
      obtain ⟨t, ht, hrep⟩ := @represents_new name schema hv
      have hname : t.name = name := hrep.name
      rw [Catalog.apply, ht] at ha
      obtain rfl := (Prod.mk.inj ha).2
      simp only [Catalog.putTable, hname]
      exact represents_insert h hrep _
    · next e hv =>
      rw [Catalog.apply, Table.new, hv] at ha
      cases (Prod.mk.inj ha).1
  | dropTable name =>
    obtain rfl := (Prod.mk.inj ha).2
    exact represents_erase h _
  | insert table rows =>
    obtain ⟨t, n, t', ht, hi, rfl⟩ := Catalog.apply_insert ha
    unfold Relations.apply
    dsimp only
    rcases represents_lookup h (lower table) with ⟨hnone, -⟩ | ⟨t₀, r, ht₀, hr, htr⟩
    · cases hnone.symm.trans ht
    · obtain rfl := Option.some.inj (ht₀.symm.trans ht)
      rw [hr]
      have hrep := (represents_insertMany htr hf (Table.reserves_of_insertMany hi)).1
      rw [hi] at hrep
      exact represents_insert h hrep (lower table)

end Records

section Sound

theorem insertEach_shaped {t : Table} {rows : List (List Value)} (ht : t.Shape)
    (hv : ∀ row ∈ rows, ∀ v ∈ row, v.Fits) : (t.insertEach rows).2.Shape := by
  induction rows generalizing t with
  | nil => exact ht
  | cons row rows ih =>
    obtain ⟨hrow, hrows⟩ := List.forall_mem_cons.mp hv
    rw [Table.insertEach]
    by_cases ha : t.schema.Accepts row
    · have hone : ∀ r ∈ [row], t.schema.Accepts r := List.forall_mem_singleton.mpr ha
      obtain ⟨cs, hins, -, -⟩ := Table.insert_accepted ht.isTyped ha
      rw [hins]
      refine ih (@Table.insertEach_shape _ _ [row] ht hone
        (List.forall_mem_singleton.mpr hrow) ?_) hrows
      rw [Table.insertEach, hins]
      rfl
    · obtain ⟨e, hrej⟩ := Table.insert_rejected ht.isTyped ha
      rw [hrej]
      exact ht

theorem insertMany_shaped {t : Table} {rows : List (List Value)} (ht : t.Shape)
    (hv : ∀ row ∈ rows, ∀ v ∈ row, v.Fits) : (t.insertMany rows).2.Shape := by
  rcases t.insertMany_snd rows with h | h
  · rw [h]
    exact ht
  · rw [h]
    exact insertEach_shaped ht hv

theorem insertMany_name {t : Table} (ht : t.Typed) (rows : List (List Value)) :
    (t.insertMany rows).2.name = t.name := by
  by_cases hroom : t.Reserves rows.length
  swap
  · obtain ⟨place, hi⟩ := Table.insertMany_unreserved hroom
    rw [hi]
  rcases t.schema.accepts_or_split rows with hall | ⟨good, bad, rest, rfl, hg, hb⟩
  · obtain ⟨t', hi, -, happ⟩ := Table.insertMany_accepted ht hall hroom
    rw [hi, happ.name]
  · obtain ⟨m, t', hi, happ⟩ := Table.insertMany_rejected ht hg hb hroom
    rw [hi, happ.name]

/-- Also a batch that is refused halfway leaves the tables in order. -/
theorem insertInner_sound {m : Catalog} (h : m.Sound lower) (name : String) {rows : List (List Value)}
    (hv : ∀ row ∈ rows, ∀ v ∈ row, v.Fits) : (m.insertInner lower name rows).2.Sound lower := by
  unfold Catalog.insertInner Catalog.table
  cases ht : m.lookup (lower name) with
  | none => exact h
  | some t =>
    have hshape := h.shaped _ _ ht
    refine h.setSlot (s := some (t.insertMany rows).2) fun t' ht' => ?_
    obtain rfl := Option.some.inj ht'
    rw [insertMany_name hshape.isTyped]
    exact ⟨h.keyed _ _ ht, insertMany_shaped hshape hv⟩

theorem enter_sound {db : Database} (h : db.tables.Sound lower) {c : Call} (hf : c.record.Fits) :
    (db.enter lower c).2.tables.Sound lower := by
  rcases he : db.enter lower c with ⟨e | r, db'⟩
  · cases c with
    | insertRows name rows =>
      unfold Database.enter at he
      dsimp only at he
      split at he
      · obtain ⟨-, rfl⟩ := Prod.mk.inj he
        exact h
      · split at he
        · obtain ⟨-, rfl⟩ := Prod.mk.inj he
          exact h
        · split at he
          · next e' m hi =>
            obtain ⟨-, rfl⟩ := Prod.mk.inj he
            have hsound := insertInner_sound h name hf
            rwa [hi] at hsound
          · cases he
    | createTable name schema =>
      unfold Database.enter at he
      dsimp only at he
      repeat' split at he
      all_goals cases he
      all_goals exact h
    | dropTable name =>
      unfold Database.enter at he
      dsimp only at he
      repeat' split at he
      all_goals cases he
      exact h
  · rcases Database.enter_ok he with ⟨-, rfl⟩ | ⟨r', m, rfl, ha, rfl⟩
    · exact h
    · obtain ⟨rfl, -⟩ := Database.enter_some (fun k t ht => (h.shaped k t ht).isTyped) he
      exact h.apply hf ha

theorem log_tables (io : AppendIo) (db : Database) (r : WalRecord) :
    (db.log lower io r).2.tables = db.tables := by
  unfold Database.log
  cases db.store with
  | none => rfl
  | some s =>
    dsimp only
    cases r.encode (db.tables.schemaOf lower) with
    | error e => rfl
    | ok payload =>
      dsimp only
      rcases s.wal.append io payload with ⟨e | lsn, wal⟩ <;> rfl

theorem call_sound {db : Database} (h : db.tables.Sound lower) {c : Call} (hf : c.record.Fits)
    (io : AppendIo) : (db.call lower io c).2.tables.Sound lower := by
  have hs := enter_sound h hf
  rw [Database.call_eq]
  rcases he : db.enter lower c with ⟨e | _ | r, db'⟩
  · rwa [he] at hs
  · rwa [he] at hs
  · rw [he] at hs
    exact (log_tables io db' r).symm ▸ hs

end Sound

namespace Statement

/-- The call that a planned statement comes to. -/
def call (lower : String → String) (db : Database) : Statement → Option Call
  | .createTable name schema ifNotExists =>
    if ifNotExists ∧ (db.tables.table lower name).isSome then none else some (.createTable name schema)
  | .dropTable name _ => some (.dropTable name)
  | .insert table columns rows =>
    (columns.elim (.ok rows) (fun names => reorder lower table names rows db)).toOption.map
      (.insertRows table)
  | _ => none

end Statement

/-- What a statement writes to the log can be read back from it. -/
def Database.SafelyRuns (tx : Texts) (rt : Runtime) (db : Database) (stmt : Sa.Statement) : Prop :=
  ∀ plan, planStatement tx (db.tables.schemaOf rt.toLowercase) stmt = .ok plan →
    ∀ c ∈ plan.call rt.toLowercase db, ∀ r ∈ db.toLog rt.toLowercase c, db.LogsSafely rt.toLowercase r

structure Database.Keeps (lower : String → String) (db : Database) (s : Kept) : Prop where
  now : db.Represents .done s.mode s.now
  sound : db.tables.Sound lower
  tracked : ∃ m, db.Tracks lower m ∧ m.Represents s.kept

section Calls

variable {db : Database} {m : Catalog} {kept : Relations} {c : Call}

/-- What memory took is taken by whatever has no more rows. -/
theorem applied_of_call (h : db.tables.Alike m) {u : Unit} (hok : (db.call lower .done c).1 = .ok u) :
    ∃ m', m.apply lower c.record = (.ok (), m') := by
  rw [Database.call_eq] at hok
  rcases he : db.enter lower c with ⟨e | _ | r, db'⟩
  · rw [he] at hok
    cases hok
  · obtain ⟨-, name, rfl, -⟩ := Database.enter_none he
    exact ⟨_, rfl⟩
  · obtain ⟨rfl, -⟩ := Database.enter_some (fun k t ht => h.typed ht) he
    rcases Database.enter_ok he with ⟨hnone, -⟩ | ⟨r', m₁, hr', ha, -⟩
    · cases hnone
    · obtain rfl := Option.some.inj hr'
      obtain ⟨m', ha', -⟩ := h.apply ha
      exact ⟨m', ha'⟩

/-- A call that succeeds is kept as its record, and one that fails is not. -/
theorem tracks_call (ht : db.Tracks lower m) (hm : m.Represents kept) (hf : c.record.Fits)
    (hlog : ∀ r ∈ db.toLog lower c, db.LogsSafely lower r) :
    (∀ u, (db.call lower .done c).1 = .ok u → ∃ m', (db.call lower .done c).2.Tracks lower m' ∧
      m'.Represents (kept.apply lower c.record)) ∧
    ∀ e, (db.call lower .done c).1 = .error e → (db.call lower .done c).2.Tracks lower m := by
  have hstep := @Database.Tracks.step _ _ _ c false ht nofun fun _ => hlog
  simp only [appendIo, Bool.false_eq_true, if_false] at hstep
  constructor
  · intro u hu
    rw [hu] at hstep
    obtain ⟨m', ha⟩ := applied_of_call ht.alike hu
    have heffect : c.effect lower (.ok u) m = m' := by rw [Call.effect, ha]
    rw [heffect] at hstep
    exact ⟨m', hstep, represents_apply hm hf ha⟩
  · intro e he
    rwa [he] at hstep

end Calls

section Statements

variable {io : AppendIo} {mode : Mode} {db : Database} {rels kept : Relations} {m : Catalog}

/-- Memory and the directory have the same tables with the same columns. -/
theorem schemas_alike (h : db.tables.Represents rels) (ha : db.tables.Alike m) (hm : m.Represents kept) :
    ∀ k, (rels.lookup k).map Relation.schema = (kept.lookup k).map Relation.schema := by
  intro k
  rw [← represents_map h (fun _ _ htr => htr.schema) k, ← represents_map hm (fun _ _ htr => htr.schema) k]
  cases ht : db.tables.lookup k with
  | none => rw [ha.lookup_none ht]
  | some t =>
    obtain ⟨t', ht', halike⟩ := ha.lookup ht
    rw [ht', Option.map_some, Option.map_some, halike.schema]

theorem answers_isSome {res : Exec QueryResult} {ans : Option QueryResult} (h : Answers false res ans) :
    ans.isSome = true ↔ ∃ r, res = .ok r := by
  constructor
  · intro hs
    obtain ⟨r, hr⟩ := Option.isSome_iff_exists.mp hs
    exact ⟨r, h.2 rfl r hr⟩
  · rintro ⟨r, hr⟩
    rw [h.1 r hr]
    rfl

/-- What is kept of a statement, given how it ended. -/
structure Keeping (lower : String → String) (db' : Database) (answered : Bool) (done kept : Relations) :
    Prop where
  sound : db'.tables.Sound lower
  tracked : ∃ m, db'.Tracks lower m ∧ m.Represents (if answered then done else kept)

theorem keeping_same (hs : db.tables.Sound lower) (ht : db.Tracks lower m) (hm : m.Represents kept)
    (answered : Bool) : Keeping lower db answered kept kept :=
  ⟨hs, m, ht, by rwa [ite_self]⟩

theorem keeping_call (hs : db.tables.Sound lower) (ht : db.Tracks lower m) (hm : m.Represents kept)
    {c : Call} {answered : Bool} {done : Relations} (hf : c.record.Fits)
    (hlog : ∀ r ∈ db.toLog lower c, db.LogsSafely lower r)
    (hended : answered = true ↔ ∃ u, (db.call lower .done c).1 = .ok u)
    (hdone : answered = true → done = kept.apply lower c.record) :
    Keeping lower (db.call lower .done c).2 answered done kept := by
  obtain ⟨hok, herr⟩ := tracks_call ht hm hf hlog
  refine ⟨call_sound hs hf .done, ?_⟩
  cases hc : (db.call lower .done c).1 with
  | error e =>
    have hno : ¬ answered = true := by simp [hended, hc]
    rw [if_neg hno]
    exact ⟨m, herr e hc, hm⟩
  | ok u =>
    have hyes : answered = true := hended.mpr ⟨u, hc⟩
    rw [if_pos hyes, hdone hyes]
    exact hok u hc

theorem create_keeps (h : db.Represents .done mode rels) (hs : db.tables.Sound lower)
    (ht : db.Tracks lower m) (hm : m.Represents kept) {name : String} {schema : Schema}
    {ifNotExists : Bool} (hlog : ∀ c ∈ (Statement.createTable name schema ifNotExists).call lower db,
      ∀ r ∈ db.toLog lower c, db.LogsSafely lower r) :
    Keeping lower (db.runCreateTable lower .done name schema ifNotExists).2
      (rels.create lower mode name schema ifNotExists).1.isSome
      (kept.create lower ⟨false, 0⟩ name schema ifNotExists).2 kept := by
  have hrefines : Refines .done mode false (db.runCreateTable lower .done name schema ifNotExists)
      (rels.create lower mode name schema ifNotExists) := create_refines h name schema ifNotExists
  have hrels := represents_isSome h.tables (lower name)
  have hkept := congrArg Option.isSome (schemas_alike h.tables ht.alike hm (lower name))
  rw [Option.isSome_map, Option.isSome_map] at hkept
  by_cases hp : ifNotExists = true ∧ (db.tables.lookup (lower name)).isSome = true
  · have hsame : (kept.create lower ⟨false, 0⟩ name schema ifNotExists).2 = kept := by
      rw [Relations.create, if_pos (by rw [← hkept, ← hrels, hp.2])]
    rw [hsame, Database.runCreateTable, Catalog.table, if_pos hp]
    exact keeping_same hs ht hm _
  · have hcall : (Statement.createTable name schema ifNotExists).call lower db =
        some (.createTable name schema) := if_neg hp
    have hended : (rels.create lower mode name schema ifNotExists).1.isSome = true ↔
        ∃ u, (db.createTable lower .done name schema).1 = .ok u := by
      rw [answers_isSome hrefines.answer, Database.runCreateTable, Catalog.table, if_neg hp]
      rcases db.createTable lower .done name schema with ⟨e | u, db'⟩ <;> simp
    have hstate : (db.runCreateTable lower .done name schema ifNotExists).2 =
        (db.call lower .done (.createTable name schema)).2 := by
      rw [Database.runCreateTable, Catalog.table, if_neg hp, Database.call]
      rcases db.createTable lower .done name schema with ⟨e | u, db'⟩ <;> rfl
    rw [hstate]
    refine keeping_call hs ht hm trivial (hlog _ hcall) hended fun hyes => ?_
    have hnew : ¬ (kept.lookup (lower name)).isSome = true := by
      intro hold
      rw [← hkept] at hold
      rw [Relations.create, if_pos hold] at hyes
      cases ifNotExists with
      | true => exact hp ⟨rfl, hrels.trans hold⟩
      | false => cases hyes
    rw [Relations.create, if_neg hnew, if_neg (by simp), Call.record]
    split
    · next hv => exact (Relations.apply_create hv).symm
    · next e he => exact (Relations.apply_create_refused he).symm

theorem drop_keeps (h : db.Represents .done mode rels) (hs : db.tables.Sound lower)
    (ht : db.Tracks lower m) (hm : m.Represents kept) {name : String} {ifExists : Bool}
    (hlog : ∀ c ∈ (Statement.dropTable name ifExists).call lower db,
      ∀ r ∈ db.toLog lower c, db.LogsSafely lower r) :
    Keeping lower (db.runDropTable lower .done name ifExists).2
      (rels.drop lower mode name ifExists).1.isSome
      (kept.drop lower ⟨false, 0⟩ name ifExists).2 kept := by
  have hrefines : Refines .done mode false (db.runDropTable lower .done name ifExists)
      (rels.drop lower mode name ifExists) := drop_refines h name ifExists
  have hrels := represents_isSome h.tables (lower name)
  have hkept := congrArg Option.isSome (schemas_alike h.tables ht.alike hm (lower name))
  rw [Option.isSome_map, Option.isSome_map] at hkept
  cases hex : (db.tables.lookup (lower name)).isSome with
  | false =>
    have hstate : (db.runDropTable lower .done name ifExists).2 = db := by
      unfold Database.runDropTable Database.dropTable
      cases db.denyIfReadOnly "DROP TABLE" with
      | error e => rfl
      | ok u =>
        simp only [Catalog.dropTableInner, hex]
        split <;> rfl
    have hnone : kept.lookup (lower name) = none := by
      rw [← Option.not_isSome_iff_eq_none, ← hkept, ← hrels, hex]
      exact Bool.false_ne_true
    have hsame : (kept.drop lower ⟨false, 0⟩ name ifExists).2 = kept := by
      unfold Relations.drop
      rw [if_neg (by simp)]
      split
      · exact erase_absent hnone
      · rfl
    rw [hstate, hsame]
    exact keeping_same hs ht hm _
  | true =>
    have hended : (rels.drop lower mode name ifExists).1.isSome = true ↔
        ∃ u, (db.call lower .done (.dropTable name)).1 = .ok u := by
      rw [answers_isSome hrefines.answer, Database.runDropTable, Database.call, Database.dropTable]
      cases db.denyIfReadOnly "DROP TABLE" with
      | error e => simp [Except.map]
      | ok u =>
        simp only [Catalog.dropTableInner, hex]
        rcases Database.log lower .done { db with tables := db.tables.erase (lower name) }
          (.dropTable name) with ⟨e | u, db'⟩ <;> simp [Except.map]
    have hstate : (db.runDropTable lower .done name ifExists).2 =
        (db.call lower .done (.dropTable name)).2 := by
      rw [Database.runDropTable, Database.call]
      rcases db.dropTable lower .done name with ⟨e | dropped, db'⟩
      · rfl
      · dsimp only
        split <;> rfl
    rw [hstate]
    refine keeping_call hs ht hm trivial (hlog _ rfl) hended fun _ => ?_
    rw [Relations.drop, if_neg (by simp), if_pos (by rw [← hkept, ← hrels, hex]; rfl)]
    rfl

/-- The rows that reach the tables are those of the statement in the order of the columns. -/
theorem rows_arranged (h : db.Represents io mode rels) {table : String}
    {columns : Option (List String)} {rows rows' : List (List Value)}
    (hlens : ∀ names ∈ columns, ∀ row ∈ rows, row.length = names.length)
    (hfits : ∀ row ∈ rows, ∀ v ∈ row, v.Fits)
    (hrows : columns.elim (.ok rows) (fun names => reorder lower table names rows db) = .ok rows') :
    (∀ row ∈ rows', ∀ v ∈ row, v.Fits) ∧
      ∀ r ∈ rels.lookup (lower table), r.schema.arranged columns rows = some rows' := by
  cases columns with
  | none =>
    obtain rfl := Except.ok.inj hrows
    exact ⟨hfits, fun _ _ => rfl⟩
  | some names =>
    rw [Option.elim_some] at hrows
    rcases represents_lookup h.tables (lower table) with ⟨ht, -⟩ | ⟨t, r, -, hr, -⟩
    · simp only [reorder, Catalog.schemaOf, Catalog.table, ht] at hrows
      cases hrows
    · rcases reorder_arranged h hr (hlens names rfl) with ⟨rows₁, hok, harr, hmem⟩ | ⟨e, herr, -⟩
      · obtain rfl := Except.ok.inj (hok.symm.trans hrows)
        refine ⟨fun row hrow v hv => ?_, fun r' hr' => ?_⟩
        · obtain ⟨row', hrow', hv'⟩ := hmem row hrow v hv
          exact hfits row' hrow' v hv'
        · obtain rfl := Option.some.inj (hr.symm.trans hr')
          exact harr
      · rw [herr] at hrows
        cases hrows

theorem insert_keeps (h : db.Represents .done mode rels) (hs : db.tables.Sound lower)
    (ht : db.Tracks lower m) (hm : m.Represents kept) {table : String} {columns : Option (List String)}
    {rows : List (List Value)} (hlens : ∀ names ∈ columns, ∀ row ∈ rows, row.length = names.length)
    (htakes : rels.Takes lower table rows)
    (hlog : ∀ c ∈ (Statement.insert table columns rows).call lower db,
      ∀ r ∈ db.toLog lower c, db.LogsSafely lower r) :
    Keeping lower (db.runInsert lower .done table columns rows).2
      (rels.insert lower mode table columns rows).1.isSome
      (kept.insert lower ⟨false, 0⟩ table columns rows).2 kept := by
  have hrefines : Refines .done mode false (db.runInsert lower .done table columns rows)
      (rels.insert lower mode table columns rows) := insert_refines h table columns hlens htakes
  have hans := answers_isSome hrefines.answer
  cases hrows : columns.elim (.ok rows) (fun names => reorder lower table names rows db) with
  | error e =>
    have hrun : db.runInsert lower .done table columns rows = (.error e, db) := by
      rw [Database.runInsert, hrows]
    rw [hrun] at hans ⊢
    refine ⟨hs, m, ht, ?_⟩
    rw [if_neg (by simp [hans])]
    exact hm
  | ok rows' =>
    have hcall : (Statement.insert table columns rows).call lower db = some (.insertRows table rows') := by
      rw [Statement.call, hrows]
      rfl
    have hstate : (db.runInsert lower .done table columns rows).2 =
        (db.call lower .done (.insertRows table rows')).2 := by
      simp only [Database.runInsert, hrows, Database.call]
      rcases db.insertRows lower .done table rows' with ⟨e | n, db'⟩ <;> rfl
    have hended : (rels.insert lower mode table columns rows).1.isSome = true ↔
        ∃ u, (db.call lower .done (.insertRows table rows')).1 = .ok u := by
      simp only [hans, Database.runInsert, hrows, Database.call]
      rcases db.insertRows lower .done table rows' with ⟨e | n, db'⟩ <;> simp [Except.map]
    rw [hstate]
    obtain ⟨hfits', harr⟩ := rows_arranged h hlens htakes.1 hrows
    refine keeping_call hs ht hm hfits' (hlog _ hcall) hended fun hyes => ?_
    cases hr : rels.lookup (lower table) with
    | none =>
      rw [Relations.insert, hr] at hyes
      cases hyes
    | some r =>
      have hschemas := schemas_alike h.tables ht.alike hm (lower table)
      rw [hr, Option.map_some] at hschemas
      obtain ⟨r', hr', hschema⟩ := Option.map_eq_some_iff.mp hschemas.symm
      have harr' : r'.schema.arranged columns rows = some rows' := hschema ▸ harr r hr
      have hmode : ¬ (Mode.readOnly ⟨false, 0⟩ = true ∨ kept.Full ⟨false, 0⟩) := by
        simp [Relations.Full]
      simp only [Relations.insert, Relations.apply, Call.record, hr', harr', if_neg hmode]

end Statements

section Serving

variable {tx : Texts} {rt : Runtime} {mode : Mode} {db : Database} {rels kept : Relations}
  {m : Catalog} {s : Kept}

theorem run_keeps (h : db.Represents .done mode rels) (hs : db.tables.Sound rt.toLowercase)
    (ht : db.Tracks rt.toLowercase m) (hm : m.Represents kept) {plan : Statement}
    (hshape : plan.Shaped) (hpermits : rels.Permits rt plan)
    (hlog : ∀ c ∈ plan.call rt.toLowercase db, ∀ r ∈ db.toLog rt.toLowercase c,
      db.LogsSafely rt.toLowercase r) :
    Keeping rt.toLowercase (db.run rt .done plan).2 (rels.run rt mode plan).1.isSome
      (kept.run rt ⟨false, 0⟩ plan).2 kept := by
  cases plan with
  | createTable name schema ifNotExists => exact create_keeps h hs ht hm hlog
  | dropTable name ifExists => exact drop_keeps h hs ht hm hlog
  | insert table columns rows => exact insert_keeps h hs ht hm hshape hpermits hlog
  | select plan => exact keeping_same hs ht hm _
  | showTables => exact keeping_same hs ht hm _
  | describe name => exact keeping_same hs ht hm _

theorem execute_keeps (hrt : rt.Sorting) (hsel : Partitions rt.selectNthUnstableBy)
    (h : db.Keeps rt.toLowercase s) {stmt : Sa.Statement} (hok : s.now.Admits tx rt stmt)
    (hsafe : db.SafelyRuns tx rt stmt) :
    (db.execute tx rt .done stmt).2.Keeps rt.toLowercase (s.serve tx rt (.statement stmt)).2 := by
  obtain ⟨hnow, hsound, m, ht, hm⟩ := h
  have hstate := (execute_refines hrt hsel hnow hok).state
  have hschemas : s.kept.schemaOf rt.toLowercase = s.now.schemaOf rt.toLowercase :=
    funext fun name => (schemas_alike hnow.tables ht.alike hm _).symm
  suffices hkeep : Keeping rt.toLowercase (db.execute tx rt .done stmt).2
      (s.now.execute tx rt s.mode stmt).1.isSome (s.kept.execute tx rt ⟨false, 0⟩ stmt).2 s.kept from
    ⟨hstate, hkeep.sound, hkeep.tracked⟩
  unfold Database.SafelyRuns at hsafe
  unfold Relations.Admits at hok
  unfold Database.execute Relations.execute
  rw [represents_schemaOf hnow.tables] at hsafe ⊢
  rw [hschemas]
  cases hplan : planStatement tx (s.now.schemaOf rt.toLowercase) stmt with
  | error e => exact keeping_same hsound ht hm _
  | ok plan =>
    exact run_keeps hnow hsound ht hm (planStatement_shaped hplan).1 (hok plan hplan)
      (hsafe plan hplan)

theorem snapshot_keeps (h : db.Keeps lower s) {tables : List Table} (hl : db.tables.Lists tables)
    (hstores : Database.StoresSafely tables) :
    (∃ lsn, (db.snapshot tables).1 = .ok lsn) ∧
      (db.snapshot tables).2.Keeps lower { s with kept := s.now } := by
  obtain ⟨hnow, hsound, m, ht, -⟩ := h
  obtain ⟨st, base, mark, rs, hrec⟩ := ht.recovers
  have hstored : db.store = some st := hrec.stored
  have hinv : ∀ t ∈ tables, t.Inv := by
    intro t hmem
    obtain ⟨k, hk⟩ := (Catalog.lists_mem hl t).mp hmem
    exact (hsound.shaped k t hk).inv (hstores.1 t hmem)
  obtain ⟨bytes, henc, -⟩ := decodeSnapshot_encodeSnapshot (st.wal.nextLsn - 1) hinv hstores.2
  have hcall : db.snapshot tables = (.ok (st.wal.nextLsn - 1),
      { db with store := some ⟨some bytes, none, st.wal.reset⟩ }) := by
    simp only [Database.snapshot, hstored, henc]
  obtain ⟨_, _, _, hrec'⟩ := recovers_snapshot hstored hsound hl hstores.1 hstores.2 hcall
  rw [hcall]
  exact ⟨⟨_, rfl⟩, ⟨hnow.tables, hnow.mode, fun _ _ => trivial⟩, hsound, db.tables,
    ⟨⟨_, _, _, _, hrec'⟩, hsound.alike⟩, hnow.tables⟩

theorem restart_keeps (h : db.Keeps lower s) (d : Durability) (limit : UInt64) :
    ∃ db', Database.start lower db.close d limit = .ok db' ∧
      db'.Keeps lower ⟨⟨false, limit⟩, s.kept, s.kept⟩ := by
  obtain ⟨-, -, m, ht, hm⟩ := h
  obtain ⟨st, base, mark, rs, hrec⟩ := ht.recovers
  have hopen := hrec.openDir d
  have hrec' := (hrec.restart hopen).2
  exact ⟨_, bind_pure_eq_ok.mpr ⟨_, hopen, rfl⟩, ⟨hm, rfl, fun _ _ => trivial⟩, hrec.sound, m,
    ⟨⟨_, _, _, _, hrec'.stored, hrec'.sound, hrec'.based, hrec'.logged, hrec'.payloads, hrec'.replayed,
      hrec'.ordered, hrec'.next⟩, hrec.sound.alike⟩, hm⟩

/-- What has to be seen to from outside: the statements, the room for a snapshot. -/
def Kept.Allows (tx : Texts) (rt : Runtime) (db : Database) (s : Kept) : Event → Prop
  | .statement stmt => s.now.Admits tx rt stmt ∧ db.SafelyRuns tx rt stmt
  | .snapshot tables => db.tables.Lists tables ∧ Database.StoresSafely tables
  | .restart _ _ => True

/-- Statements are answered as they should be; snapshots are taken and the directory opens. -/
def Event.Agrees : Event → Reply → Option QueryResult → Prop
  | .statement stmt, .answer r, ans => Answers stmt.isQuery r ans
  | .snapshot _, .taken r, _ => ∃ lsn, r = .ok lsn
  | .restart _ _, .opened r, _ => r = .ok ()
  | _, _, _ => False

theorem serve_keeps (hrt : rt.Sorting) (hsel : Partitions rt.selectNthUnstableBy)
    (h : db.Keeps rt.toLowercase s) {e : Event} (hok : s.Allows tx rt db e) :
    e.Agrees (db.serve tx rt e).1 (s.serve tx rt e).1 ∧
      (db.serve tx rt e).2.Keeps rt.toLowercase (s.serve tx rt e).2 := by
  cases e with
  | statement stmt =>
    exact ⟨(execute_refines hrt hsel h.now hok.1).answer, execute_keeps hrt hsel h hok.1 hok.2⟩
  | snapshot tables => exact snapshot_keeps h hok.1 hok.2
  | restart d limit =>
    obtain ⟨db', hstart, hkeeps⟩ := restart_keeps h d limit
    simp only [Database.serve, hstart]
    exact ⟨rfl, hkeeps⟩

/-- Where a statement is answered, the mode has not held it back. -/
theorem execute_free {stmt : Sa.Statement} (h : (rels.execute tx rt mode stmt).1.isSome = true) :
    (rels.execute tx rt ⟨false, 0⟩ stmt).2 = (rels.execute tx rt mode stmt).2 := by
  unfold Relations.execute at h ⊢
  cases hplan : planStatement tx (rels.schemaOf rt.toLowercase) stmt with
  | error e => rfl
  | ok plan =>
    simp only [hplan] at h ⊢
    cases plan with
    | createTable name schema ifNotExists =>
      simp only [Relations.run, Relations.create] at h ⊢
      by_cases hex : (rels.lookup (rt.toLowercase name)).isSome = true
      · rw [if_pos hex, if_pos hex]
      · rw [if_neg hex] at h ⊢
        rw [if_neg (by simp)]
        by_cases hro : mode.readOnly = true
        · simp [hro] at h
        · rw [if_neg hex, if_neg hro]
    | dropTable name ifExists =>
      simp only [Relations.run, Relations.drop] at h ⊢
      by_cases hro : mode.readOnly = true
      · simp [hro] at h
      · rw [if_neg hro, if_neg (by simp)]
    | insert table columns rows =>
      simp only [Relations.run, Relations.insert] at h ⊢
      cases hr : rels.lookup (rt.toLowercase table) with
      | none => rfl
      | some r =>
        simp only [hr] at h ⊢
        cases harr : r.schema.arranged columns rows with
        | none => rfl
        | some rows' =>
          simp only [harr] at h ⊢
          have hfree : ¬ (Mode.readOnly ⟨false, 0⟩ = true ∨ rels.Full ⟨false, 0⟩) := by
            simp [Relations.Full]
          by_cases hheld : mode.readOnly = true ∨ rels.Full mode
          · simp [hheld] at h
          · rw [if_neg hheld, if_neg hfree]
    | _ => rfl

theorem query_changes_nothing {stmt : Sa.Statement} (rels : Relations) (h : stmt.isQuery = true) :
    (rels.execute tx rt mode stmt).2 = rels := by
  unfold Relations.execute
  cases hplan : planStatement tx (rels.schemaOf rt.toLowercase) stmt with
  | error e => rfl
  | ok plan =>
    have hquery := (planStatement_shaped hplan).2.trans h
    cases plan with
    | select plan => rfl
    | _ => cases hquery

def Event.stmt : Event → Option Sa.Statement
  | .statement stmt => some stmt
  | _ => none

/-- No batch is refused halfway, and the server comes back as it was started. -/
def Relations.Allows (tx : Texts) (rt : Runtime) (mode : Mode) (db : Database) (rels : Relations) :
    Event → Prop
  | .statement stmt => rels.Admits tx rt stmt ∧ db.SafelyRuns tx rt stmt ∧
      ((rels.execute tx rt mode stmt).1 = none → (rels.execute tx rt mode stmt).2 = rels)
  | .snapshot tables => db.tables.Lists tables ∧ Database.StoresSafely tables
  | .restart _ limit => mode = ⟨false, limit⟩

/-- Clients cannot tell when snapshots were taken and when the server was restarted. -/
theorem restarts_unseen (hrt : rt.Sorting) (hsel : Partitions rt.selectNthUnstableBy)
    (h : db.Keeps rt.toLowercase ⟨mode, rels, rels⟩) {events : List Event}
    (hall : Allowed (Database.serve tx rt) (Relations.execute tx rt mode) (fun _ => Event.stmt)
      (Relations.Allows tx rt mode) db rels events) :
    List.Forall₂ (fun a b => a.1 = b.1 ∧ ∃ r, a.2 = .answer r ∧ Answers a.1.isQuery r b.2)
      (transcript (Database.serve tx rt) (fun _ => Event.stmt) db events)
      (transcript (Relations.execute tx rt mode) (fun _ => some) rels (events.filterMap Event.stmt)) ∧
    let last := after (Relations.execute tx rt mode) rels (events.filterMap Event.stmt)
    (after (Database.serve tx rt) db events).Keeps rt.toLowercase ⟨mode, last, last⟩ := by
  have hstep : Simulates (Database.serve tx rt) (Relations.execute tx rt mode) (fun _ => Event.stmt)
      (fun db rels => db.Keeps rt.toLowercase ⟨mode, rels, rels⟩) (Relations.Allows tx rt mode)
      (fun stmt reply ans => ∃ r, reply = .answer r ∧ Answers stmt.isQuery r ans) := by
    constructor
    · intro db rels e stmt h hok hsee
      cases e with
      | statement stmt' =>
        obtain rfl : stmt' = stmt := Option.some.inj hsee
        obtain ⟨hadmits, hsafe, hwhole⟩ := hok
        have hkeeps := execute_keeps hrt hsel h hadmits hsafe
        refine ⟨⟨_, rfl, (execute_refines hrt hsel h.now hadmits).answer⟩, ?_⟩
        change (db.execute tx rt .done stmt').2.Keeps rt.toLowercase
          ⟨mode, (rels.execute tx rt mode stmt').2, (rels.execute tx rt mode stmt').2⟩
        simp only [Kept.serve] at hkeeps
        cases hans : (rels.execute tx rt mode stmt').1 with
        | none => simpa [hans, hwhole hans] using hkeeps
        | some r =>
          have hfree := execute_free (Option.isSome_iff_exists.mpr ⟨r, hans⟩)
          simpa [hans, hfree] using hkeeps
      | snapshot tables => cases hsee
      | restart d limit => cases hsee
    · intro db rels e h hok hsee
      cases e with
      | statement stmt => cases hsee
      | snapshot tables => exact (snapshot_keeps h hok.1 hok.2).2
      | restart d limit =>
        obtain ⟨db', hstart, hkeeps⟩ := restart_keeps h d limit
        obtain rfl : mode = ⟨false, limit⟩ := hok
        simp only [Database.serve, hstart]
        exact hkeeps
  have hrun := hstep.run h hall
  rwa [seen_const] at hrun

end Serving

theorem keeps_freshDb (lower : String → String) :
    Database.freshDb.Keeps lower ⟨⟨false, 0⟩, ∅, ∅⟩ where
  now := ⟨fun _ => .none, rfl, fun _ _ => trivial⟩
  sound := Catalog.sound_empty
  tracked := by
    have hrec : Recovers lower Database.freshDb ⟨none, none, ⟨Wal.fileOf [], 1, .fsync⟩⟩ ∅ 0 [] :=
      ⟨rfl, Catalog.sound_empty, rfl, rfl, by simp, rfl, by simp, .inl rfl⟩
    exact ⟨∅, ⟨⟨_, _, _, _, hrec⟩, hrec.sound.alike⟩, fun _ => .none⟩

theorem safely_createInts {db : Database}
    (h : ∀ r ∈ db.toLog plainRuntime.toLowercase (.createTable "t" intsSchema),
      db.LogsSafely plainRuntime.toLowercase r) : db.SafelyRuns plainTexts plainRuntime createInts := by
  intro plan hplan c hc
  obtain rfl := Except.ok.inj ((plan_createInts _).symm.trans hplan)
  obtain rfl : Call.createTable "t" intsSchema = c := Option.some.inj hc
  exact h

theorem safely_insertInt {db : Database} {n : String} {k : Int64}
    (hschema : db.tables.schemaOf plainRuntime.toLowercase "t" = some intsSchema)
    (hn : plainLiteral plainTexts (.value (.number n)) = .ok (.i64 k))
    (h : ∀ r ∈ db.toLog plainRuntime.toLowercase (.insertRows "t" [[.i64 k]]),
      db.LogsSafely plainRuntime.toLowercase r) : db.SafelyRuns plainTexts plainRuntime (insertInt n) := by
  intro plan hplan c hc
  obtain rfl := Except.ok.inj ((plan_insertInt hschema hn).symm.trans hplan)
  obtain rfl : Call.insertRows "t" [[.i64 k]] = c := Option.some.inj hc
  exact h

theorem safely_selectInts {db : Database}
    (hschema : db.tables.schemaOf plainRuntime.toLowercase "t" = some intsSchema) :
    db.SafelyRuns plainTexts plainRuntime selectInts := by
  intro plan hplan c hc
  obtain rfl := Except.ok.inj ((plan_selectInts hschema).symm.trans hplan)
  cases hc

/-- A table, a row, a snapshot, another row, a restart and a query. -/
def intsEvents : List Event :=
  [.statement createInts, .statement (insertInt "1"), .snapshot [intsWith [1]],
    .statement (insertInt "2"), .restart .fsync 0, .statement selectInts]

theorem restarts_unseen_ints :
    List.Forall₂ (fun a b => a.1 = b.1 ∧ ∃ r, a.2 = .answer r ∧ Answers a.1.isQuery r b.2)
      (transcript (Database.serve plainTexts plainRuntime) (fun _ => Event.stmt) Database.freshDb intsEvents)
      (transcript (Relations.execute plainTexts plainRuntime ⟨false, 0⟩) (fun _ => some) ∅
        [createInts, insertInt "1", insertInt "2", selectInts]) := by
  suffices hall : Allowed (Database.serve plainTexts plainRuntime)
      (Relations.execute plainTexts plainRuntime ⟨false, 0⟩) (fun _ => Event.stmt)
      (Relations.Allows plainTexts plainRuntime ⟨false, 0⟩) Database.freshDb ∅ intsEvents from
    (restarts_unseen plainRuntime_sorting plainRuntime_partitions (keeps_freshDb _) hall).1
  refine ⟨?_, ?_, ?_, ?_, rfl, ?_, trivial⟩
  · exact ⟨admits_createInts _, safely_createInts (by decide +kernel),
      fun h => absurd h (by decide +kernel)⟩
  · exact ⟨admits_insertInt [] (k := 1) (by decide +kernel) (by decide) (by decide +kernel),
      safely_insertInt (k := 1) (by decide +kernel) (by decide +kernel) (by decide +kernel),
      fun h => absurd h (by decide +kernel)⟩
  · exact ⟨by decide +kernel, by decide +kernel⟩
  · exact ⟨admits_insertInt [[.i64 1]] (k := 2) (by decide +kernel) (by decide) (by decide +kernel),
      safely_insertInt (k := 2) (by decide +kernel) (by decide +kernel) (by decide +kernel),
      fun h => absurd h (by decide +kernel)⟩
  · exact ⟨admits_selectInts [[.i64 1], [.i64 2]] (by decide +kernel) (by decide),
      safely_selectInts (by decide +kernel), fun _ => query_changes_nothing _ rfl⟩

end Veldb
