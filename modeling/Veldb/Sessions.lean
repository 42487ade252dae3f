import Veldb.Library.Simulation
import Veldb.PlannedQueries
import Veldb.Statements
import Veldb.StoredRows

/-! A session of statements. The database of columns answers each as the tables of rows do, and goes
on to hold the rows that they do. -/

namespace Veldb

open Attempts Comparisons Simulation

variable {lower : String → String}

/-- Table by table, the catalog holds the relations. -/
def Catalog.Represents (m : Catalog) (rels : Relations) : Prop :=
  ∀ k, Option.Rel Table.Represents (m.lookup k) (rels.lookup k)

def Database.mode (db : Database) : Mode :=
  ⟨db.readOnly, db.memoryLimit⟩

structure Database.Represents (io : AppendIo) (mode : Mode) (db : Database) (rels : Relations) : Prop where
  tables : db.tables.Represents rels
  mode : db.mode = mode
  logs : db.Logs io

section Catalogs

variable {m : Catalog} {rels : Relations} {t : Table} {r : Relation}

theorem represents_insert (h : m.Represents rels) (ht : t.Represents r) (k : String) :
    Catalog.Represents (Finmap.insert k t m) (Finmap.insert k r rels) := by
  intro k'
  rw [Catalog.lookup_insert_eq]
  by_cases hk : k' = k
  · subst hk
    rw [if_pos rfl, Finmap.lookup_insert]
    exact .some ht
  · rw [if_neg hk, Finmap.lookup_insert_of_ne _ hk]
    exact h k'

theorem represents_erase (h : m.Represents rels) (k : String) :
    Catalog.Represents (m.erase k) (rels.erase k) := by
  intro k'
  rw [Catalog.lookup_erase_eq]
  by_cases hk : k' = k
  · subst hk
    rw [if_pos rfl, Finmap.lookup_erase]
    exact .none
  · rw [if_neg hk, Finmap.lookup_erase_ne hk]
    exact h k'

theorem represents_lookup (h : m.Represents rels) (k : String) :
    (m.lookup k = none ∧ rels.lookup k = none) ∨
      ∃ t r, m.lookup k = some t ∧ rels.lookup k = some r ∧ t.Represents r := by
  have hk := h k
  cases ht : m.lookup k with
  | none =>
    rw [ht] at hk
    cases hr : rels.lookup k with
    | none => exact .inl ⟨rfl, rfl⟩
    | some r =>
      rw [hr] at hk
      cases hk
  | some t =>
    rw [ht] at hk
    cases hr : rels.lookup k with
    | none =>
      rw [hr] at hk
      cases hk
    | some r =>
      rw [hr] at hk
      cases hk with
      | some htr => exact .inr ⟨t, r, rfl, rfl, htr⟩

theorem represents_isSome (h : m.Represents rels) (k : String) :
    (m.lookup k).isSome = (rels.lookup k).isSome := by
  rcases represents_lookup h k with ⟨ht, hr⟩ | ⟨t, r, ht, hr, -⟩ <;> rw [ht, hr] <;> rfl

theorem represents_map {α : Type} {f : Table → α} {g : Relation → α} (h : m.Represents rels)
    (hfg : ∀ t r, t.Represents r → f t = g r) (k : String) :
    (m.lookup k).map f = (rels.lookup k).map g := by
  rcases represents_lookup h k with ⟨ht, hr⟩ | ⟨t, r, ht, hr, htr⟩
  · rw [ht, hr]
    rfl
  · rw [ht, hr, Option.map_some, Option.map_some, hfg t r htr]

theorem entries_keys {α β : Type} (m : Finmap (fun _ : String => α)) (f : α → β) :
    m.entries.map (fun e => some (f e.2)) = m.keys.val.map (fun k => (m.lookup k).map f) := by
  change _ = (m.entries.map Sigma.fst).map _
  rw [Multiset.map_map]
  refine Multiset.map_congr rfl fun e he => ?_
  obtain ⟨k, a⟩ := e
  rw [Function.comp_apply, Finmap.mem_lookup_iff.mpr he]
  rfl

/-- What is read of all tables, in whatever order, is what is read of all relations. -/
theorem represents_entries {α : Type} {f : Table → α} {g : Relation → α} (h : m.Represents rels)
    (hfg : ∀ t r, t.Represents r → f t = g r) :
    m.entries.map (fun e => f e.2) = rels.entries.map (fun e => g e.2) := by
  have hkeys : m.keys = rels.keys := by
    ext k
    rw [Finmap.mem_keys, Finmap.mem_keys, ← Finmap.lookup_isSome, ← Finmap.lookup_isSome,
      represents_isSome h]
  refine Multiset.map_injective (Option.some_injective α) ?_
  rw [Multiset.map_map, Multiset.map_map]
  change m.entries.map (fun e => some (f e.2)) = rels.entries.map (fun e => some (g e.2))
  rw [entries_keys, entries_keys, hkeys]
  exact Multiset.map_congr rfl fun k _ => represents_map h hfg k

theorem represents_schemaOf (h : m.Represents rels) : m.schemaOf lower = rels.schemaOf lower :=
  funext fun name => represents_map h (fun _ _ htr => htr.schema) (lower name)

theorem represents_catalog_bytes (h : m.Represents rels) : m.bytesUsed = rels.bytesUsed := by
  unfold Catalog.bytesUsed Relations.bytesUsed
  rw [represents_entries h fun _ _ htr => represents_bytesUsed htr]

end Catalogs

section Log

variable {io : AppendIo} {db : Database}

theorem log_logs (h : db.Logs io) (r : WalRecord) : (db.log lower io r).2.Logs io := by
  unfold Database.log
  cases hs : db.store with
  | none => exact h
  | some s =>
    dsimp only
    cases r.encode (db.tables.schemaOf lower) with
    | error e => exact h
    | ok payload =>
      dsimp only
      have hdur : (s.wal.append io payload).2.durability = s.wal.durability := by
        unfold Wal.append
        cases io with
        | done => rfl
        | writeFails k => rfl
        | syncFails => dsimp only; split_ifs <;> rfl
      rcases happ : s.wal.append io payload with ⟨e | lsn, wal⟩
      · rw [happ] at hdur
        intro s' hs'
        obtain rfl := Option.some.inj hs'
        exact hdur ▸ h s hs
      · rw [happ] at hdur
        intro s' hs'
        obtain rfl := Option.some.inj hs'
        exact hdur ▸ h s hs

/-- A record that can be encoded is logged, and nothing but the log changes. -/
theorem log_represents {mode : Mode} {rels : Relations} (h : db.Represents io mode rels)
    {r : WalRecord} {payload : Bytes} (he : r.encode (db.tables.schemaOf lower) = .ok payload) :
    ∃ db', db.log lower io r = (.ok (), db') ∧ db'.Represents io mode rels := by
  obtain ⟨st, hst⟩ := Database.log_encoded db he h.logs
  have hlogs := @log_logs lower _ _ h.logs r
  rw [hst] at hlogs
  exact ⟨_, hst, h.tables, h.mode, hlogs⟩

end Log

/-- A refusal is told from an answer, but for a query that could have been refused: it may run into
an error that the rows do not show. -/
def Answers (query : Bool) (res : Exec QueryResult) (ans : Option QueryResult) : Prop :=
  (∀ r, res = .ok r → ans = some r) ∧ (query = false → ∀ r, ans = some r → res = .ok r)

structure Refines (io : AppendIo) (mode : Mode) (query : Bool) (c : Exec QueryResult × Database)
    (a : Option QueryResult × Relations) : Prop where
  answer : Answers query c.1 a.1
  state : c.2.Represents io mode a.2

theorem erase_absent {κ β : Type} [DecidableEq κ] {m : Finmap (fun _ : κ => β)} {k : κ}
    (h : m.lookup k = none) : m.erase k = m := by
  refine Finmap.ext_lookup fun k' => ?_
  by_cases hk : k' = k
  · rw [hk, Finmap.lookup_erase, h]
  · exact Finmap.lookup_erase_ne hk

section Statements

variable {io : AppendIo} {mode : Mode} {db db' : Database} {rels rels' : Relations} {query : Bool}

theorem refines_ok {r : QueryResult} (h : db.Represents io mode rels) :
    Refines io mode query (.ok r, db) (some r, rels) :=
  ⟨⟨fun _ hr => congrArg some (Except.ok.inj hr), fun _ _ hr => congrArg Except.ok (Option.some.inj hr)⟩, h⟩

theorem refines_error {e : Fault} (h : db.Represents io mode rels) :
    Refines io mode query (.error e, db) (none, rels) :=
  ⟨⟨nofun, fun _ => nofun⟩, h⟩

theorem deny_eq (h : db.mode = mode) (what : String) :
    db.denyIfReadOnly what = if mode.readOnly then
      bail s!"узел работает как реплика: {what} принимает только первичный узел" else .ok () := by
  subst h
  rfl

theorem createTable_refused {name : String} {schema : Schema}
    (h : db.readOnly = true ∨ schema.validate ≠ .ok () ∨ (db.tables.lookup (lower name)).isSome = true) :
    ∃ e, db.createTable lower io name schema = (.error e, db) := by
  unfold Database.createTable Database.denyIfReadOnly
  by_cases hro : db.readOnly = true
  · rw [if_pos hro]
    exact ⟨_, rfl⟩
  · rw [if_neg hro]
    cases hv : schema.validate with
    | error e => exact ⟨e, by rw [Table.new, hv]; rfl⟩
    | ok u =>
      have hsome := (h.resolve_left hro).resolve_left (not_not.mpr hv)
      refine ⟨.bail s!"таблица '{name}' уже существует", ?_⟩
      rw [Table.new, hv]
      change (if (db.tables.lookup (lower name)).isSome = true then _ else _) = _
      rw [if_pos hsome]
      rfl

theorem create_refines (h : db.Represents io mode rels) (name : String) (schema : Schema)
    (ifNotExists : Bool) : Refines io mode false (db.runCreateTable lower io name schema ifNotExists)
      (rels.create lower mode name schema ifNotExists) := by
  have hmode : db.readOnly = mode.readOnly := congrArg Mode.readOnly h.mode
  have hsome := represents_isSome h.tables (lower name)
  have hrefused : (db.readOnly = true ∨ schema.validate ≠ .ok () ∨
      (db.tables.lookup (lower name)).isSome = true) → ¬ (ifNotExists = true ∧
      (db.tables.lookup (lower name)).isSome = true) → Refines io mode false
        (db.runCreateTable lower io name schema ifNotExists) (none, rels) := by
    intro hr hno
    obtain ⟨e, he⟩ := @createTable_refused lower io _ _ _ hr
    unfold Database.runCreateTable Catalog.table
    rw [if_neg hno, he]
    exact refines_error h
  unfold Relations.create
  by_cases hex : (rels.lookup (lower name)).isSome = true
  · rw [if_pos hex]
    cases ifNotExists with
    | true =>
      unfold Database.runCreateTable Catalog.table
      rw [if_pos ⟨rfl, hsome.trans hex⟩]
      exact refines_ok h
    | false => exact hrefused (.inr (.inr (hsome.trans hex))) (by simp)
  · have hnew : ¬ (db.tables.lookup (lower name)).isSome = true := hsome ▸ hex
    rw [if_neg hex]
    by_cases hro : mode.readOnly = true
    · rw [if_pos hro]
      exact hrefused (.inl (hmode.trans hro)) fun hp => hnew hp.2
    · rw [if_neg hro]
      split
      · next hv =>
        obtain ⟨t, ht, hrep⟩ := @represents_new name _ hv
        have hstate : ({ db with tables := Finmap.insert (lower name) t db.tables } : Database).Represents
            io mode (Finmap.insert (lower name) (Relation.new name schema hv) rels) :=
          ⟨represents_insert h.tables hrep _, h.mode, h.logs⟩
        obtain ⟨db', hlog, hdb'⟩ := @log_represents lower _ _ _ _ hstate (.createTable name schema) _ rfl
        have hcall : db.createTable lower io name schema = (.ok (), db') := by
          unfold Database.createTable
          rw [deny_eq h.mode, if_neg hro]
          simp only [ht, if_neg hnew, hlog]
        unfold Database.runCreateTable Catalog.table
        rw [if_neg fun hp => hnew hp.2, hcall]
        exact refines_ok hdb'
      · next e hv =>
        exact hrefused (.inr (.inl (by rw [hv]; exact nofun))) fun hp => hnew hp.2

theorem drop_refines (h : db.Represents io mode rels) (name : String) (ifExists : Bool) :
    Refines io mode false (db.runDropTable lower io name ifExists)
      (rels.drop lower mode name ifExists) := by
  unfold Database.runDropTable Database.dropTable Relations.drop
  rw [deny_eq h.mode]
  by_cases hro : mode.readOnly = true
  · rw [if_pos hro, if_pos hro]
    exact refines_error h
  · rw [if_neg hro, if_neg hro]
    simp only [Catalog.dropTableInner, represents_isSome h.tables (lower name)]
    cases hex : (rels.lookup (lower name)).isSome with
    | true =>
      have hstate : ({ db with tables := db.tables.erase (lower name) } : Database).Represents io mode
          (rels.erase (lower name)) := ⟨represents_erase h.tables _, h.mode, h.logs⟩
      obtain ⟨db', hlog, hdb'⟩ := @log_represents lower _ _ _ _ hstate (.dropTable name) _ rfl
      simp only [hlog, Bool.true_or, if_true, Bool.not_true, Bool.false_and, Bool.false_eq_true, if_false]
      exact refines_ok hdb'
    | false =>
      cases ifExists with
      | true =>
        have hnone : rels.lookup (lower name) = none := by simpa using hex
        have hsame : rels.erase (lower name) = rels := erase_absent hnone
        simp only [Bool.false_or, Bool.not_false, Bool.not_true, Bool.and_false, Bool.false_eq_true,
          if_false, if_true, hsame]
        exact refines_ok h
      | false =>
        simp only [Bool.or_self, Bool.not_false, Bool.and_self, if_true, Bool.false_eq_true, if_false]
        exact refines_error h

theorem inOrder_eq {schema : Schema} {names : List String} {row row' : List Value}
    (hnames : NamesColumns schema names) (h : InSchemaOrder schema names row row') :
    schema.inOrder names row = row' := by
  have hentries : schema.keys.map (fun k => row[(names.map toAsciiLowercase).idxOf k]?) =
      row'.map some := by
    refine List.ext_getElem (by simp [h.length_eq]) fun i hi hi' => ?_
    have hik : i < schema.keys.length := by simpa using hi
    have hir : i < row'.length := by simpa using hi'
    have hlt := List.idxOf_lt_length_of_mem (hnames.symm.subset (List.getElem_mem hik))
    have hvalue := h.value_eq i _ _ (List.getElem?_eq_getElem hik)
      ((List.getElem?_eq_getElem hlt).trans (congrArg some (List.getElem_idxOf hlt)))
    rw [List.getElem_map, List.getElem_map, ← hvalue, List.getElem?_eq_getElem hir]
  have hread := congrArg (List.filterMap id) hentries
  rw [List.filterMap_map, List.filterMap_map] at hread
  exact hread.trans (by simp)

theorem full_iff (h : db.Represents io mode rels) :
    db.checkMemory ≠ .ok () ↔ rels.Full mode := by
  have hmode : db.memoryLimit = mode.memoryLimit := congrArg Mode.memoryLimit h.mode
  unfold Database.checkMemory Relations.Full
  rw [represents_catalog_bytes h.tables, hmode]
  by_cases hfull : mode.memoryLimit > 0 ∧ rels.bytesUsed % usizeRange ≥ mode.memoryLimit.toNat
  · rw [if_pos hfull]
    exact iff_of_true nofun hfull
  · rw [if_neg hfull]
    exact iff_of_false (by simp) hfull

theorem insertRows_refines (h : db.Represents io mode rels) {table : String} {t : Table} {r : Relation}
    (ht : db.tables.lookup (lower table) = some t) (hr : t.Represents r) {rows : List (List Value)}
    (hfits : ∀ row ∈ rows, ∀ v ∈ row, v.Fits) (hroom : r.Reserves rows.length) :
    if mode.readOnly ∨ rels.Full mode then ∃ e, db.insertRows lower io table rows = (.error e, db)
    else ∃ db', db'.Represents io mode (Finmap.insert (lower table) (r.insert rows) rels) ∧
      if ∀ row ∈ rows, r.schema.Accepts row then db.insertRows lower io table rows = (.ok rows.length, db')
      else ∃ e, db.insertRows lower io table rows = (.error e, db') := by
  have hmode : db.readOnly = mode.readOnly := congrArg Mode.readOnly h.mode
  have hrefuses : db.Refuses lower table ↔ mode.readOnly = true ∨ rels.Full mode := by
    unfold Database.Refuses
    rw [deny_eq h.mode, full_iff h, Catalog.table, ht]
    cases mode.readOnly <;> simp [bail]
  by_cases hrefused : mode.readOnly = true ∨ rels.Full mode
  · rw [if_pos hrefused]
    obtain ⟨m, hm⟩ := Database.insertRows_refused (hrefuses.mpr hrefused) io rows
    exact ⟨.bail m, hm⟩
  · rw [if_neg hrefused]
    obtain ⟨hrep, hres⟩ := represents_insertMany hr hfits (represents_reserves hr hroom)
    have heq := Database.insertRows_eq (fun hp => hrefused (hrefuses.mp hp)) ht io rows
    rcases hi : t.insertMany rows with ⟨res, t'⟩
    rw [hi] at hrep hres heq
    have hstate : ({ db with tables := Finmap.insert (lower table) t' db.tables } : Database).Represents
        io mode (Finmap.insert (lower table) (r.insert rows) rels) :=
      ⟨represents_insert h.tables hrep _, h.mode, h.logs⟩
    by_cases hall : ∀ row ∈ rows, r.schema.Accepts row
    · rw [if_pos hall] at hres
      obtain rfl := hres
      have hschema : Catalog.schemaOf lower (Finmap.insert (lower table) t' db.tables) table =
          some r.schema := by
        rw [Catalog.schemaOf, Catalog.table, Finmap.lookup_insert, Option.map_some, hrep.schema]
        rfl
      have henc := WalRecord.encode_insert hschema fun row hrow =>
        (List.Forall₂.length_eq (hall row hrow)).symm
      obtain ⟨db', hlog, hdb'⟩ := log_represents hstate henc
      refine ⟨db', hdb', ?_⟩
      rw [if_pos hall, heq]
      simp only [hlog]
    · rw [if_neg hall] at hres
      obtain ⟨e, rfl⟩ := hres
      refine ⟨_, hstate, ?_⟩
      rw [if_neg hall]
      exact ⟨e, heq⟩

theorem reorder_arranged (h : db.Represents io mode rels) {table : String} {r : Relation}
    (hr : rels.lookup (lower table) = some r) {names : List String} {rows : List (List Value)}
    (hlens : ∀ row ∈ rows, row.length = names.length) :
    (∃ rows', reorder lower table names rows db = .ok rows' ∧
      r.schema.arranged (some names) rows = some rows' ∧ ∀ row' ∈ rows', ∀ v ∈ row', ∃ row ∈ rows, v ∈ row) ∨
    ∃ e, reorder lower table names rows db = .error e ∧ r.schema.arranged (some names) rows = none := by
  have hschema : db.tables.schemaOf lower table = some r.schema := by
    rw [represents_schemaOf h.tables, Relations.schemaOf, hr]
    rfl
  rcases reorder_run hschema (keys_nodup r.valid) hlens with ⟨hnames, rows', hrows', hall⟩ | ⟨hno, m, hm⟩
  · refine .inl ⟨rows', hrows', ?_, fun row' hrow' v hv => ?_⟩
    · rw [Schema.arranged, if_pos hnames]
      clear hrows' hlens
      induction hall with
      | nil => rfl
      | cons hrow _ ih => rw [List.map_cons, inOrder_eq hnames hrow, Option.some.inj ih]
    · obtain ⟨i, hi, rfl⟩ := List.mem_iff_getElem.mp hrow'
      have hrow := hall.get (hall.length_eq.symm ▸ hi) hi
      exact ⟨_, List.getElem_mem _, hrow.mem_source hnames.symm.subset hv⟩
  · exact .inr ⟨_, hm, by rw [Schema.arranged, if_neg hno]⟩

theorem arranged_length {schema : Schema} {columns : Option (List String)}
    {rows rows' : List (List Value)} (h : schema.arranged columns rows = some rows') :
    rows'.length = rows.length := by
  cases columns with
  | none => rw [Option.some.inj h]
  | some names =>
    unfold Schema.arranged at h
    dsimp only at h
    split_ifs at h
    obtain rfl := Option.some.inj h
    exact List.length_map _

theorem insert_refines (h : db.Represents io mode rels) (table : String) (columns : Option (List String))
    {rows : List (List Value)} (hlens : ∀ names ∈ columns, ∀ row ∈ rows, row.length = names.length)
    (htakes : rels.Takes lower table rows) :
    Refines io mode false (db.runInsert lower io table columns rows)
      (rels.insert lower mode table columns rows) := by
  unfold Relations.insert
  rcases represents_lookup h.tables (lower table) with ⟨ht, hr⟩ | ⟨t, r, ht, hr, htr⟩
  · rw [hr]
    cases columns with
    | none =>
      obtain ⟨e, he⟩ := Database.insertRows_refused (.inr (.inr ht)) io rows
      simp only [Database.runInsert, Option.elim_none, he]
      exact refines_error h
    | some names =>
      simp only [Database.runInsert, Option.elim_some, reorder, Catalog.schemaOf, Catalog.table, ht]
      exact refines_error h
  · rw [hr]
    -- past the list of columns both insert the same rows
    have hrows : ∀ rows, (∀ row ∈ rows, ∀ v ∈ row, v.Fits) → r.Reserves rows.length →
        Refines io mode false (db.runInsert lower io table none rows)
          (if mode.readOnly ∨ rels.Full mode then (none, rels)
          else
            (if ∀ row ∈ rows, r.schema.Accepts row then
              some (.message s!"вставлено строк: {rows.length}") else none,
              Finmap.insert (lower table) (r.insert rows) rels)) := by
      intro rows hfits hroom
      have hinsert := insertRows_refines h ht htr hfits hroom
      simp only [Database.runInsert, Option.elim_none]
      by_cases hrefused : mode.readOnly = true ∨ rels.Full mode
      · rw [if_pos hrefused] at hinsert ⊢
        obtain ⟨e, he⟩ := hinsert
        simp only [he]
        exact refines_error h
      · rw [if_neg hrefused] at hinsert ⊢
        obtain ⟨db', hdb', hres⟩ := hinsert
        by_cases hall : ∀ row ∈ rows, r.schema.Accepts row
        · rw [if_pos hall] at hres
          simp only [hres, if_pos hall]
          exact refines_ok hdb'
        · rw [if_neg hall] at hres
          obtain ⟨e, he⟩ := hres
          simp only [he, if_neg hall]
          exact refines_error hdb'
    obtain ⟨hfits, hrooms⟩ := htakes
    have hroom : r.Reserves rows.length := hrooms r hr
    cases columns with
    | none => exact hrows rows hfits hroom
    | some names =>
      rcases reorder_arranged h hr (hlens names rfl) with ⟨rows', hrows', harr, hmem⟩ | ⟨e, he, harr⟩
      · rw [runInsert_ordered hrows']
        simp only [harr]
        refine hrows rows' (fun row' hrow' v hv => ?_) ((arranged_length harr).symm ▸ hroom)
        obtain ⟨row, hrow, hv⟩ := hmem row' hrow' v hv
        exact hfits row hrow v hv
      · simp only [Database.runInsert, Option.elim_some, he, harr]
        exact refines_error h

theorem represents_names (h : db.Represents io mode rels) : db.tableNames = rels.names := by
  unfold Database.tableNames Relations.names
  rw [represents_entries h.tables fun _ _ htr => htr.name, Relations.inOrder]

theorem showTables_refines (h : db.Represents io mode rels) :
    db.runShowTables lower = rels.showTables lower := by
  unfold Database.runShowTables Relations.showTables
  rw [represents_names h]
  congr 2
  funext n
  rw [Catalog.table, represents_map h.tables (fun _ _ htr => htr.nrows) (lower n)]

theorem describe_refines (h : db.Represents io mode rels) (name : String) :
    Refines io mode false (db.runDescribe lower name, db) (rels.describe lower name, rels) := by
  unfold Database.runDescribe Relations.describe Catalog.table
  rcases represents_lookup h.tables (lower name) with ⟨ht, hr⟩ | ⟨t, r, ht, hr, htr⟩
  · rw [ht, hr]
    exact refines_error h
  · rw [ht, hr]
    change Refines io mode false (.ok _, db) (some _, rels)
    rw [htr.schema]
    exact refines_ok h

end Statements

/-- What a query relies on: its plan is regular, and what it reads can be addressed. -/
def Relations.Reads (rt : Runtime) (rels : Relations) (plan : Select) : Prop :=
  plan.Regular ∧
    match plan.table with
    | none => plan.Fits rt [] [[]]
    | some name => ∀ r ∈ rels.lookup (rt.toLowercase name),
        r.rows.length < 2 ^ 32 ∧ r.TextsFit ∧ plan.Fits rt r.schema.types r.rows

section Queries

variable {io : AppendIo} {mode : Mode} {db : Database} {rels : Relations} {rt : Runtime} {plan : Select}

theorem result_of_answer {table : Option Table} {types : List DataType} {rows : List (List Value)}
    {q : QueryResult} (h : runSelect rt plan table = .ok q) (htypes : (sourceFrame table).types = types)
    (hans : plan.answer rt types rows = .ok q.rows) : plan.result rt types rows = some q := by
  subst htypes
  unfold Select.result
  rw [runSelect_types h, hans, ← runSelect_columns h]
  rfl

theorem query_refines (hrt : rt.Sorting) (hsel : Partitions rt.selectNthUnstableBy)
    (h : db.Represents io mode rels) (hlimit : ∀ k ∈ plan.limit, k < 2 ^ 63)
    (hoffset : plan.offset < 2 ^ 63) (hreads : rels.Reads rt plan) {q : QueryResult}
    (hq : db.runQuery rt plan = .ok q) : rels.query rt plan = some q := by
  obtain ⟨hregular, hreads⟩ := hreads
  unfold Database.runQuery at hq
  unfold Relations.query
  cases htable : plan.table with
  | none =>
    simp only [htable] at hq hreads ⊢
    have hrow : (sourceFrame none).HoldsRows [[]] := by
      intro i row hrow
      cases i with
      | zero =>
        obtain rfl := Option.some.inj hrow
        exact List.Forall₂.nil
      | succ i => cases hrow
    have hcols : ∀ c ∈ (sourceFrame none).cols, c.len = sourceRows none := by simp [sourceFrame]
    exact result_of_answer hq rfl
      (runSelect_answer hrt hsel hlimit hoffset hregular hcols (by decide) hrow rfl hreads hq)
  | some name =>
    simp only [htable] at hq hreads ⊢
    obtain ⟨t, ht, hrun⟩ := bind_eq_ok.mp hq
    rcases represents_lookup h.tables (rt.toLowercase name) with ⟨hnone, -⟩ | ⟨t', r, ht', hr, htr⟩
    · rw [Catalog.table, hnone] at ht
      cases ht
    · rw [Catalog.table, ht'] at ht
      obtain rfl : t' = t := Except.ok.inj ht
      obtain ⟨hrows, htexts, hfits⟩ := hreads r hr
      have htypes : (sourceFrame (some t')).types = r.schema.types := by
        rw [← htr.schema]
        exact List.forall₂_eq_eq_eq ▸
          List.forall₂_map_left_iff.mpr (List.forall₂_map_right_iff.mpr htr.typed)
      have hcols : ∀ c ∈ (sourceFrame (some t')).cols, c.len = sourceRows (some t') :=
        represents_full htr
      have hlen : r.rows.length = sourceRows (some t') := htr.nrows.symm
      rw [hr]
      refine result_of_answer hrun htypes ?_
      rw [← htypes] at hfits ⊢
      exact runSelect_answer hrt hsel hlimit hoffset hregular hcols (hlen ▸ hrows)
        (represents_holds htr htexts) hlen hfits hrun

end Queries

/-- A planned statement relies on nothing the tables of rows do not show. -/
def Relations.Permits (rt : Runtime) (rels : Relations) : Statement → Prop
  | .insert table _ rows => rels.Takes rt.toLowercase table rows
  | .select plan => rels.Reads rt plan
  | _ => True

def Relations.Admits (tx : Texts) (rt : Runtime) (rels : Relations) (stmt : Sa.Statement) : Prop :=
  ∀ plan, planStatement tx (rels.schemaOf rt.toLowercase) stmt = .ok plan → rels.Permits rt plan

def Sa.Statement.isQuery : Sa.Statement → Bool
  | .query _ => true
  | _ => false

namespace Statement

def isQuery : Statement → Bool
  | .select _ => true
  | _ => false

/-- What the planner sees to: a value for every name, and bounds that can be added. -/
def Shaped : Statement → Prop
  | .insert _ columns rows => ∀ names ∈ columns, ∀ row ∈ rows, row.length = names.length
  | .select plan => (∀ k ∈ plan.limit, k < 2 ^ 63) ∧ plan.offset < 2 ^ 63
  | _ => True

end Statement

section Planning

variable {tx : Texts} {catalog : Schemas}

theorem planInsert_shaped {t : Sa.TableObject} {columns : List Sa.ObjectName}
    {source : Option Sa.Query} {plan : Statement}
    (h : planInsert tx catalog t columns source = .ok plan) : plan.Shaped ∧ plan.isQuery = false := by
  have hrest : ∀ {schema : Schema} {table : String} {names : Option (List String)}, (do
      let types ← targetTypes schema table names
      let rows ← (← insertRows source).mapM (planRow tx types)
      return Statement.insert table names rows) = .ok plan → plan.Shaped ∧ plan.isQuery = false := by
    intro schema table names h
    obtain ⟨types, htypes, h⟩ := bind_eq_ok.mp h
    obtain ⟨values, -, h⟩ := bind_eq_ok.mp h
    obtain ⟨rows, hrows, rfl⟩ := bind_pure_eq_ok.mp h
    refine ⟨fun ns hns row hrow => ?_, rfl⟩
    obtain rfl := hns
    obtain ⟨source, -, hplan⟩ := exists_of_mem_mapM hrows hrow
    exact (planRow_length hplan).trans (mapM_length htypes)
  cases t with
  | other text => cases h
  | tableName n =>
    obtain ⟨table, -, h⟩ := bind_eq_ok.mp h
    obtain ⟨schema, -, h⟩ := bind_eq_ok.mp h
    by_cases hc : columns = []
    · simp only [if_pos hc, ok_bind] at h
      exact hrest h
    · simp only [if_neg hc] at h
      obtain ⟨names, -, h⟩ := bind_eq_ok.mp h
      exact hrest h

theorem planStatement_shaped {stmt : Sa.Statement} {plan : Statement}
    (h : planStatement tx catalog stmt = .ok plan) : plan.Shaped ∧ plan.isQuery = stmt.isQuery := by
  cases stmt with
  | createTable name columns query ifNotExists =>
    simp only [planStatement] at h
    cases query with
    | true => cases h
    | false =>
      obtain ⟨fields, -, h⟩ := bind_eq_ok.mp h
      obtain ⟨n, -, rfl⟩ := bind_pure_eq_ok.mp h
      exact ⟨trivial, rfl⟩
  | drop table ifExists names =>
    simp only [planStatement] at h
    cases table with
    | false => cases h
    | true =>
      obtain ⟨name, -, h⟩ := bind_eq_ok.mp h
      obtain ⟨n, -, rfl⟩ := bind_pure_eq_ok.mp h
      exact ⟨trivial, rfl⟩
  | insert table columns source => exact planInsert_shaped h
  | query q =>
    obtain ⟨plan, hq, rfl⟩ := bind_pure_eq_ok.mp h
    have hplanned := gives_planQuery plan hq
    exact ⟨⟨hplanned.limit, hplanned.offset⟩, rfl⟩
  | showTables =>
    obtain rfl := Except.ok.inj h
    exact ⟨trivial, rfl⟩
  | explainTable name =>
    obtain ⟨n, -, rfl⟩ := bind_pure_eq_ok.mp h
    exact ⟨trivial, rfl⟩
  | other text => cases h

end Planning

section Executing

variable {io : AppendIo} {mode : Mode} {db : Database} {rels : Relations} {rt : Runtime} {tx : Texts}

theorem run_refines (hrt : rt.Sorting) (hsel : Partitions rt.selectNthUnstableBy)
    (h : db.Represents io mode rels) {plan : Statement} (hshape : plan.Shaped)
    (hpermits : rels.Permits rt plan) :
    Refines io mode plan.isQuery (db.run rt io plan) (rels.run rt mode plan) := by
  cases plan with
  | createTable name schema ifNotExists => exact create_refines h name schema ifNotExists
  | dropTable name ifExists => exact drop_refines h name ifExists
  | insert table columns rows => exact insert_refines h table columns hshape hpermits
  | select plan =>
    exact ⟨⟨fun r hr => query_refines hrt hsel h hshape.1 hshape.2 hpermits hr, nofun⟩, h⟩
  | showTables =>
    simp only [Database.run, Relations.run, showTables_refines h]
    exact refines_ok h
  | describe name => exact describe_refines h name

theorem execute_refines (hrt : rt.Sorting) (hsel : Partitions rt.selectNthUnstableBy)
    (h : db.Represents io mode rels) {stmt : Sa.Statement} (hok : rels.Admits tx rt stmt) :
    Refines io mode stmt.isQuery (db.execute tx rt io stmt) (rels.execute tx rt mode stmt) := by
  unfold Database.execute Relations.execute
  unfold Relations.Admits at hok
  rw [represents_schemaOf h.tables]
  cases hplan : planStatement tx (rels.schemaOf rt.toLowercase) stmt with
  | error e => exact refines_error h
  | ok plan =>
    obtain ⟨hshape, hquery⟩ := planStatement_shaped hplan
    exact hquery ▸ run_refines hrt hsel h hshape (hok plan hplan)

/-- The answers of a session are those of the tables of rows, and it ends at their rows. -/
theorem session_refines (hrt : rt.Sorting) (hsel : Partitions rt.selectNthUnstableBy)
    (h : db.Represents io mode rels) {stmts : List Sa.Statement}
    (hall : Allowed (Database.execute tx rt io) (Relations.execute tx rt mode) (fun _ => some)
      (fun _ rels stmt => rels.Admits tx rt stmt) db rels stmts) :
    List.Forall₂ (fun a b => a.1 = b.1 ∧ Answers a.1.isQuery a.2 b.2)
      (transcript (Database.execute tx rt io) (fun _ => some) db stmts)
      (transcript (Relations.execute tx rt mode) (fun _ => some) rels stmts) ∧
    (after (Database.execute tx rt io) db stmts).Represents io mode
      (after (Relations.execute tx rt mode) rels stmts) := by
  have hstep : Simulates (Database.execute tx rt io) (Relations.execute tx rt mode) (fun _ => some)
      (fun db rels => db.Represents io mode rels) (fun _ rels stmt => rels.Admits tx rt stmt)
      (fun stmt res ans => Answers stmt.isQuery res ans) := by
    refine ⟨fun db rels stmt stmt' h hok hsee => ?_, fun _ _ _ _ _ hsee => nomatch hsee⟩
    obtain rfl := Option.some.inj hsee
    obtain ⟨hans, hst⟩ := execute_refines hrt hsel h hok
    exact ⟨hans, hst⟩
  have hrun := hstep.run h hall
  rwa [seen_some] at hrun

end Executing

def createInts : Sa.Statement :=
  .createTable [.identifier "t"] [{ name := "x", dataType := .int }] false false

def insertInt (n : String) : Sa.Statement :=
  .insert (.tableName [.identifier "t"]) [] (some { body := .values [[.value (.number n)]] })

/-- `SELECT x FROM t` -/
def selectInts : Sa.Statement :=
  .query {
    body := .select {
      projection := [.unnamedExpr (.identifier "x")]
      from_ := [⟨.table [.identifier "t"], []⟩] } }

def selectIntsPlan : Select where
  table := some "t"
  filter := none
  groupBy := []
  having := none
  projection := [⟨.col 0, "x"⟩]
  orderBy := []
  limit := none
  offset := 0

def intsSchema : Schema := ⟨[⟨"x", .i64⟩]⟩

theorem plan_createInts (catalog : Schemas) :
    planStatement plainTexts catalog createInts = .ok (.createTable "t" intsSchema false) := rfl

theorem plan_insertInt {catalog : Schemas} (h : catalog "t" = some intsSchema) {n : String} {k : Int64}
    (hn : plainLiteral plainTexts (.value (.number n)) = .ok (.i64 k)) :
    planStatement plainTexts catalog (insertInt n) = .ok (.insert "t" none [[.i64 k]]) := by
  have hrow : planRow plainTexts [.i64] [.value (.number n)] = .ok [.i64 k] := by
    rw [planRow, if_neg (by simp)]
    exact mapM_singleton hn
  have hrows : [[Sa.Expr.value (.number n)]].mapM (planRow plainTexts (intsSchema.fields.map Field.ty)) =
      .ok [[.i64 k]] := mapM_singleton hrow
  rw [insertInt, planStatement_plain rfl h rfl, hrows]
  rfl

theorem plan_selectInts {catalog : Schemas} (h : catalog "t" = some intsSchema) :
    planStatement plainTexts catalog selectInts = .ok (.select selectIntsPlan) := by
  have hfrom : planFrom plainTexts catalog [⟨.table [.identifier "t"], []⟩] =
      .ok (some "t", intsSchema) := by
    have hname : identOf plainTexts [.identifier "t"] = .ok "t" := rfl
    simp only [planFrom, hname, ok_bind, tableSchema, h]
    rfl
  simp only [planStatement, selectInts, planQuery, planBody, hfrom]
  rfl

theorem selectIntsPlan_regular : selectIntsPlan.Regular where
  filter := nofun
  keys := nofun
  args p hp := by
    rw [show selectIntsPlan.aggs = [] from rfl] at hp
    cases hp
  outputs e he := by
    obtain rfl := List.mem_singleton.mp he
    exact shares_col 0
  grouped h := by cases h
  apart h := by cases h

theorem admits_createInts (rels : Relations) : rels.Admits plainTexts plainRuntime createInts := by
  intro plan hplan
  obtain rfl := Except.ok.inj ((plan_createInts _).symm.trans hplan)
  trivial

theorem lower_t : plainRuntime.toLowercase "t" = "t" := by decide +kernel

theorem schemaOf_t {rels : Relations} (rows : List (List Value))
    (h : (rels.lookup "t").map (fun r => (r.schema, r.rows)) = some (intsSchema, rows)) :
    rels.schemaOf plainRuntime.toLowercase "t" = some intsSchema := by
  obtain ⟨r, hr, hpair⟩ := Option.map_eq_some_iff.mp h
  rw [Relations.schemaOf, lower_t, hr, Option.map_some, (Prod.mk.inj hpair).1]

theorem reserves_ints {rels : Relations} {extra : Nat} (rows : List (List Value))
    (h : (rels.lookup "t").map (fun r => (r.schema, r.rows)) = some (intsSchema, rows))
    (hrows : rows.length < 2 ^ 32) (hextra : extra < 2 ^ 32) :
    ∀ r ∈ rels.lookup (plainRuntime.toLowercase "t"), r.Reserves extra := by
  intro r hr
  rw [lower_t] at hr
  obtain ⟨r', hr', hpair⟩ := Option.map_eq_some_iff.mp h
  obtain rfl := Option.some.inj (hr'.symm.trans hr)
  obtain ⟨hschema, rfl⟩ := Prod.mk.inj hpair
  intro ty hty
  rw [hschema] at hty
  obtain rfl : ty = .i64 := List.mem_singleton.mp hty
  change (r'.rows.length + extra) * 8 ≤ isizeMax
  unfold isizeMax
  omega

theorem admits_insertInt {rels : Relations} {n : String} {k : Int64} (rows : List (List Value))
    (h : (rels.lookup "t").map (fun r => (r.schema, r.rows)) = some (intsSchema, rows))
    (hroom : rows.length < 2 ^ 32) (hn : plainLiteral plainTexts (.value (.number n)) = .ok (.i64 k)) :
    rels.Admits plainTexts plainRuntime (insertInt n) := by
  intro plan hplan
  obtain rfl := Except.ok.inj ((plan_insertInt (schemaOf_t rows h) hn).symm.trans hplan)
  exact ⟨by simp [Value.Fits], reserves_ints rows h hroom (by rw [List.length_singleton]; decide)⟩

theorem admits_selectInts {rels : Relations} (rows : List (List Value))
    (h : (rels.lookup "t").map (fun r => (r.schema, r.rows)) = some (intsSchema, rows))
    (hrows : rows.length < 2 ^ 32) :
    rels.Admits plainTexts plainRuntime selectInts := by
  intro plan hplan
  obtain rfl := Except.ok.inj ((plan_selectInts (schemaOf_t rows h)).symm.trans hplan)
  refine ⟨selectIntsPlan_regular, fun r hr => ?_⟩
  rw [lower_t] at hr
  obtain ⟨r', hr', hpair⟩ := Option.map_eq_some_iff.mp h
  obtain rfl := Option.some.inj (hr'.symm.trans hr)
  obtain ⟨hschema, rfl⟩ := Prod.mk.inj hpair
  exact ⟨hrows, textsFit_of_types (by rw [hschema]; decide), fun hagg => by cases hagg⟩

theorem represents_nothing (io : AppendIo) : Database.new.Represents io ⟨false, 0⟩ ∅ :=
  ⟨fun _ => .none, rfl, nofun⟩

def intsSession : List Sa.Statement := [createInts, insertInt "1", selectInts]

theorem session_refines_ints :
    List.Forall₂ (fun a b => a.1 = b.1 ∧ Answers a.1.isQuery a.2 b.2)
      (transcript (Database.execute plainTexts plainRuntime .done) (fun _ => some) Database.new intsSession)
      (transcript (Relations.execute plainTexts plainRuntime ⟨false, 0⟩) (fun _ => some) ∅ intsSession) ∧
    (after (Database.execute plainTexts plainRuntime .done) Database.new intsSession).Represents .done
      ⟨false, 0⟩ (after (Relations.execute plainTexts plainRuntime ⟨false, 0⟩) ∅ intsSession) := by
  refine session_refines plainRuntime_sorting plainRuntime_partitions (represents_nothing .done)
    ⟨admits_createInts _, ?_, ?_, trivial⟩
  · exact admits_insertInt [] (k := 1) (by decide +kernel) (by decide) (by decide +kernel)
  · exact admits_selectInts [[.i64 1]] (by decide +kernel) (by decide)

end Veldb
