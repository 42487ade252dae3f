import Veldb.Catalog

/-! What a batch insert leaves behind: a row is taken as a whole or not at all,
a batch is cut at its first rejected row. -/

namespace Veldb

theorem Column.push_dataType {c c' : Column} {v : Value} (h : c.push v = .ok c') :
    c'.dataType = c.dataType := by
  unfold Column.push at h
  split at h
  case h_6 =>
    split at h
    · cases h
    · cases h
      rfl
  all_goals cases h
  all_goals rfl

def Schema.Accepts (s : Schema) (row : List Value) : Prop :=
  List.Forall₂ (fun f v => Table.accepts f.ty v.typeOf = true) s.fields row

instance Schema.decidableAccepts (s : Schema) (row : List Value) : Decidable (s.Accepts row) := by
  unfold Schema.Accepts
  infer_instance

/-- No rejected row, or nothing accepted before it. -/
def Schema.AcceptsBatch (s : Schema) (rows : List (List Value)) : Prop :=
  (∀ r ∈ rows, s.Accepts r) ∨ ∃ r rs, rows = r :: rs ∧ ¬s.Accepts r

namespace Table

def Typed (t : Table) : Prop :=
  List.Forall₂ (fun c f => c.dataType = f.ty) t.columns t.schema.fields

/-- `t'` is `t` with `rows` added at the end of every column. -/
structure Appends (t : Table) (rows : List (List Value)) (t' : Table) : Prop where
  name : t'.name = t.name
  schema : t'.schema = t.schema
  nrows : t'.nrows = t.nrows + rows.length
  columns : t'.columns.length = t.columns.length
  values : ∀ (j : Nat) c c', t.columns[j]? = some c → t'.columns[j]? = some c' →
    (rows.filterMap (fun r => r[j]?)).foldlM Column.push c = .ok c'

def AllOrNothing (t : Table) (rows : List (List Value)) (r : Exec Nat × Table) : Prop :=
  (r.1 = .ok rows.length ∧ t.Appends rows r.2) ∨ (∃ m, r.1 = bail m) ∧ r.2 = t

theorem checkRow_ok {fs : List Field} {vs : List Value}
    (h : List.Forall₂ (fun f v => accepts f.ty v.typeOf = true) fs vs) : checkRow fs vs = .ok () := by
  induction h with
  | nil => rfl
  | cons hfv _ ih => simpa [checkRow, hfv] using ih

theorem checkRow_accepts {fs : List Field} {vs : List Value} (hl : vs.length = fs.length)
    (h : checkRow fs vs = .ok ()) :
    List.Forall₂ (fun f v => accepts f.ty v.typeOf = true) fs vs := by
  induction fs generalizing vs with
  | nil =>
    obtain rfl := List.length_eq_zero_iff.mp hl
    exact .nil
  | cons f fs ih =>
    cases vs with
    | nil => simp at hl
    | cons v vs =>
      by_cases ha : accepts f.ty v.typeOf = true
      · rw [checkRow, if_pos ha] at h
        exact .cons ha (ih (by simpa using hl) h)
      · simp [checkRow, ha] at h

theorem checkRow_not_crash {fs : List Field} {vs : List Value} (hl : vs.length = fs.length)
    {place : String} : checkRow fs vs ≠ crash place := by
  induction fs generalizing vs with
  | nil =>
    obtain rfl := List.length_eq_zero_iff.mp hl
    exact nofun
  | cons f fs ih =>
    cases vs with
    | nil => simp at hl
    | cons v vs =>
      unfold checkRow
      split_ifs
      · exact ih (by simpa using hl)
      · exact nofun

theorem pushRow_ok {cs : List Column} {fs : List Field} {row : List Value}
    (ht : List.Forall₂ (fun c f => c.dataType = f.ty) cs fs)
    (h : List.Forall₂ (fun f v => accepts f.ty v.typeOf = true) fs row) :
    ∃ cs', pushRow cs row = (.ok (), cs') ∧
      List.Forall₂ (fun c f => c.dataType = f.ty) cs' fs ∧
      cs'.map Except.ok = List.zipWith Column.push cs row := by
  induction ht generalizing row with
  | nil =>
    cases h
    exact ⟨[], rfl, .nil, rfl⟩
  | cons hcf _ ih =>
    cases h with
    | cons hfv hrest =>
      obtain ⟨c', hc'⟩ := accepts_push (hcf.symm ▸ hfv)
      obtain ⟨cs', hcs', ht', hz⟩ := ih hrest
      refine ⟨c' :: cs', ?_, .cons ((Column.push_dataType hc').trans hcf) ht', ?_⟩
      · simp [pushRow, hc', hcs']
      · simp [hc', hz]

theorem insert_accepted {t : Table} {row : List Value} (ht : t.Typed) (h : t.schema.Accepts row) :
    ∃ cs, t.insert row = (.ok (), { t with columns := cs, nrows := t.nrows + 1 }) ∧
      List.Forall₂ (fun c f => c.dataType = f.ty) cs t.schema.fields ∧
      cs.map Except.ok = List.zipWith Column.push t.columns row := by
  obtain ⟨cs, hcs, ht', hz⟩ := pushRow_ok ht h
  have hl : row.length = t.columns.length := h.length_eq.symm.trans ht.length_eq.symm
  refine ⟨cs, ?_, ht', hz⟩
  simp [insert, hl, checkRow_ok h, hcs]

theorem insert_rejected {t : Table} {row : List Value} (ht : t.Typed) (h : ¬t.schema.Accepts row) :
    ∃ m, t.insert row = (bail m, t) := by
  by_cases hl : row.length = t.columns.length
  · have hfields := hl.trans ht.length_eq
    cases hc : checkRow t.schema.fields row with
    | ok u => exact absurd (checkRow_accepts hfields hc) h
    | error e =>
      cases e with
      | crash place => exact absurd hc (checkRow_not_crash hfields)
      | bail m => exact ⟨m, by simp [insert, hl, hc, bail]⟩
  · exact ⟨_, by simp only [insert, ne_eq, hl, not_false_eq_true, if_true]; rfl⟩

theorem Appends.refl (t : Table) : t.Appends [] t := by
  refine ⟨rfl, rfl, rfl, rfl, ?_⟩
  intro j c c' hc hc'
  rw [← Option.some.inj (hc.symm.trans hc')]
  rfl

theorem Appends.nil_eq {t t' : Table} (h : t.Appends [] t') : t' = t := by
  have hcols : t'.columns = t.columns := by
    refine List.ext_getElem h.columns (fun j hj' hj => ?_)
    have hv := h.values j _ _ (List.getElem?_eq_getElem hj) (List.getElem?_eq_getElem hj')
    exact (Except.ok.inj hv).symm
  exact Table.ext h.name h.schema hcols h.nrows

theorem Appends.cons {t t' : Table} {row : List Value} {rows : List (List Value)} {cs : List Column}
    (hl : t.columns.length = row.length)
    (hz : cs.map Except.ok = List.zipWith Column.push t.columns row)
    (h : Appends { t with columns := cs, nrows := t.nrows + 1 } rows t') :
    t.Appends (row :: rows) t' := by
  have hcs : cs.length = t.columns.length := by
    have := congrArg List.length hz
    simpa [hl] using this
  refine ⟨h.name, h.schema, ?_, h.columns.trans hcs, ?_⟩
  · rw [h.nrows, List.length_cons]
    simp only
    omega
  · intro j c c' hc hc'
    obtain ⟨hj, rfl⟩ := List.getElem?_eq_some_iff.mp hc
    have hv : row[j]? = some row[j] := List.getElem?_eq_getElem (hl ▸ hj)
    have hd : cs[j]? = some cs[j] := List.getElem?_eq_getElem (hcs.symm ▸ hj)
    have hp : Except.ok cs[j] = t.columns[j].push row[j] := by
      have := congrArg (fun l => l[j]?) hz
      simpa [List.getElem?_zipWith, hd, hv, hj] using this
    rw [List.filterMap_cons, hv, List.foldlM_cons, ← hp]
    exact h.values j cs[j] c' hd hc'

theorem insertEach_accepted {t : Table} {rows : List (List Value)} (ht : t.Typed)
    (h : ∀ r ∈ rows, t.schema.Accepts r) :
    ∃ t', t.insertEach rows = (.ok (), t') ∧ t'.Typed ∧ t.Appends rows t' := by
  induction rows generalizing t with
  | nil => exact ⟨t, rfl, ht, Appends.refl t⟩
  | cons r rs ih =>
    have hr := h r List.mem_cons_self
    obtain ⟨cs, hins, ht', hz⟩ := insert_accepted ht hr
    obtain ⟨t', hrest, ht'', happ⟩ := ih (t := { t with columns := cs, nrows := t.nrows + 1 }) ht'
      (fun x hx => h x (List.mem_cons_of_mem _ hx))
    have hl : t.columns.length = r.length := ht.length_eq.trans hr.length_eq
    exact ⟨t', by rw [insertEach, hins]; exact hrest, ht'', happ.cons hl hz⟩

theorem insertEach_rejected {t : Table} {good : List (List Value)} {bad : List Value}
    (ht : t.Typed) (h : ∀ r ∈ good, t.schema.Accepts r) (hb : ¬t.schema.Accepts bad)
    (rest : List (List Value)) :
    ∃ m t', t.insertEach (good ++ bad :: rest) = (bail m, t') ∧ t.Appends good t' := by
  induction good generalizing t with
  | nil =>
    obtain ⟨m, hm⟩ := insert_rejected ht hb
    exact ⟨m, t, by rw [List.nil_append, insertEach, hm]; rfl, Appends.refl t⟩
  | cons r rs ih =>
    have hr := h r List.mem_cons_self
    obtain ⟨cs, hins, ht', hz⟩ := insert_accepted ht hr
    obtain ⟨m, t', hrest, happ⟩ := ih (t := { t with columns := cs, nrows := t.nrows + 1 }) ht'
      (fun x hx => h x (List.mem_cons_of_mem _ hx)) hb
    have hl : t.columns.length = r.length := ht.length_eq.trans hr.length_eq
    exact ⟨m, t', by rw [List.cons_append, insertEach, hins]; exact hrest, happ.cons hl hz⟩

theorem insertMany_accepted {t : Table} {rows : List (List Value)} (ht : t.Typed)
    (h : ∀ r ∈ rows, t.schema.Accepts r) (hroom : t.Reserves rows.length) :
    ∃ t', t.insertMany rows = (.ok rows.length, t') ∧ t'.Typed ∧ t.Appends rows t' := by
  obtain ⟨t', hi, ht', ha⟩ := insertEach_accepted ht h
  exact ⟨t', insertMany_ok hroom hi, ht', ha⟩

theorem insertMany_rejected {t : Table} {good : List (List Value)} {bad : List Value}
    {rest : List (List Value)} (ht : t.Typed) (h : ∀ r ∈ good, t.schema.Accepts r)
    (hb : ¬t.schema.Accepts bad) (hroom : t.Reserves (good ++ bad :: rest).length) :
    ∃ m t', t.insertMany (good ++ bad :: rest) = (bail m, t') ∧ t.Appends good t' := by
  obtain ⟨m, t', hi, ha⟩ := insertEach_rejected ht h hb rest
  exact ⟨m, t', insertMany_error hroom hi, ha⟩

end Table

theorem Schema.accepts_or_split (s : Schema) (rows : List (List Value)) :
    (∀ r ∈ rows, s.Accepts r) ∨
      ∃ good bad rest, rows = good ++ bad :: rest ∧ (∀ r ∈ good, s.Accepts r) ∧ ¬s.Accepts bad := by
  induction rows with
  | nil => exact .inl (by simp)
  | cons r rs ih =>
    by_cases hr : s.Accepts r
    · rcases ih with hall | ⟨good, bad, rest, rfl, hg, hb⟩
      · exact .inl (List.forall_mem_cons.mpr ⟨hr, hall⟩)
      · exact .inr ⟨r :: good, bad, rest, rfl, List.forall_mem_cons.mpr ⟨hr, hg⟩, hb⟩
    · exact .inr ⟨[], r, rs, rfl, by simp, hr⟩

namespace Table

theorem insertMany_cases {t : Table} (ht : t.Typed) {rows : List (List Value)}
    (hroom : t.Reserves rows.length) :
    (t.schema.AcceptsBatch rows ∧ t.AllOrNothing rows (t.insertMany rows)) ∨
      ¬t.schema.AcceptsBatch rows ∧
        ∃ m, (t.insertMany rows).1 = bail m ∧ t.nrows < (t.insertMany rows).2.nrows := by
  rcases t.schema.accepts_or_split rows with hall | ⟨good, bad, rest, rfl, hg, hb⟩
  · obtain ⟨t', hi, _, ha⟩ := insertMany_accepted ht hall hroom
    exact .inl ⟨.inl hall, .inl (by rw [hi]; exact ⟨rfl, ha⟩)⟩
  · obtain ⟨m, t', hi, ha⟩ := insertMany_rejected ht hg hb hroom
    cases good with
    | nil =>
      have hsame : t' = t := ha.nil_eq
      exact .inl ⟨.inr ⟨bad, rest, rfl, hb⟩, .inr (by rw [hi]; exact ⟨⟨m, rfl⟩, hsame⟩)⟩
    | cons r rs =>
      refine .inr ⟨?_, m, by rw [hi], ?_⟩
      · rintro (hall | ⟨r', rs', he, hr'⟩)
        · exact hb (hall bad (by simp))
        · obtain ⟨rfl, -⟩ := List.cons.inj he
          exact hr' (hg r List.mem_cons_self)
      · rw [hi]
        simp only [ha.nrows, List.length_cons]
        omega

theorem insertMany_allOrNothing {t : Table} (ht : t.Typed) (rows : List (List Value)) :
    t.AllOrNothing rows (t.insertMany rows) ↔
      t.Reserves rows.length ∧ t.schema.AcceptsBatch rows := by
  by_cases hroom : t.Reserves rows.length
  · rw [and_iff_right hroom]
    rcases insertMany_cases ht hroom with ⟨hb, ha⟩ | ⟨hb, m, hm, hn⟩
    · exact iff_of_true ha hb
    · refine iff_of_false ?_ hb
      rintro (⟨hok, _⟩ | ⟨_, hsame⟩)
      · rw [hm] at hok
        cases hok
      · rw [hsame] at hn
        exact lt_irrefl _ hn
  · obtain ⟨place, hi⟩ := insertMany_unreserved hroom
    refine iff_of_false ?_ fun h => hroom h.1
    rw [hi]
    rintro (⟨hok, _⟩ | ⟨⟨m, hm⟩, -⟩)
    · cases hok
    · cases hm

end Table

def AppendIo.Succeeds : AppendIo → Durability → Prop
  | .done, _ => True
  | .writeFails _, _ => False
  | .syncFails, d => d ≠ .fsync

theorem Wal.append_ok {io : AppendIo} {w : Wal} (h : io.Succeeds w.durability) (payload : Bytes) :
    w.append io payload = (.ok w.nextLsn, { w with
      file := w.file.writeAll (frame w.nextLsn payload), nextLsn := w.nextLsn + 1 }) := by
  cases io with
  | done => rfl
  | writeFails k => exact h.elim
  | syncFails =>
    have hd : w.durability ≠ .fsync := h
    simp [append, hd]

theorem Wal.append_fails {io : AppendIo} {w : Wal} (h : ¬io.Succeeds w.durability)
    (payload : Bytes) : ∃ m w', w.append io payload = (bail m, w') := by
  cases io with
  | done => exact absurd trivial h
  | writeFails k => exact ⟨_, _, rfl⟩
  | syncFails =>
    have hd : w.durability = .fsync := by
      by_contra hd
      exact h hd
    exact ⟨"sync_data", { w with file := w.file.writeAll (frame w.nextLsn payload) },
      by simp [append, hd]⟩

def Database.Logs (db : Database) (io : AppendIo) : Prop :=
  ∀ s, db.store = some s → io.Succeeds s.wal.durability

theorem WalRecord.encode_insert {name : String} {rows : List (List Value)} {s : Schema}
    {schemaOf : String → Option Schema} (hs : schemaOf name = some s)
    (h : ∀ r ∈ rows, r.length = s.len) :
    encode (.insert name rows) schemaOf = .ok (Writer.u8 3 ++ (Writer.str name ++
      (Writer.u64 (UInt64.ofNat rows.length) ++ rows.flatMap (fun r => r.flatMap Writer.value)))) := by
  have hf : rows.find? (fun r => r.length != s.len) = none :=
    List.find?_eq_none.mpr (fun r hr => by simp [h r hr])
  simp [encode, hs, hf]

namespace Database

variable {lower : String → String}

def AllOrNothing (lower : String → String) (db : Database) (name : String)
    (rows : List (List Value)) (r : Exec Nat × Database) : Prop :=
  (∃ t t', db.tables.table lower name = some t ∧ t.Appends rows t' ∧ r.1 = .ok rows.length ∧
      r.2.tables = Finmap.insert (lower name) t' db.tables) ∨
    (∃ m, r.1 = bail m) ∧ r.2.tables = db.tables

/-- Turned down before the batch is looked at. -/
def Refuses (lower : String → String) (db : Database) (name : String) : Prop :=
  db.denyIfReadOnly "INSERT" ≠ .ok () ∨ db.checkMemory ≠ .ok () ∨ db.tables.table lower name = none

theorem log_encoded {io : AppendIo} (db : Database) {r : WalRecord} {payload : Bytes}
    (he : r.encode (db.tables.schemaOf lower) = .ok payload) (h : db.Logs io) :
    ∃ st, db.log lower io r = (.ok (), { db with store := st }) := by
  cases hs : db.store with
  | none =>
    have hlog : db.log lower io r = (.ok (), db) := by simp [log, hs]
    exact ⟨db.store, hlog⟩
  | some s => exact ⟨_, by simp only [log, hs, he, Wal.append_ok (h s hs)]; rfl⟩

theorem log_fails {io : AppendIo} (db : Database) {r : WalRecord} {payload : Bytes}
    (he : r.encode (db.tables.schemaOf lower) = .ok payload) (h : ¬db.Logs io) :
    ∃ m st, db.log lower io r = (bail m, { db with store := st }) := by
  obtain ⟨s, hs, hio⟩ : ∃ s, db.store = some s ∧ ¬io.Succeeds s.wal.durability := by
    simpa [Logs] using h
  obtain ⟨m, w', hw⟩ := Wal.append_fails hio payload
  exact ⟨m, _, by simp only [log, hs, he, hw]; rfl⟩

theorem deny_cases (db : Database) (what : String) :
    db.denyIfReadOnly what = .ok () ∨ ∃ m, db.denyIfReadOnly what = bail m := by
  unfold denyIfReadOnly
  split_ifs
  · exact .inr ⟨_, rfl⟩
  · exact .inl rfl

theorem memory_cases (db : Database) : db.checkMemory = .ok () ∨ ∃ m, db.checkMemory = bail m := by
  unfold checkMemory
  split_ifs
  · exact .inr ⟨_, rfl⟩
  · exact .inl rfl

theorem insertRows_refused {db : Database} {name : String} (h : db.Refuses lower name)
    (io : AppendIo) (rows : List (List Value)) :
    ∃ m, db.insertRows lower io name rows = (bail m, db) := by
  rcases db.deny_cases "INSERT" with hd | ⟨m, hd⟩
  · rcases db.memory_cases with hm | ⟨m, hm⟩
    · 
      rcases h with h | h | h
      · exact absurd hd h
      · exact absurd hm h
      · refine ⟨s!"таблица '{name}' не найдена", ?_⟩
        simp only [insertRows, hd, hm, Catalog.insertInner, h]
        rfl
    · exact ⟨m, by simp [insertRows, hd, hm, bail]⟩
  · exact ⟨m, by simp [insertRows, hd, bail]⟩

/-- Past the first checks a call is the batch insert of its table and, if that
went through, one log record. -/
theorem insertRows_eq {db : Database} {name : String} {t : Table}
    (hr : ¬db.Refuses lower name) (ht : db.tables.table lower name = some t)
    (io : AppendIo) (rows : List (List Value)) :
    db.insertRows lower io name rows =
      match t.insertMany rows with
      | (.error e, t') => (.error e, { db with tables := Finmap.insert (lower name) t' db.tables })
      | (.ok n, t') =>
        match { db with tables := Finmap.insert (lower name) t' db.tables }.log lower io
            (.insert name rows) with
        | (.error e, db') => (.error e, db')
        | (.ok (), db') => (.ok n, db') := by
  obtain ⟨hd, hm, -⟩ : db.denyIfReadOnly "INSERT" = .ok () ∧ db.checkMemory = .ok () ∧
      db.tables.table lower name ≠ none := by
    simpa [Refuses] using hr
  simp only [insertRows, hd, hm, Catalog.insertInner, ht]
  rcases t.insertMany rows with ⟨e | n, t'⟩ <;> rfl

theorem encode_accepted (lower : String → String) (m : Catalog) (name : String) {t t' : Table}
    {rows : List (List Value)} (ha : t.Appends rows t') (h : ∀ r ∈ rows, t.schema.Accepts r) :
    ∃ payload, (WalRecord.insert name rows).encode
      (Catalog.schemaOf lower (Finmap.insert (lower name) t' m)) = .ok payload := by
  have hs : Catalog.schemaOf lower (Finmap.insert (lower name) t' m) name = some t.schema := by
    simp [Catalog.schemaOf, Catalog.table, ha.schema]
  exact ⟨_, WalRecord.encode_insert hs (fun r hr => (h r hr).length_eq.symm)⟩

theorem insertRows_accepted {db : Database} {name : String} {t : Table}
    {rows : List (List Value)} (hr : ¬db.Refuses lower name)
    (ht : db.tables.table lower name = some t) (hty : t.Typed)
    (h : ∀ r ∈ rows, t.schema.Accepts r) (hroom : t.Reserves rows.length) (io : AppendIo) :
    ∃ t' st, t.Appends rows t' ∧
      (db.Logs io → db.insertRows lower io name rows = (.ok rows.length,
        { db with tables := Finmap.insert (lower name) t' db.tables, store := st })) ∧
      (¬db.Logs io → ∃ m, db.insertRows lower io name rows = (bail m,
        { db with tables := Finmap.insert (lower name) t' db.tables, store := st })) := by
  obtain ⟨t', hi, -, ha⟩ := Table.insertMany_accepted hty h hroom
  let db' : Database := { db with tables := Finmap.insert (lower name) t' db.tables }
  obtain ⟨payload, he⟩ := encode_accepted lower db.tables name ha h
  rw [insertRows_eq hr ht, hi]
  by_cases hl : db.Logs io
  · obtain ⟨st, hlog⟩ := log_encoded db' he hl
    simp only [db'] at hlog
    exact ⟨t', st, ha, fun _ => by simp only [hlog], fun hn => absurd hl hn⟩
  · obtain ⟨m, st, hlog⟩ := log_fails db' he hl
    simp only [db'] at hlog
    exact ⟨t', st, ha, fun hp => absurd hp hl, fun _ => ⟨m, by simp only [hlog]; rfl⟩⟩

theorem insertRows_rejected {db : Database} {name : String} {t : Table}
    {good : List (List Value)} {bad : List Value} {rest : List (List Value)}
    (hr : ¬db.Refuses lower name) (ht : db.tables.table lower name = some t) (hty : t.Typed)
    (h : ∀ r ∈ good, t.schema.Accepts r) (hb : ¬t.schema.Accepts bad)
    (hroom : t.Reserves (good ++ bad :: rest).length) (io : AppendIo) :
    ∃ m t', t.Appends good t' ∧ db.insertRows lower io name (good ++ bad :: rest) =
      (bail m, { db with tables := Finmap.insert (lower name) t' db.tables }) := by
  obtain ⟨m, t', hi, ha⟩ := Table.insertMany_rejected hty h hb hroom
  exact ⟨m, t', ha, by rw [insertRows_eq hr ht, hi]; rfl⟩

theorem insertRows_unreserved {db : Database} {name : String} {t : Table}
    {rows : List (List Value)} (hr : ¬db.Refuses lower name)
    (ht : db.tables.table lower name = some t) (hroom : ¬t.Reserves rows.length) (io : AppendIo) :
    ∃ place, db.insertRows lower io name rows = (crash place, db) := by
  obtain ⟨place, hi⟩ := Table.insertMany_unreserved hroom
  have hsame : Finmap.insert (lower name) t db.tables = db.tables := Catalog.insert_lookup_self ht
  refine ⟨place, (insertRows_eq hr ht io rows).trans ?_⟩
  rw [hi]
  change ((crash place : Exec Nat),
    ({ db with tables := Finmap.insert (lower name) t db.tables } : Database)) = _
  rw [hsame]

/-- Exactly the calls that are all-or-nothing. -/
def TakesBatch (lower : String → String) (db : Database) (io : AppendIo) (name : String)
    (rows : List (List Value)) : Prop :=
  db.Refuses lower name ∨ ∃ t, db.tables.table lower name = some t ∧
    t.Reserves rows.length ∧ t.schema.AcceptsBatch rows ∧
      ((∀ r ∈ rows, t.schema.Accepts r) → rows = [] ∨ db.Logs io)

theorem tables_ne {db : Database} {name : String} {t t' : Table} {rows : List (List Value)}
    (ht : db.tables.table lower name = some t) (ha : t.Appends rows t') (hne : rows ≠ []) :
    Finmap.insert (lower name) t' db.tables ≠ db.tables := by
  refine Catalog.insert_ne_self (fun hl => ?_)
  have hn := ha.nrows
  have hpos := List.length_pos_of_ne_nil hne
  rw [Option.some.inj (ht.symm.trans hl)] at hn
  omega

theorem insertRows_allOrNothing {db : Database} {name : String}
    (hty : ∀ t, db.tables.table lower name = some t → t.Typed) (io : AppendIo)
    (rows : List (List Value)) :
    db.AllOrNothing lower name rows (db.insertRows lower io name rows) ↔
      db.TakesBatch lower io name rows := by
  by_cases hr : db.Refuses lower name
  · obtain ⟨m, hm⟩ := insertRows_refused hr io rows
    exact iff_of_true (.inr (by rw [hm]; exact ⟨⟨m, rfl⟩, rfl⟩)) (.inl hr)
  obtain ⟨t, ht⟩ := Option.ne_none_iff_exists'.mp (fun hn => hr (.inr (.inr hn)))
  by_cases hroom : t.Reserves rows.length
  swap
  · obtain ⟨place, he⟩ := insertRows_unreserved hr ht hroom io
    rw [he]
    refine iff_of_false ?_ ?_
    · rintro (⟨_, _, _, _, hbad, _⟩ | ⟨⟨m, hm⟩, -⟩)
      · cases hbad
      · cases hm
    · rintro (hr' | ⟨t', ht', hroom', -⟩)
      · exact hr hr'
      · obtain rfl := Option.some.inj (ht.symm.trans ht')
        exact hroom hroom'
  rcases t.schema.accepts_or_split rows with hall | ⟨good, bad, rest, rfl, hg, hb⟩
  · obtain ⟨t', st, ha, hok, herr⟩ := insertRows_accepted hr ht (hty t ht) hall hroom io
    by_cases hl : db.Logs io
    · refine iff_of_true (.inl ⟨t, t', ht, ha, ?_⟩) (.inr ⟨t, ht, hroom, .inl hall, fun _ => .inr hl⟩)
      rw [hok hl]
      exact ⟨rfl, rfl⟩
    · obtain ⟨m, hm⟩ := herr hl
      rw [hm]
      by_cases hne : rows = []
      · subst hne
        refine iff_of_true (.inr ⟨⟨m, rfl⟩, ?_⟩) (.inr ⟨t, ht, hroom, .inl hall, fun _ => .inl rfl⟩)
        exact ha.nil_eq ▸ Catalog.insert_lookup_self ht
      · refine iff_of_false ?_ ?_
        · rintro (⟨_, _, _, _, hbad, _⟩ | ⟨_, hsame⟩)
          · cases hbad
          · exact tables_ne ht ha hne hsame
        · rintro (hr' | ⟨t'', ht'', -, _, hcond⟩)
          · exact hr hr'
          · obtain rfl := Option.some.inj (ht.symm.trans ht'')
            exact (hcond hall).elim hne hl
  · obtain ⟨m, t', ha, hm⟩ := insertRows_rejected hr ht (hty t ht) hg hb hroom io
    have hnot : ¬∀ r ∈ good ++ bad :: rest, t.schema.Accepts r := fun hall => hb (hall bad (by simp))
    rw [hm]
    cases good with
    | nil =>
      refine iff_of_true (.inr ⟨⟨m, rfl⟩, ha.nil_eq ▸ Catalog.insert_lookup_self ht⟩) ?_
      exact .inr ⟨t, ht, hroom, .inr ⟨bad, rest, rfl, hb⟩, fun hall => absurd hall hnot⟩
    | cons r rs =>
      refine iff_of_false ?_ ?_
      · rintro (⟨_, _, _, _, hbad, _⟩ | ⟨_, hsame⟩)
        · cases hbad
        · exact tables_ne ht ha (by simp) hsame
      · rintro (hr' | ⟨t'', ht'', -, hbatch, _⟩)
        · exact hr hr'
        · obtain rfl := Option.some.inj (ht.symm.trans ht'')
          rcases hbatch with hall | ⟨r', rs', hcons, hr'⟩
          · exact hnot hall
          · obtain ⟨rfl, -⟩ := List.cons.inj hcons
            exact hr' (hg r List.mem_cons_self)

theorem insertRows_error_store {db : Database} {name : String} {rows : List (List Value)}
    {io : AppendIo} {e : Fault} {db' : Database}
    (hty : ∀ t, db.tables.table lower name = some t → t.Typed) (hl : db.Logs io)
    (h : db.insertRows lower io name rows = (.error e, db')) : db'.store = db.store := by
  by_cases hr : db.Refuses lower name
  · obtain ⟨m, hm⟩ := insertRows_refused hr io rows
    rw [hm] at h
    exact (Prod.mk.inj h).2 ▸ rfl
  obtain ⟨t, ht⟩ := Option.ne_none_iff_exists'.mp (fun hn => hr (.inr (.inr hn)))
  by_cases hroom : t.Reserves rows.length
  · rcases t.schema.accepts_or_split rows with hall | ⟨good, bad, rest, rfl, hg, hb⟩
    · obtain ⟨t', st, _, hok, _⟩ := insertRows_accepted hr ht (hty t ht) hall hroom io
      rw [hok hl] at h
      cases (Prod.mk.inj h).1
    · obtain ⟨m, t', _, hm⟩ := insertRows_rejected hr ht (hty t ht) hg hb hroom io
      rw [hm] at h
      exact (Prod.mk.inj h).2 ▸ rfl
  · obtain ⟨place, he⟩ := insertRows_unreserved hr ht hroom io
    rw [he] at h
    exact (Prod.mk.inj h).2 ▸ rfl

end Database

/-- A batch is all-or-nothing exactly when there is room for it and no accepted row stands before
a rejected one, and for a call on the database the log takes what was accepted. -/
theorem batch_insert_allOrNothing (lower : String → String) :
    (∀ (t : Table) rows, t.Typed →
      (t.AllOrNothing rows (t.insertMany rows) ↔
        t.Reserves rows.length ∧ t.schema.AcceptsBatch rows)) ∧
    ∀ (db : Database) io name rows, (∀ t, db.tables.table lower name = some t → t.Typed) →
      (db.AllOrNothing lower name rows (db.insertRows lower io name rows) ↔
        db.TakesBatch lower io name rows) ∧
      ∀ e db', db.Logs io → db.insertRows lower io name rows = (.error e, db') →
        db'.store = db.store := by
  refine ⟨fun t rows ht => Table.insertMany_allOrNothing ht rows, fun db io name rows hty => ?_⟩
  exact ⟨Database.insertRows_allOrNothing hty io rows,
    fun e db' hl h => Database.insertRows_error_store hty hl h⟩

def intsTable : Table :=
  ⟨"t", ⟨[⟨"x", .i64⟩]⟩, [.i64 []], 0⟩

def intsDatabase : Database :=
  { Database.new with tables := Catalog.putTable id ∅ intsTable }

theorem batch_insert_keeps_first_row :
    intsTable.Typed ∧
      ¬intsTable.AllOrNothing [[.i64 1], [.str "x"]] (intsTable.insertMany [[.i64 1], [.str "x"]]) ∧
      ¬intsDatabase.AllOrNothing id "t" [[.i64 1], [.str "x"]]
        (intsDatabase.insertRows id .done "t" [[.i64 1], [.str "x"]]) := by
  refine ⟨.cons rfl .nil, ?_, ?_⟩
  · rintro (⟨hok, _⟩ | ⟨_, hsame⟩)
    · exact absurd hok (by decide)
    · exact absurd hsame (by decide)
  · rintro (⟨_, _, _, _, hok, _⟩ | ⟨_, hsame⟩)
    · exact absurd hok (by decide +kernel)
    · exact absurd hsame (by decide +kernel)

/-- One row for a vector column of 2^62 entries a row. -/
example : (Table.mk "t" ⟨[⟨"v", .vector 4611686018427387904⟩]⟩ [.vector 4611686018427387904 []]
    0).insertMany [[.i64 1]] = (crash "capacity overflow",
      ⟨"t", ⟨[⟨"v", .vector 4611686018427387904⟩]⟩, [.vector 4611686018427387904 []], 0⟩) := by
  decide +kernel

theorem batch_insert_allOrNothing_ints :
    intsTable.AllOrNothing [[.i64 1], [.i64 2]] (intsTable.insertMany [[.i64 1], [.i64 2]]) ∧
      intsDatabase.AllOrNothing id "t" [[.i64 1], [.i64 2]]
        (intsDatabase.insertRows id .done "t" [[.i64 1], [.i64 2]]) := by
  have hty : ∀ t, intsDatabase.tables.table id "t" = some t → t.Typed := by
    intro t ht
    have hl : intsDatabase.tables.table id "t" = some intsTable := by decide +kernel
    obtain rfl := Option.some.inj (hl.symm.trans ht)
    exact .cons rfl .nil
  have hrows : ∀ r ∈ [[Value.i64 1], [.i64 2]], intsTable.schema.Accepts r := by decide
  have hl : intsDatabase.tables.table id "t" = some intsTable := by decide +kernel
  have hroom : intsTable.Reserves 2 := by decide
  refine ⟨((batch_insert_allOrNothing id).1 intsTable _ (.cons rfl .nil)).mpr ⟨hroom, .inl hrows⟩, ?_⟩
  refine ((batch_insert_allOrNothing id).2 intsDatabase .done "t" _ hty).1.mpr ?_
  exact .inr ⟨intsTable, hl, hroom, .inl hrows, fun _ => .inr (fun s hs => by cases hs)⟩

end Veldb
