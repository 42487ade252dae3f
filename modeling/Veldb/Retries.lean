import Veldb.AcceptedSnapshot
import Veldb.Follow

/-! When a replica may ask again for a batch that was cut short. What a batch does to the tables is
followed by names and schemas alone: which tables it makes and drops, and which of them get rows. -/

namespace Veldb

open Attempts

/-- What `pull_once` reads of a record before it changes anything. -/
def readRecord (schemas : String → Option Schema) (lsn : UInt64) (rec : ReplyRecord) :
    Exec WalRecord :=
  match rec.lsn with
  | none => bail "запись без lsn"
  | some recLsn =>
    if recLsn ≠ lsn + 1 then
      bail s!"разрыв в WAL: ожидался lsn={(lsn + 1).toNat}, пришёл {recLsn.toNat}"
    else
      match rec.payload with
      | none => bail "запись без payload"
      | some text => do
        let payload ← unhex text
        withContext s!"разбор записи lsn={recLsn.toNat}" (WalRecord.decode payload schemas)

/-- The tables by name: their schemas, and whether they still are as the batch found them. -/
abbrev Outline := String → Option (Schema × Bool)

namespace Outline

def ofCatalog (m : Catalog) : Outline :=
  fun k => (m.lookup k).map fun t => (t.schema, true)

def schemas (lower : String → String) (o : Outline) (name : String) : Option Schema :=
  (o (lower name)).map Prod.fst

/-- Whether a record is refused, and what it leaves: the rows before a refused one stay. -/
def take (lower : String → String) (o : Outline) : WalRecord → Bool × Outline
  | .createTable name schema =>
    if schema.validate = .ok () then
      (true, Function.update o (lower name) (some (schema, false)))
    else (false, o)
  | .dropTable name => (true, Function.update o (lower name) none)
  | .insert name rows =>
    match o (lower name) with
    | none => (false, o)
    | some (schema, _) =>
      (decide (∀ row ∈ rows, schema.Accepts row),
        if rows.head?.any fun row => decide (schema.Accepts row) then
          Function.update o (lower name) (some (schema, false))
        else o)

/-- What is left of the outline where a batch has a record that is refused. Of a batch that is taken
whole, and of one that ends at a gap, nothing is asked for again. -/
def refused (lower : String → String) (o : Outline) (lsn : UInt64) :
    List ReplyRecord → Option Outline
  | [] => none
  | rec :: rs =>
    match readRecord (o.schemas lower) lsn rec with
    | .error e => if e.isGap then none else some o
    | .ok r =>
      if (o.take lower r).1 then (o.take lower r).2.refused lower (lsn + 1) rs
      else some (o.take lower r).2

end Outline

/-- The record that is refused, if there is one, is the first of its batch, or it and those before it
leave every table as it was: no table with a row more, none made that is not dropped again, and none
dropped. -/
def Spared (lower : String → String) (m : Catalog) (lsn : UInt64) (reply : Exec WalReply) : Prop :=
  ∀ records o, reply = .ok ⟨some records⟩ →
    (Outline.ofCatalog m).refused lower lsn records = some o → o = Outline.ofCatalog m

def Catalog.Typed (m : Catalog) : Prop :=
  ∀ k t, m.lookup k = some t → t.Typed

/-- The outline of the tables `m`, drawn from `m₀`. -/
structure Outline.Drawn (m₀ m : Catalog) (o : Outline) : Prop where
  shape : ∀ k, (o k).map Prod.fst = (m.lookup k).map Table.schema
  same : ∀ k schema, o k = some (schema, true) → m.lookup k = m₀.lookup k

variable {lower : String → String} {m₀ m m' : Catalog} {o : Outline} {lsn : UInt64}

namespace Catalog.Typed

theorem setSlot (h : m.Typed) (k : String) {s : Option Table} (hs : ∀ t ∈ s, t.Typed) :
    (m.setSlot k s).Typed := by
  intro k' t ht
  rw [Catalog.lookup_setSlot] at ht
  split_ifs at ht with hk
  · exact hs t ht
  · exact h k' t ht

theorem insertEach {t : Table} (ht : t.Typed) (rows : List (List Value)) :
    (t.insertEach rows).2.Typed := by
  induction rows generalizing t with
  | nil => exact ht
  | cons row rows ih =>
    by_cases hrow : t.schema.Accepts row
    · obtain ⟨cs, hins, hcs, -⟩ := Table.insert_accepted ht hrow
      rw [Table.insertEach, hins]
      exact ih hcs
    · obtain ⟨m, hins⟩ := Table.insert_rejected ht hrow
      rw [Table.insertEach, hins]
      exact ht

theorem insertMany {t : Table} (ht : t.Typed) (rows : List (List Value)) :
    (t.insertMany rows).2.Typed := by
  have heach := insertEach ht rows
  by_cases hroom : t.Reserves rows.length
  · rcases hi : t.insertEach rows with ⟨e | u, t'⟩
    · rw [hi] at heach
      rw [Table.insertMany_error hroom hi]
      exact heach
    · rw [hi] at heach
      rw [Table.insertMany_ok hroom hi]
      exact heach
  · obtain ⟨place, hi⟩ := Table.insertMany_unreserved hroom
    rw [hi]
    exact ht

theorem apply (h : m.Typed) (r : WalRecord) : (m.apply lower r).2.Typed := by
  cases r with
  | createTable name schema =>
    cases hn : Table.new name schema with
    | error e =>
      simp only [Catalog.apply, hn]
      exact h
    | ok t =>
      simp only [Catalog.apply, hn]
      exact h.setSlot _ fun t' ht' => Option.some.inj ht' ▸ (Table.new_shape hn).isTyped
  | dropTable name => exact h.setSlot (lower name) (s := none) (by simp)
  | insert name rows =>
    have hinner : (m.insertInner lower name rows).2.Typed := by
      cases hl : m.lookup (lower name) with
      | none =>
        simp only [Catalog.insertInner, Catalog.table, hl]
        exact h
      | some t =>
        simp only [Catalog.insertInner, Catalog.table, hl]
        exact h.setSlot _ fun t' ht' => Option.some.inj ht' ▸ insertMany (h _ t hl) rows
    rcases hi : m.insertInner lower name rows with ⟨e | n, m'⟩
    · rw [hi] at hinner
      simp only [Catalog.apply, hi]
      exact hinner
    · rw [hi] at hinner
      simp only [Catalog.apply, hi]
      exact hinner

end Catalog.Typed

theorem takeRecord_unread {rec : ReplyRecord} {e : Fault}
    (h : readRecord (m.schemaOf lower) lsn rec = .error e) :
    takeRecord lower m lsn rec = (.error e, m) := by
  simp only [takeRecord, Database.pullRecords]
  simp only [readRecord] at h
  cases hlsn : rec.lsn with
  | none =>
    simp only [hlsn] at h ⊢
    obtain rfl := Except.error.inj h
    rfl
  | some recLsn =>
    simp only [hlsn] at h ⊢
    by_cases hl : recLsn ≠ lsn + 1
    · simp only [if_pos hl] at h ⊢
      obtain rfl := Except.error.inj h
      rfl
    · simp only [if_neg hl] at h ⊢
      cases hpay : rec.payload with
      | none =>
        simp only [hpay] at h ⊢
        obtain rfl := Except.error.inj h
        rfl
      | some text =>
        simp only [hpay] at h ⊢
        rcases bind_eq_error.mp h with hhex | ⟨payload, hhex, hdec⟩
        · simp only [hhex]
        · simp only [hhex, hdec]

/-- A record that is read is applied, and its context does not turn an error into a panic. -/
theorem takeRecord_read {rec : ReplyRecord} {r : WalRecord}
    (h : readRecord (m.schemaOf lower) lsn rec = .ok r) :
    ((m.apply lower r).1 = .ok () ∧ takeRecord lower m lsn rec = (.ok (), (m.apply lower r).2)) ∨
      ∃ e e', (m.apply lower r).1 = .error e ∧
        takeRecord lower m lsn rec = (.error e', (m.apply lower r).2) ∧
        (e.IsCrash → e'.IsCrash) := by
  simp only [readRecord] at h
  cases hlsn : rec.lsn with
  | none =>
    simp only [hlsn] at h
    cases h
  | some recLsn =>
    simp only [hlsn] at h
    by_cases hl : recLsn ≠ lsn + 1
    · simp only [if_pos hl] at h
      cases h
    · simp only [if_neg hl] at h
      cases hpay : rec.payload with
      | none =>
        simp only [hpay] at h
        cases h
      | some text =>
        simp only [hpay] at h
        obtain ⟨payload, hhex, hdec⟩ := bind_eq_ok.mp h
        simp only [takeRecord, Database.pullRecords, hlsn, if_neg hl, hpay, hhex, hdec]
        rcases happ : m.apply lower r with ⟨e | u, m'⟩
        · cases e with
          | bail msg => exact .inr ⟨.bail msg, _, rfl, rfl, id⟩
          | crash place => exact .inr ⟨.crash place, _, rfl, rfl, id⟩
        · exact .inl ⟨rfl, rfl⟩

namespace Outline.Drawn

theorem ofCatalog (m : Catalog) : Drawn m m (Outline.ofCatalog m) where
  shape k := by
    unfold Outline.ofCatalog
    cases m.lookup k <;> rfl
  same _ _ _ := rfl

theorem schemas_eq (h : Drawn m₀ m o) : o.schemas lower = m.schemaOf lower :=
  funext fun name => h.shape (lower name)

theorem set (h : Drawn m₀ m o) (k : String) (s : Option Table) :
    Drawn m₀ (m.setSlot k s) (Function.update o k (s.map fun t => (t.schema, false))) where
  shape k' := by
    rw [Catalog.lookup_setSlot]
    by_cases hk : k' = k
    · subst hk
      rw [Function.update_self, if_pos rfl]
      cases s <;> rfl
    · rw [Function.update_of_ne hk, if_neg hk]
      exact h.shape k'
  same k' schema ho := by
    rw [Catalog.lookup_setSlot]
    by_cases hk : k' = k
    · subst hk
      rw [Function.update_self] at ho
      cases s with
      | none => cases ho
      | some t => cases ho
    · rw [Function.update_of_ne hk] at ho
      rw [if_neg hk]
      exact h.same k' schema ho

/-- A batch that leaves the outline leaves the tables. -/
theorem eq_of_same (h : Drawn m₀ m (Outline.ofCatalog m₀)) : m = m₀ := by
  refine Finmap.ext_lookup fun k => ?_
  cases hk : m₀.lookup k with
  | none =>
    have hshape := h.shape k
    rw [Outline.ofCatalog, hk] at hshape
    cases hm : m.lookup k with
    | none => rfl
    | some t =>
      rw [hm] at hshape
      cases hshape
  | some t =>
    rw [← hk]
    exact h.same k t.schema (by rw [Outline.ofCatalog, hk]; rfl)

/-- Rows put into a table, up to the first that is refused. -/
theorem insertMany (h : Drawn m₀ m o) (hm : m.Typed) {k : String} {t : Table} (ht : m.lookup k = some t)
    {rows : List (List Value)} (hroom : t.Reserves rows.length) :
    ((∃ n, (t.insertMany rows).1 = .ok n) ↔ ∀ row ∈ rows, t.schema.Accepts row) ∧
      Drawn m₀ (m.insert k (t.insertMany rows).2)
        (if rows.head?.any fun row => decide (t.schema.Accepts row) then
          Function.update o k (some (t.schema, false))
        else o) := by
  have hput : ∀ {t' : Table} {good : List (List Value)}, t.Appends good t' →
      (rows.head?.any fun row => decide (t.schema.Accepts row)) = !good.isEmpty →
      Drawn m₀ (m.insert k t') (if rows.head?.any fun row => decide (t.schema.Accepts row) then
          Function.update o k (some (t.schema, false))
        else o) := by
    intro t' good happ hhead
    rw [hhead]
    cases good with
    | nil =>
      obtain rfl := happ.nil_eq
      rw [Catalog.insert_lookup_self ht]
      exact h
    | cons row good =>
      have hset := h.set k (some t')
      rw [Option.map_some, happ.schema] at hset
      exact hset
  rcases t.schema.accepts_or_split rows with hall | ⟨good, bad, rest, rfl, hgood, hbad⟩
  · obtain ⟨t', hi, -, happ⟩ := Table.insertMany_accepted (hm k t ht) hall hroom
    rw [hi]
    refine ⟨iff_of_true ⟨_, rfl⟩ hall, hput happ ?_⟩
    cases rows with
    | nil => rfl
    | cons row rows => simp [hall row (by simp)]
  · obtain ⟨msg, t', hi, happ⟩ := Table.insertMany_rejected (hm k t ht) hgood hbad hroom
    rw [hi]
    refine ⟨iff_of_false (by rintro ⟨n, ⟨⟩⟩) fun hall => hbad (hall bad (by simp)), hput happ ?_⟩
    cases good with
    | nil => simp [hbad]
    | cons row good => simp [hgood row (by simp)]

/-- One record on the tables and on their outline, panics apart. -/
theorem apply (h : Drawn m₀ m o) (hm : m.Typed) (r : WalRecord) :
    (∃ place, (m.apply lower r).1 = crash place) ∨
      ((m.apply lower r).1 = .ok () ↔ (o.take lower r).1 = true) ∧
        Drawn m₀ (m.apply lower r).2 (o.take lower r).2 := by
  cases r with
  | createTable name schema =>
    refine .inr ?_
    cases hn : Table.new name schema with
    | error e =>
      have hvalid : schema.validate ≠ .ok () := by
        intro hv
        rw [Table.new, hv] at hn
        cases hn
      simp only [Catalog.apply, hn, Outline.take, if_neg hvalid]
      exact ⟨by simp, h⟩
    | ok t =>
      obtain ⟨hvalid, rfl⟩ := Table.new_ok hn
      have htake : o.take lower (.createTable name schema) =
          (true, Function.update o (lower name) (some (schema, false))) := if_pos hvalid
      have happly : m.apply lower (.createTable name schema) =
          (.ok (), m.putTable lower ⟨name, schema, schema.fields.map (fun f => Column.empty f.ty), 0⟩) := by
        simp only [Catalog.apply, hn]
      rw [htake, happly]
      exact ⟨iff_of_true rfl rfl, h.set (lower name) (some _)⟩
  | dropTable name => exact .inr ⟨iff_of_true rfl rfl, h.set (lower name) none⟩
  | insert name rows =>
    have hshape := h.shape (lower name)
    cases hl : m.lookup (lower name) with
    | none =>
      rw [hl] at hshape
      have ho : o (lower name) = none := Option.map_eq_none_iff.mp hshape
      simp only [Catalog.apply, Catalog.insertInner, Catalog.table, hl, Outline.take, ho]
      refine .inr ⟨iff_of_false (fun hok => ?_) (by simp), h⟩
      cases hok
    | some t =>
      rw [hl] at hshape
      obtain ⟨⟨schema, old⟩, ho, hschema⟩ := Option.map_eq_some_iff.mp hshape
      obtain rfl : schema = t.schema := hschema
      by_cases hroom : t.Reserves rows.length
      · obtain ⟨hok, hdrawn⟩ := h.insertMany hm hl hroom
        refine .inr ?_
        simp only [Catalog.apply, Catalog.insertInner, Catalog.table, hl, Outline.take, ho]
        rcases hi : t.insertMany rows with ⟨e | n, t'⟩
        · rw [hi] at hok hdrawn
          refine ⟨iff_of_false (by simp) fun htrue => ?_, hdrawn⟩
          obtain ⟨n, hn⟩ := hok.mpr (of_decide_eq_true htrue)
          cases hn
        · rw [hi] at hok hdrawn
          exact ⟨iff_of_true rfl (decide_eq_true (hok.mp ⟨n, rfl⟩)), hdrawn⟩
      · obtain ⟨place, hi⟩ := Table.insertMany_unreserved hroom
        refine .inl ⟨place, ?_⟩
        simp only [Catalog.apply, Catalog.insertInner, Catalog.table, hl, hi]
        rfl

end Outline.Drawn

/-- A batch that a record cuts short, without a gap or a panic, leaves the tables that its outline
shows. -/
theorem refused_of_cut {records good rest : List ReplyRecord} {bad : ReplyRecord} {msg : String}
    {m'' : Catalog} (h : o.Drawn m₀ m) (hm : m.Typed) (hsplit : records = good ++ bad :: rest)
    (hgood : TakesAll lower m lsn good m')
    (hbad : takeRecord lower m' (lsn + UInt64.ofNat good.length) bad = (.error (.bail msg), m''))
    (hgap : (Fault.bail msg).isGap = false) :
    ∃ o', o.refused lower lsn records = some o' ∧ o'.Drawn m₀ m'' := by
  subst hsplit
  induction good generalizing o m lsn with
  | nil =>
    obtain rfl : m' = m := hgood
    have hlsn : lsn + UInt64.ofNat ([] : List ReplyRecord).length = lsn := by simp
    rw [hlsn] at hbad
    rw [List.nil_append, Outline.refused, h.schemas_eq]
    rcases hread : readRecord (m'.schemaOf lower) lsn bad with e | r
    · obtain ⟨he, rfl⟩ := Prod.mk.inj ((takeRecord_unread hread).symm.trans hbad)
      obtain rfl := Except.error.inj he
      exact ⟨o, by simp only [hgap, Bool.false_eq_true, if_false], h⟩
    · rcases takeRecord_read hread with ⟨-, hok⟩ | ⟨e, e', happ, herr, hcrash⟩
      · cases (Prod.mk.inj (hok.symm.trans hbad)).1
      · obtain ⟨he, rfl⟩ := Prod.mk.inj (herr.symm.trans hbad)
        obtain rfl := Except.error.inj he
        rcases h.apply hm r with ⟨place, hplace⟩ | ⟨htake, hdrawn⟩
        · obtain rfl := Except.error.inj (happ.symm.trans hplace)
          exact (hcrash trivial).elim
        · have hrefused : ¬ (o.take lower r).1 = true := fun htrue => by
            cases happ.symm.trans (htake.mpr htrue)
          exact ⟨_, by simp only [hrefused, Bool.false_eq_true, if_false], hdrawn⟩
  | cons rec good ih =>
    obtain ⟨m₁, htakes, hgood⟩ := hgood
    have hlsn : lsn + UInt64.ofNat (rec :: good).length = lsn + 1 + UInt64.ofNat good.length := by
      rw [List.length_cons, ← Wal.ofNat_succ, UInt64.add_assoc, UInt64.add_comm 1]
    rw [hlsn] at hbad
    rw [List.cons_append, Outline.refused, h.schemas_eq]
    rcases hread : readRecord (m.schemaOf lower) lsn rec with e | r
    · cases (Prod.mk.inj ((takeRecord_unread hread).symm.trans htakes)).1
    · rcases takeRecord_read hread with ⟨happ, hok⟩ | ⟨e, e', -, herr, -⟩
      · obtain rfl := (Prod.mk.inj (hok.symm.trans htakes)).2
        rcases h.apply hm r with ⟨place, hplace⟩ | ⟨htake, hdrawn⟩
        · cases happ.symm.trans hplace
        · simp only [htake.mp happ, if_true]
          exact ih hdrawn (hm.apply r) hgood hbad
      · cases (Prod.mk.inj (herr.symm.trans htakes)).1

theorem Spared.unharmed {reply : Exec WalReply} (hm : m.Typed) (h : Spared lower m lsn reply) :
    Unharmed lower m lsn reply := by
  intro records good bad rest m' msg m'' hreply hsplit hgood hbad hgap
  obtain ⟨o, ho, hdrawn⟩ := refused_of_cut (.ofCatalog m) hm hsplit hgood hbad hgap
  rw [h records o hreply ho] at hdrawn
  exact hdrawn.eq_of_same

/-! What the loop holds is typed from its first snapshot on. -/

section Loop

variable {s s' : Follower} {snapshot : Exec Bytes} {reply : Exec WalReply} {l : UInt64}
  {db db' : Database}

theorem pullRecords_typed (hm : m.Typed) (n : Nat) (records : List ReplyRecord) :
    (Database.pullRecords lower m lsn n records).2.Typed := by
  induction records generalizing m lsn n with
  | nil => exact hm
  | cons rec records ih =>
    have htake : ∀ {x : Exec Unit} {m' : Catalog}, takeRecord lower m lsn rec = (x, m') →
        m'.Typed := by
      intro x m' h
      rcases hread : readRecord (m.schemaOf lower) lsn rec with e | r
      · rwa [← (Prod.mk.inj ((takeRecord_unread hread).symm.trans h)).2]
      · rcases takeRecord_read hread with ⟨-, hok⟩ | ⟨e, e', -, herr, -⟩
        · rw [← (Prod.mk.inj (hok.symm.trans h)).2]
          exact hm.apply r
        · rw [← (Prod.mk.inj (herr.symm.trans h)).2]
          exact hm.apply r
    rcases pullRecords_cons lower m lsn n rec records with ⟨m', h, hpull⟩ | ⟨e, m', h, hpull⟩
    · rw [hpull]
      exact ih (htake h) (n + 1)
    · rw [hpull]
      exact htake h

theorem pullOnce_typed (hdb : db.tables.Typed) : (db.pullOnce lower reply l).2.tables.Typed := by
  unfold Database.pullOnce
  split
  · exact hdb
  · exact hdb
  · exact pullRecords_typed hdb 0 _

theorem loadSnapshotBytes_typed {bytes : Bytes}
    (h : db.loadSnapshotBytes lower bytes = (.ok l, db')) : db'.tables.Typed := by
  unfold Database.loadSnapshotBytes at h
  cases hdec : decodeSnapshot bytes with
  | error e =>
    rw [hdec] at h
    cases (Prod.mk.inj h).1
  | ok loaded =>
    obtain ⟨tables, lsn⟩ := loaded
    rw [hdec] at h
    obtain rfl := (Prod.mk.inj h).2
    have hall : ∀ (ts : List Table) (m : Catalog), (∀ t ∈ ts, t.Typed) → m.Typed →
        (ts.foldl (Catalog.putTable lower) m).Typed := by
      intro ts
      induction ts with
      | nil => exact fun m _ hm => hm
      | cons t ts ih =>
        intro m hts hm
        refine ih _ (fun t' ht' => hts t' (by simp [ht'])) ?_
        exact hm.setSlot (lower t.name) (s := some t) (by simp [hts t (by simp)])
    exact hall tables ∅ (fun t ht => (decodeSnapshot_loaded hdec t ht).aligned.typed)
      (fun k t ht => by simp at ht)

theorem pullFrom_typed (hs : ∀ k, s.applied = some k → s.db.tables.Typed)
    (h : s.pullFrom lower snapshot = (.ok l, db)) : db.tables.Typed := by
  unfold Follower.pullFrom at h
  cases happ : s.applied with
  | some k =>
    rw [happ] at h
    obtain ⟨-, rfl⟩ := Prod.mk.inj h
    exact hs k happ
  | none =>
    simp only [happ] at h
    unfold Database.bootstrap at h
    cases hb : withContext "снапшот с первичного узла" snapshot with
    | error e =>
      rw [hb] at h
      cases (Prod.mk.inj h).1
    | ok bytes =>
      rw [hb] at h
      exact loadSnapshotBytes_typed h

theorem follow_typed (hs : ∀ k, s.applied = some k → s.db.tables.Typed)
    (h : s.follow lower snapshot reply = some s') :
    ∀ k, s'.applied = some k → s'.db.tables.Typed := by
  intro k hk
  unfold Follower.follow at h
  rcases hp : s.pullFrom lower snapshot with ⟨e | l, db⟩
  · rw [hp] at h
    cases e with
    | crash place => cases h
    | bail msg =>
      obtain rfl := Option.some.inj h
      simp at hk
  · have hdb := pullFrom_typed hs hp
    have hpulled : (db.pullOnce lower reply l).2.tables.Typed := pullOnce_typed hdb
    rw [hp] at h
    rcases hpull : db.pullOnce lower reply l with ⟨e | ⟨lsn, n⟩, db'⟩
    · rw [hpull] at hpulled
      simp only [hpull] at h
      cases e with
      | crash place => cases h
      | bail msg =>
        obtain rfl := Option.some.inj h
        exact hpulled
    · rw [hpull] at hpulled
      simp only [hpull] at h
      obtain rfl := Option.some.inj h
      exact hpulled

end Loop

/-- In every iteration that does not end the loop the batch is spared. -/
def SparedRun (lower : String → String) : Follower → List (Exec Bytes × Exec WalReply) → Prop
  | _, [] => True
  | s, (snapshot, reply) :: answers =>
    ∀ s' ∈ s.follow lower snapshot reply,
      (∀ l db, s.pullFrom lower snapshot = (.ok l, db) → Spared lower db.tables l reply) ∧
        SparedRun lower s' answers

theorem SparedRun.unharmed {s : Follower} {answers : List (Exec Bytes × Exec WalReply)}
    (hs : ∀ k, s.applied = some k → s.db.tables.Typed) (h : SparedRun lower s answers) :
    UnharmedRun lower s answers := by
  induction answers generalizing s with
  | nil => trivial
  | cons answer answers ih =>
    obtain ⟨snapshot, reply⟩ := answer
    refine ⟨fun hsome l db hp => ?_, fun s' hs' => ?_⟩
    · obtain ⟨s', hs'⟩ := Option.ne_none_iff_exists'.mp hsome
      exact ((h s' hs').1 l db hp).unharmed (pullFrom_typed hs hp)
    · exact ih (follow_typed hs hs') (h s' hs').2

/-- Whatever the primary and the network answer: where every batch is spared, the replica is at
every iteration at the number it keeps. -/
theorem spared_steady (lower : String → String) (s : Follower) (h : s.applied = none) (L : Ledger)
    (answers : List (Exec Bytes × Exec WalReply)) (hspared : SparedRun lower s answers) :
    Steady lower L s answers := by
  refine (steady_of_shows fun l hl => ?_).mpr (hspared.unharmed fun k hk => ?_)
  · rw [h] at hl
    cases hl
  · rw [h] at hk
    cases hk

def shipped (lsn : UInt64) (r : WalRecord) : ReplyRecord :=
  ⟨some lsn, some (hex r.payload)⟩

def blank : Follower :=
  ⟨Database.new, none⟩

/-- The replica with the empty table `t`. -/
def tabled : Database :=
  { Database.new with tables := Finmap.insert "t" (intsWith []) ∅ }

def firstAnswer : Exec Bytes × Exec WalReply :=
  (encodeSnapshot [] 0, .ok ⟨some [shipped 1 (.createTable "t" ⟨[⟨"x", .i64⟩]⟩)]⟩)

theorem follow_first : blank.follow id firstAnswer.1 firstAnswer.2 = some ⟨tabled, some 1⟩ := by
  decide +kernel

/-- A table, and then a batch whose first record cannot be read. -/
def unreadAnswers : List (Exec Bytes × Exec WalReply) :=
  [firstAnswer, (.error (.bail ""), .ok ⟨some [⟨some 2, some "zz"⟩, ⟨some 3, none⟩]⟩)]

theorem spared_steady_unread : Steady id ⟨∅, 0, []⟩ blank unreadAnswers := by
  refine spared_steady id blank rfl _ _ fun s' hs' => ⟨fun l db hp records o hreply ho => ?_, ?_⟩
  · have hl : blank.pullFrom id firstAnswer.1 = (.ok 0, Database.new) := by decide +kernel
    obtain ⟨hl, rfl⟩ := Prod.mk.inj (hl.symm.trans hp)
    obtain rfl := Except.ok.inj hl
    obtain rfl := Option.some.inj (WalReply.mk.inj (Except.ok.inj hreply))
    have hwhole : ((Outline.ofCatalog Database.new.tables).refused id 0
        [shipped 1 (.createTable "t" ⟨[⟨"x", .i64⟩]⟩)]).isSome = false := by decide +kernel
    rw [ho] at hwhole
    cases hwhole
  · obtain rfl := Option.some.inj (hs'.symm.trans follow_first)
    refine fun s'' _ => ⟨fun l db hp records o hreply ho => ?_, trivial⟩
    obtain ⟨hl, rfl⟩ := Prod.mk.inj hp
    obtain rfl := Except.ok.inj hl
    obtain rfl := Option.some.inj (WalReply.mk.inj (Except.ok.inj hreply))
    exact (Option.some.inj ho).symm

/-- The batch is cut short behind a row; the retry brings the row a second time. -/
def doublingAnswers : List (Exec Bytes × Exec WalReply) :=
  [firstAnswer,
    (.error (.bail ""), .ok ⟨some [shipped 2 (.insert "t" [[.i64 1]]), ⟨some 3, some "zz"⟩]⟩),
    (.error (.bail ""), .ok ⟨some [shipped 2 (.insert "t" [[.i64 1]])]⟩)]

theorem retried_batch_doubles_row :
    (doublingAnswers.foldlM (fun (s : Follower) a => s.follow id a.1 a.2) blank).map
        (fun s => (s.applied, s.db.tables.lookup "t")) = some (some 2, some (intsWith [1, 1])) ∧
      ¬Steady id ⟨∅, 0, []⟩ blank doublingAnswers := by
  refine ⟨by decide +kernel, fun hsteady => ?_⟩
  have hshows : Ledger.Shows id ⟨∅, 0, []⟩ blank := nofun
  obtain ⟨-, hrest⟩ := (steady_of_shows hshows).mp hsteady
  obtain ⟨hone, -⟩ := hrest _ follow_first
  have hunharmed := unharmed_iff.mp (hone (by decide +kernel) 1 tabled rfl)
  have hkept := hunharmed _ _ (Prod.ext rfl rfl) (by decide +kernel)
  revert hkept
  decide +kernel

end Veldb
