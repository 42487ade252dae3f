import Veldb.AppendFailures
import Veldb.ConcurrentWriters

/-! Calls whose append fails. Memory has the change already and keeps it, so the
directory and memory part ways unless there was nothing to change. -/

namespace Veldb

open Wal

variable {lower : String → String}

/-- Equal up to their rows, of which the second has no more: it takes what the first takes from here
on. -/
structure Table.Alike (t t' : Table) : Prop where
  name : t.name = t'.name
  schema : t.schema = t'.schema
  typed : t.Typed
  typed' : t'.Typed
  room : ∀ (j : Nat) c c', t.columns[j]? = some c → t'.columns[j]? = some c' →
    ∀ extra, c'.room extra ≤ c.room extra

namespace Table

theorem Alike.refl {t : Table} (ht : t.Typed) : t.Alike t :=
  ⟨rfl, rfl, ht, ht, fun _ _ _ hc hc' _ => (Option.some.inj (hc.symm.trans hc')) ▸ Nat.le_refl _⟩

theorem Alike.reserves {t t' : Table} (h : t.Alike t') {extra : Nat} (hroom : t.Reserves extra) :
    t'.Reserves extra := by
  intro c' hc'
  obtain ⟨j, hj⟩ := List.getElem?_of_mem hc'
  have hlen : t.columns.length = t'.columns.length := by
    rw [h.typed.length_eq, h.typed'.length_eq, h.schema]
  have hlt : j < t.columns.length := hlen ▸ (List.getElem?_eq_some_iff.mp hj).1
  have hc : t.columns[j]? = some t.columns[j] := List.getElem?_eq_getElem hlt
  exact (h.room j _ _ hc hj extra).trans (hroom _ (List.mem_of_getElem? hc))

/-- The same rows at the end of a column take the same bytes. -/
theorem Appends.room {t t' : Table} {rows : List (List Value)} (ha : t.Appends rows t') {j : Nat}
    {c' : Column} (hc' : t'.columns[j]? = some c') (extra : Nat) :
    ∃ c, t.columns[j]? = some c ∧ c'.room extra =
      c.room extra + ((rows.filterMap (fun r => r[j]?)).map Column.entryBytes).sum := by
  have hlt : j < t.columns.length := ha.columns ▸ (List.getElem?_eq_some_iff.mp hc').1
  have hc : t.columns[j]? = some t.columns[j] := List.getElem?_eq_getElem hlt
  exact ⟨_, hc, Column.room_pushes (ha.values j _ _ hc hc') extra⟩

theorem Alike.insertMany {t t' u : Table} {rows : List (List Value)} {n : Nat} (h : t.Alike t')
    (hi : t.insertMany rows = (.ok n, u)) :
    ∃ u', t'.insertMany rows = (.ok n, u') ∧ u.Alike u' := by
  have ha := accepts_of_insertMany h.typed hi
  have hroom := reserves_of_insertMany hi
  obtain ⟨t₁, h₁, hty, happ⟩ := insertMany_accepted h.typed ha hroom
  obtain ⟨t₂, h₂, hty', happ'⟩ := insertMany_accepted h.typed' (h.schema ▸ ha) (h.reserves hroom)
  obtain ⟨hn, rfl⟩ := Prod.mk.inj (h₁.symm.trans hi)
  refine ⟨t₂, hn ▸ h₂, ?_, ?_, hty, hty', fun j c c' hc hc' extra => ?_⟩
  · rw [happ.name, happ'.name, h.name]
  · rw [happ.schema, happ'.schema, h.schema]
  · obtain ⟨d, hd, heq⟩ := happ.room hc extra
    obtain ⟨d', hd', heq'⟩ := happ'.room hc' extra
    have hle := h.room j d d' hd hd' extra
    omega

theorem insertMany_snd (t : Table) (rows : List (List Value)) :
    (t.insertMany rows).2 = t ∨ (t.insertMany rows).2 = (t.insertEach rows).2 := by
  by_cases hroom : t.Reserves rows.length
  · refine Or.inr ?_
    rcases he : t.insertEach rows with ⟨e | ⟨⟩, t'⟩
    · rw [insertMany_error hroom he]
    · rw [insertMany_ok hroom he]
  · obtain ⟨place, hi⟩ := insertMany_unreserved hroom
    exact Or.inl (by rw [hi])

theorem insertEach_typed {t : Table} (ht : t.Typed) (rows : List (List Value)) :
    (t.insertEach rows).2.Typed := by
  induction rows generalizing t with
  | nil => exact ht
  | cons r rs ih =>
    rw [insertEach]
    by_cases ha : t.schema.Accepts r
    · obtain ⟨cs, hins, hty, -⟩ := insert_accepted ht ha
      rw [hins]
      exact ih (t := { t with columns := cs, nrows := t.nrows + 1 }) hty
    · obtain ⟨e, hrej⟩ := insert_rejected ht ha
      rw [hrej]
      exact ht

theorem insertMany_typed {t : Table} (ht : t.Typed) (rows : List (List Value)) :
    (t.insertMany rows).2.Typed := by
  rcases t.insertMany_snd rows with h | h
  · rw [h]
    exact ht
  · rw [h]
    exact insertEach_typed ht rows

theorem Alike.rejected {t t' u : Table} {rows : List (List Value)} {e : Fault} (h : t.Alike t')
    (hi : t.insertMany rows = (.error e, u)) : u.Alike t' := by
  by_cases hroom : t.Reserves rows.length
  swap
  · obtain ⟨place, hcrash⟩ := insertMany_unreserved hroom
    obtain ⟨-, rfl⟩ := Prod.mk.inj (hcrash.symm.trans hi)
    exact h
  rcases t.schema.accepts_or_split rows with hall | ⟨good, bad, rest, rfl, hg, hb⟩
  · obtain ⟨t₁, h₁, -, -⟩ := insertMany_accepted h.typed hall hroom
    rw [h₁] at hi
    cases (Prod.mk.inj hi).1
  · obtain ⟨m, t₁, h₁, happ⟩ := insertMany_rejected h.typed hg hb hroom
    obtain ⟨-, rfl⟩ := Prod.mk.inj (h₁.symm.trans hi)
    have hty := insertMany_typed h.typed (good ++ bad :: rest)
    rw [hi] at hty
    refine ⟨happ.name.trans h.name, happ.schema.trans h.schema, hty, h.typed',
      fun j c c' hc hc' extra => ?_⟩
    obtain ⟨d, hd, heq⟩ := happ.room hc extra
    have hle := h.room j d c' hd hc' extra
    omega

end Table

namespace Catalog

def Alike (m m' : Catalog) : Prop :=
  ∀ k, Option.Rel Table.Alike (m.lookup k) (m'.lookup k)

theorem Sound.alike {m : Catalog} (h : m.Sound lower) : m.Alike m := by
  intro k
  cases hl : m.lookup k with
  | none => exact .none
  | some t =>
    exact .some (.refl (h.shaped k t hl).isTyped)

theorem Alike.lookup {m m' : Catalog} (h : m.Alike m') {k : String} {t : Table}
    (hl : m.lookup k = some t) : ∃ t', m'.lookup k = some t' ∧ t.Alike t' := by
  have hk := h k
  rw [hl] at hk
  generalize m'.lookup k = o at hk
  cases hk with
  | some ha => exact ⟨_, rfl, ha⟩

theorem Alike.lookup_none {m m' : Catalog} (h : m.Alike m') {k : String}
    (hl : m.lookup k = none) : m'.lookup k = none := by
  have hk := h k
  rw [hl] at hk
  generalize m'.lookup k = o at hk
  cases hk with
  | none => rfl

theorem Alike.typed {m m' : Catalog} (h : m.Alike m') {k : String} {t : Table}
    (hl : m.lookup k = some t) : t.Typed := by
  obtain ⟨t', -, ha⟩ := h.lookup hl
  exact ha.typed

theorem Alike.setSlot {m m' : Catalog} (h : m.Alike m') {s s' : Option Table}
    (hs : Option.Rel Table.Alike s s') (k : String) : (m.setSlot k s).Alike (m'.setSlot k s') := by
  intro k'
  rw [lookup_setSlot, lookup_setSlot]
  split
  · exact hs
  · exact h k'

theorem slotApply_alike {s s' o : Option Table} {r : WalRecord} (h : Option.Rel Table.Alike s s')
    (ha : slotApply s r = .ok o) : ∃ o', slotApply s' r = .ok o' ∧ Option.Rel Table.Alike o o' := by
  cases r with
  | createTable name schema =>
    cases hn : Table.new name schema with
    | error e => simp [slotApply, hn, Functor.map, Except.map] at ha
    | ok t =>
      obtain rfl : some t = o := by simpa [slotApply, hn, Functor.map, Except.map] using ha
      exact ⟨some t, ha, .some (.refl (Table.new_shape hn).isTyped)⟩
  | dropTable name =>
    obtain rfl : none = o := by simpa [slotApply] using ha
    exact ⟨none, rfl, .none⟩
  | insert name rows =>
    cases h with
    | none => simp [slotApply] at ha
    | some h =>
      next t t' =>
      rcases hi : t.insertMany rows with ⟨e | n, u⟩
      · simp [slotApply, hi, Functor.map, Except.map] at ha
      · obtain ⟨u', hi', hu⟩ := h.insertMany hi
        obtain rfl : some u = o := by simpa [slotApply, hi, Functor.map, Except.map] using ha
        exact ⟨some u', by simp [slotApply, hi', Functor.map, Except.map], .some hu⟩

theorem Alike.apply {m m' m₁ : Catalog} {r : WalRecord} (h : m.Alike m')
    (ha : m.apply lower r = (.ok (), m₁)) :
    ∃ m₁', m'.apply lower r = (.ok (), m₁') ∧ m₁.Alike m₁' := by
  obtain ⟨o, ho, rfl⟩ := apply_ok_iff.mp ha
  obtain ⟨o', ho', hrel⟩ := slotApply_alike (h _) ho
  exact ⟨_, apply_ok_iff.mpr ⟨o', ho', rfl⟩, h.setSlot hrel _⟩

theorem Alike.keeps {m m' : Catalog} {r : WalRecord} (h : m.Alike m') (hk : r.Keeps lower m) :
    r.Keeps lower m' := by
  cases r with
  | insert name rows =>
    intro t' ht' row hrow
    cases hl : m.lookup (lower name) with
    | none =>
      have hl' : m'.lookup (lower name) = some t' := ht'
      rw [h.lookup_none hl] at hl'
      cases hl'
    | some t =>
      obtain ⟨t'', hl', ha⟩ := h.lookup hl
      obtain rfl := Option.some.inj (hl'.symm.trans ht')
      exact ha.schema ▸ hk t hl row hrow
  | _ => trivial

/-- Rows before a rejected one stay in memory only. -/
theorem Alike.rejected {m m' m₁ : Catalog} {name : String} {rows : List (List Value)} {e : Fault}
    (h : m.Alike m') (hi : m.insertInner lower name rows = (.error e, m₁)) : m₁.Alike m' := by
  unfold insertInner at hi
  split at hi
  · obtain ⟨-, rfl⟩ := Prod.mk.inj hi
    exact h
  · next t hl =>
    obtain ⟨he, rfl⟩ := Prod.mk.inj hi
    obtain ⟨t', hl', ha⟩ := h.lookup hl
    intro k
    rw [lookup_insert_eq]
    split
    · next hk =>
      rw [hk, hl']
      exact .some (ha.rejected (Prod.ext he rfl))
    · exact h k

theorem apply_encodes {m m₁ : Catalog} {r : WalRecord}
    (ht : ∀ k t, m.lookup k = some t → t.Typed) (ha : m.apply lower r = (.ok (), m₁)) :
    ∃ payload, r.encode (m₁.schemaOf lower) = .ok payload := by
  cases r with
  | insert name rows =>
    obtain ⟨t, n, t', hl, hi, rfl⟩ := apply_insert ha
    have hacc := Table.accepts_of_insertMany (ht _ t hl) hi
    obtain ⟨t₁, h₁, -, happ⟩ :=
      Table.insertMany_accepted (ht _ t hl) hacc (Table.reserves_of_insertMany hi)
    obtain ⟨-, rfl⟩ := Prod.mk.inj (h₁.symm.trans hi)
    exact Database.encode_accepted lower m name happ hacc
  | _ => exact ⟨_, rfl⟩

end Catalog

namespace Call

def record : Call → WalRecord
  | createTable name schema => .createTable name schema
  | dropTable name => .dropTable name
  | insertRows name rows => .insert name rows

/-- What a call does to a catalog, given how it ended. -/
def effect (lower : String → String) (ended : Exec Unit) (m : Catalog) (c : Call) : Catalog :=
  match ended with
  | .ok () => (m.apply lower c.record).2
  | .error _ => m

end Call

/-- An insert of no rows. -/
def WalRecord.Idle : WalRecord → Prop
  | insert _ rows => rows = []
  | _ => False

namespace Database

/-- What `enter` hands on to the log, and that memory then differs from before. -/
theorem enter_some {db db' : Database} {c : Call} {r : WalRecord}
    (ht : ∀ k t, db.tables.lookup k = some t → t.Typed)
    (h : db.enter lower c = (.ok (some r), db')) :
    r = c.record ∧ (db'.tables = db.tables ↔ r.Idle) := by
  cases c with
  | createTable name schema =>
    unfold enter at h
    dsimp only at h
    split at h
    · cases h
    · split at h
      · cases h
      · split at h
        · cases h
        · next t _ hnone =>
          obtain ⟨hr, rfl⟩ := Prod.mk.inj h
          obtain rfl := Option.some.inj (Except.ok.inj hr)
          refine ⟨rfl, iff_of_false (Catalog.insert_ne_self (fun hl => ?_)) id⟩
          exact hnone (by rw [hl]; rfl)
  | dropTable name =>
    unfold enter at h
    dsimp only at h
    split at h
    · cases h
    · split at h
      · cases h
      · next m hd =>
        obtain ⟨hr, rfl⟩ := Prod.mk.inj h
        obtain rfl := Option.some.inj (Except.ok.inj hr)
        obtain ⟨hsome, rfl⟩ := Prod.mk.inj hd
        refine ⟨rfl, iff_of_false (fun he => ?_) id⟩
        have hl := Catalog.erase_eq_self_iff.mp he
        simp [hl] at hsome
  | insertRows name rows =>
    unfold enter at h
    dsimp only at h
    split at h
    · cases h
    · split at h
      · cases h
      · split at h
        · cases h
        · next n m hi =>
          obtain ⟨hr, rfl⟩ := Prod.mk.inj h
          obtain rfl := Option.some.inj (Except.ok.inj hr)
          refine ⟨rfl, ?_⟩
          obtain ⟨t, t', hl, hins, rfl⟩ := Catalog.insertInner_ok hi
          obtain ⟨t₁, h₁, -, happ⟩ := Table.insertMany_accepted (ht _ t hl)
            (Table.accepts_of_insertMany (ht _ t hl) hins) (Table.reserves_of_insertMany hins)
          obtain ⟨-, rfl⟩ := Prod.mk.inj (h₁.symm.trans hins)
          constructor
          · intro he
            by_contra hne
            exact tables_ne hl happ hne he
          · intro hnil
            obtain rfl : rows = [] := hnil
            exact happ.nil_eq ▸ Catalog.insert_lookup_self hl

theorem enter_none {db db' : Database} {c : Call} (h : db.enter lower c = (.ok none, db')) :
    db' = db ∧ ∃ name, c = .dropTable name ∧ db.tables.lookup (lower name) = none := by
  cases c with
  | createTable name schema =>
    unfold enter at h
    dsimp only at h
    repeat' split at h
    all_goals cases h
  | dropTable name =>
    unfold enter at h
    dsimp only at h
    split at h
    · cases h
    · split at h
      · next m hd =>
        obtain ⟨-, rfl⟩ := Prod.mk.inj h
        refine ⟨rfl, name, rfl, ?_⟩
        have hnone := (Prod.mk.inj hd).1
        simpa using hnone
      · cases h
  | insertRows name rows =>
    unfold enter at h
    dsimp only at h
    repeat' split at h
    all_goals cases h

theorem enter_error {db db' : Database} {c : Call} {e : Fault} {m : Catalog}
    (h : db.enter lower c = (.error e, db')) (ha : db.tables.Alike m) :
    db'.tables.Alike m ∧ db' = { db with tables := db'.tables } := by
  cases c with
  | createTable name schema =>
    unfold enter at h
    dsimp only at h
    repeat' split at h
    all_goals cases h
    all_goals exact ⟨ha, rfl⟩
  | dropTable name =>
    unfold enter at h
    dsimp only at h
    repeat' split at h
    all_goals cases h
    exact ⟨ha, rfl⟩
  | insertRows name rows =>
    unfold enter at h
    dsimp only at h
    split at h
    · cases h
      exact ⟨ha, rfl⟩
    · split at h
      · cases h
        exact ⟨ha, rfl⟩
      · split at h
        · next e' m' hi =>
          cases h
          exact ⟨ha.rejected hi, rfl⟩
        · cases h

end Database

/-- How the append of a call ends, when it fails without a byte written. -/
def appendIo (fails : Bool) : AppendIo :=
  if fails then .writeFails 0 else .done

namespace Database

/-- The record with which the call comes to its append. -/
def toLog (lower : String → String) (db : Database) (c : Call) : Option WalRecord :=
  match (db.enter lower c).1 with
  | .ok r => r
  | .error _ => none

theorem toLog_eq_some {db : Database} {c : Call} {r : WalRecord} :
    db.toLog lower c = some r ↔ (db.enter lower c).1 = .ok (some r) := by
  unfold toLog
  split
  · next o ho => simp [ho]
  · next e he => simp [he]

/-- The directory opens to exactly `m`. -/
def OpensTo (lower : String → String) (db : Database) (d : Durability) (m : Catalog) : Prop :=
  ∃ db', openDir lower db.close d = .ok db' ∧ db'.tables = m

/-- At every moment of the run the directory opens to the effect of the calls that returned
`Ok`, and a call whose append fails leaves memory as it was. -/
def NoTrace (lower : String → String) (d : Durability) :
    Catalog → Database → List (Call × Bool) → Prop
  | m, db, [] => db.OpensTo lower d m
  | m, db, (c, fails) :: run =>
    db.OpensTo lower d m ∧
      (fails = true → db.toLog lower c ≠ none →
        (db.call lower (appendIo fails) c).2.tables = db.tables) ∧
      NoTrace lower d (c.effect lower (db.call lower (appendIo fails) c).1 m)
        (db.call lower (appendIo fails) c).2 run

/-- Only inserts of no rows fail to be logged. -/
def FailsIdle (lower : String → String) : Database → List (Call × Bool) → Prop
  | _, [] => True
  | db, (c, fails) :: run =>
    (fails = true → ∀ r ∈ db.toLog lower c, r.Idle) ∧
      FailsIdle lower (db.call lower (appendIo fails) c).2 run

/-- What is logged reads back as it was. -/
def SafelyLogged (lower : String → String) : Database → List (Call × Bool) → Prop
  | _, [] => True
  | db, (c, fails) :: run =>
    (fails = false → ∀ r ∈ db.toLog lower c, db.LogsSafely lower r) ∧
      SafelyLogged lower (db.call lower (appendIo fails) c).2 run

/-- The directory recovers to `m`, and memory differs from it in rows at most. -/
structure Tracks (lower : String → String) (m : Catalog) (db : Database) : Prop where
  recovers : Recoverable lower { db with tables := m }
  alike : db.tables.Alike m

theorem Tracks.opens {m : Catalog} {db : Database} (h : db.Tracks lower m) (d : Durability) :
    db.OpensTo lower d m := by
  obtain ⟨s, base, mark, rs, hr⟩ := h.recovers
  exact ⟨_, hr.openDir d, rfl⟩

theorem log_writes_nothing {db : Database} {s : Store} {r : WalRecord} {payload : Bytes}
    (hs : db.store = some s) (he : r.encode (db.tables.schemaOf lower) = .ok payload)
    (hend : s.wal.file.pos = s.wal.file.content.length) :
    db.log lower (.writeFails 0) r = (bail "write_all", db) := by
  have hsame : { db with store := some s } = db := by
    rw [← hs]
  simp only [log, hs, he, append_nothing hend]
  exact congrArg (Prod.mk _) hsame

/-- A call that comes to its append: memory has changed, and the log decides the rest. -/
theorem Tracks.entered {m : Catalog} {db db' : Database} {c : Call} {r : WalRecord}
    (h : db.Tracks lower m) (he : db.enter lower c = (.ok (some r), db')) :
    r = c.record ∧ (db'.tables = db.tables ↔ r.Idle) ∧
      db.call lower (.writeFails 0) c = (bail "write_all", db') ∧
      (db.LogsSafely lower r → (db.call lower .done c).1 = .ok () ∧
        Tracks lower (m.apply lower r).2 (db.call lower .done c).2) := by
  obtain ⟨s, base, mark, rs, hrec⟩ := h.recovers
  obtain ⟨hr, hidle⟩ := enter_some (fun _ _ hl => h.alike.typed hl) he
  rcases enter_ok he with ⟨hnone, -⟩ | ⟨r', m₁, hsome, ha, rfl⟩
  · cases hnone
  obtain rfl := Option.some.inj hsome
  have hstored : db.store = some s := hrec.stored
  obtain ⟨payload, hpay⟩ := Catalog.apply_encodes (fun _ _ hl => h.alike.typed hl) ha
  refine ⟨hr, hidle, ?_, fun hsafe => ?_⟩
  · have hend : s.wal.file.pos = s.wal.file.content.length := by
      rw [hrec.logged]
      rfl
    rw [call_eq, he]
    exact log_writes_nothing hstored hpay hend
  · obtain ⟨m', hm', halike⟩ := h.alike.apply ha
    have hnum := hsafe.number
    have hmark : mark < s.wal.nextLsn := by
      have hsnap : db.snapshotLsn = mark := hrec.snapshotLsn
      rw [hsnap] at hnum
      simpa only [nextLsn, hstored] using hnum
    have hdisk : Logs { db with tables := m₁ } .done := fun _ _ => trivial
    obtain ⟨st, hlog⟩ := log_encoded { db with tables := m₁ } hpay hdisk
    have hdone : db.call lower .done c = (.ok (), { db with tables := m₁, store := st }) := by
      rw [call_eq, he]
      exact hlog
    have hmem : Database.store { db with tables := m₁ } = some s := hstored
    have hdb := log_done hmem hlog
    have hwrite := hrec.write hm' hmark hsafe.length (h.alike.keeps hsafe.keeps)
    rw [hdone, hm', hdb]
    exact ⟨rfl, ⟨_, _, _, _, hwrite⟩, halike⟩

theorem Tracks.step {m : Catalog} {db : Database} {c : Call} {fails : Bool} (h : db.Tracks lower m)
    (hi : fails = true → ∀ r ∈ db.toLog lower c, r.Idle)
    (hs : fails = false → ∀ r ∈ db.toLog lower c, db.LogsSafely lower r) :
    Tracks lower (c.effect lower (db.call lower (appendIo fails) c).1 m)
      (db.call lower (appendIo fails) c).2 := by
  rcases he : db.enter lower c with ⟨e | (_ | r), db'⟩
  · -- turned down before the log: at most some rows in memory
    obtain ⟨halike, hdb⟩ := enter_error he h.alike
    rw [call_eq, he]
    refine ⟨?_, halike⟩
    rw [hdb]
    exact h.recovers
  · obtain ⟨rfl, name, rfl, hnone⟩ := enter_none he
    rw [call_eq, he]
    have herase : m.erase (lower name) = m :=
      Catalog.erase_eq_self_iff.mpr (h.alike.lookup_none hnone)
    simp only [finish, Call.effect, Call.record, Catalog.apply, Catalog.dropTableInner, herase]
    exact h
  · obtain ⟨rfl, hidle, hfail, hdone⟩ := h.entered he
    have hlog := toLog_eq_some.mpr (congrArg Prod.fst he)
    cases fails with
    | true =>
      have htables := hidle.mpr (hi rfl _ hlog)
      rw [appendIo, if_pos rfl, hfail]
      rcases enter_ok he with ⟨hnone, -⟩ | ⟨r', m₁, -, -, rfl⟩
      · cases hnone
      · rw [show m₁ = db.tables from htables]
        exact h
    | false =>
      obtain ⟨hok, htracks⟩ := hdone (hs rfl _ hlog)
      rw [appendIo, if_neg (by decide), hok]
      exact htracks

theorem Tracks.noTrace_iff {m : Catalog} {db : Database} {run : List (Call × Bool)} (d : Durability)
    (h : db.Tracks lower m) (hs : SafelyLogged lower db run) :
    NoTrace lower d m db run ↔ FailsIdle lower db run := by
  induction run generalizing m db with
  | nil => exact iff_of_true (h.opens d) trivial
  | cons x run ih =>
    obtain ⟨c, fails⟩ := x
    obtain ⟨hsx, hsrest⟩ := hs
    have hkeeps : (fails = true → db.toLog lower c ≠ none →
        (db.call lower (appendIo fails) c).2.tables = db.tables) ↔
        (fails = true → ∀ r ∈ db.toLog lower c, r.Idle) := by
      refine imp_congr_right (fun hf => ?_)
      subst hf
      cases hlog : db.toLog lower c with
      | none => simp
      | some r =>
        obtain ⟨-, hidle, hfail, -⟩ := h.entered (Prod.ext (toLog_eq_some.mp hlog) rfl)
        rw [appendIo, if_pos rfl, hfail]
        simpa using hidle
    rw [NoTrace, FailsIdle, hkeeps]
    constructor
    · intro ⟨_, hi, hrest⟩
      exact ⟨hi, (ih (h.step hi hsx) hsrest).mp hrest⟩
    · intro ⟨hi, hrest⟩
      exact ⟨h.opens d, hi, (ih (h.step hi hsx) hsrest).mpr hrest⟩

/-- Where what is logged reads back, a run leaves no trace of its failed appends exactly
when there was nothing in memory to be logged by them. -/
theorem noTrace_iff_failsIdle (lower : String → String) (d : Durability) (db : Database)
    (h : Recoverable lower db) (run : List (Call × Bool)) (hs : SafelyLogged lower db run) :
    NoTrace lower d db.tables db run ↔ FailsIdle lower db run := by
  have htracks : db.Tracks lower db.tables := by
    obtain ⟨s, base, mark, rs, hr⟩ := h
    exact ⟨⟨s, base, mark, rs, hr⟩, hr.sound.alike⟩
  exact htracks.noTrace_iff d hs

instance decidableIdle : (r : WalRecord) → Decidable r.Idle
  | .insert _ rows => inferInstanceAs (Decidable (rows = []))
  | .createTable _ _ => isFalse id
  | .dropTable _ => isFalse id

instance decidableFailsIdle : (db : Database) → (run : List (Call × Bool)) →
    Decidable (FailsIdle lower db run)
  | _, [] => isTrue trivial
  | db, (c, fails) :: run =>
    have := decidableFailsIdle (db.call lower (appendIo fails) c).2 run
    inferInstanceAs (Decidable ((fails = true → ∀ r ∈ db.toLog lower c, r.Idle) ∧
      FailsIdle lower (db.call lower (appendIo fails) c).2 run))

instance decidableSafelyLogged : (db : Database) → (run : List (Call × Bool)) →
    Decidable (SafelyLogged lower db run)
  | _, [] => isTrue trivial
  | db, (c, fails) :: run =>
    have := decidableSafelyLogged (db.call lower (appendIo fails) c).2 run
    inferInstanceAs (Decidable ((fails = false → ∀ r ∈ db.toLog lower c, db.LogsSafely lower r) ∧
      SafelyLogged lower (db.call lower (appendIo fails) c).2 run))

def freshDb : Database :=
  ⟨∅, some ⟨none, none, ⟨fileOf [], 1, .fsync⟩⟩, false, 0⟩

theorem openFresh_freshDb : openFresh id .fsync = some freshDb := rfl

/-- A table, a row, a failed insert of no rows and another row. -/
def quietRun : List (Call × Bool) :=
  [(.createTable "t" ⟨[⟨"x", .i64⟩]⟩, false), (.insertRows "t" [[.i64 1]], false),
    (.insertRows "t" [], true), (.insertRows "t" [[.i64 2]], false)]

theorem noTrace_iff_failsIdle_quiet : NoTrace id .fsync ∅ freshDb quietRun :=
  (noTrace_iff_failsIdle id .fsync freshDb (openFresh_recoverable openFresh_freshDb) quietRun
    (by decide +kernel)).mpr (by decide +kernel)

def unlogged : Database :=
  (freshDb.call id (.writeFails 0) (.createTable "t" ⟨[⟨"x", .i64⟩]⟩)).2

/-- A table that only memory knows takes a row, and the directory does not open again. -/
theorem unlogged_table_blocks_open :
    openFresh id .fsync = some freshDb ∧ unlogged.tables ≠ freshDb.tables ∧
      (unlogged.call id .done (.insertRows "t" [[.i64 1]])).1 = .ok () ∧
      (∀ m, ¬(unlogged.call id .done (.insertRows "t" [[.i64 1]])).2.OpensTo id .fsync m) ∧
      ¬NoTrace id .fsync ∅ freshDb
        [(.createTable "t" ⟨[⟨"x", .i64⟩]⟩, true), (.insertRows "t" [[.i64 1]], false)] := by
  have hnone : (openDir id (unlogged.call id .done (.insertRows "t" [[.i64 1]])).2.close
      .fsync).toOption = none := by decide +kernel
  have hclosed : ∀ m, ¬(unlogged.call id .done (.insertRows "t" [[.i64 1]])).2.OpensTo id .fsync m := by
    intro m hm
    obtain ⟨db', hopen, -⟩ := hm
    rw [hopen] at hnone
    cases hnone
  refine ⟨openFresh_freshDb, by decide +kernel, by decide +kernel, hclosed, fun htrace => ?_⟩
  obtain ⟨-, -, -, -, hend⟩ := htrace
  exact hclosed _ hend

end Database

end Veldb
