import Veldb.BatchInsert

/-! What a log record does to a catalog: it touches the one table it names and
keeps the catalog well formed. -/

namespace Veldb

variable {lower : String → String}

namespace Table

theorem Shape.isTyped {t : Table} (h : t.Shape) : t.Typed :=
  h.typed

theorem shape_zipWith {n : Nat} {cs cs' : List Column} {row : List Value}
    (hz : cs'.map Except.ok = List.zipWith Column.push cs row) (hl : cs.length = row.length)
    (hn : ∀ c ∈ cs, c.len = n) (hs : ∀ c ∈ cs, c.Shape) (hv : ∀ v ∈ row, v.Fits) :
    (∀ c ∈ cs', c.len = n + 1) ∧ ∀ c ∈ cs', c.Shape := by
  induction cs generalizing row cs' with
  | nil =>
    obtain rfl : cs' = [] := by simpa using hz
    simp
  | cons c cs ih =>
    cases row with
    | nil => simp at hl
    | cons v row =>
      cases cs' with
      | nil => simp at hz
      | cons c' cs' =>
        rw [List.map_cons, List.zipWith_cons_cons] at hz
        obtain ⟨hc, hrest⟩ := List.cons.inj hz
        obtain ⟨hlen, hlens⟩ := List.forall_mem_cons.mp hn
        obtain ⟨hsh, hshs⟩ := List.forall_mem_cons.mp hs
        obtain ⟨hfit, hfits⟩ := List.forall_mem_cons.mp hv
        obtain ⟨-, hl', hs'⟩ := Column.push_ok hc.symm hsh hfit
        obtain ⟨ihl, ihs⟩ := ih hrest (by simpa using hl) hlens hshs hfits
        exact ⟨List.forall_mem_cons.mpr ⟨hl'.trans (by rw [hlen]), ihl⟩,
          List.forall_mem_cons.mpr ⟨hs', ihs⟩⟩

theorem insertEach_shape {t t' : Table} {rows : List (List Value)} (ht : t.Shape)
    (ha : ∀ r ∈ rows, t.schema.Accepts r) (hv : ∀ r ∈ rows, ∀ v ∈ r, v.Fits)
    (h : t.insertEach rows = (.ok (), t')) : t'.Shape := by
  induction rows generalizing t with
  | nil =>
    obtain rfl := (Prod.mk.inj h).2
    exact ht
  | cons r rs ih =>
    obtain ⟨har, hars⟩ := List.forall_mem_cons.mp ha
    obtain ⟨hvr, hvrs⟩ := List.forall_mem_cons.mp hv
    obtain ⟨cs, hins, hty, hz⟩ := insert_accepted ht.isTyped har
    have hl : t.columns.length = r.length := ht.typed.length_eq.trans har.length_eq
    obtain ⟨hn, hs⟩ := shape_zipWith hz hl ht.full ht.columns hvr
    have hshape : Shape { t with columns := cs, nrows := t.nrows + 1 } := ⟨ht.valid, hty, hn, hs⟩
    rw [insertEach, hins] at h
    exact ih hshape hars hvrs h

theorem reserves_of_insertMany {t t' : Table} {rows : List (List Value)} {n : Nat}
    (h : t.insertMany rows = (.ok n, t')) : t.Reserves rows.length := by
  by_contra hroom
  obtain ⟨place, hi⟩ := insertMany_unreserved hroom
  rw [hi] at h
  cases (Prod.mk.inj h).1

theorem insertMany_eq_ok {t t' : Table} {rows : List (List Value)} {n : Nat}
    (h : t.insertMany rows = (.ok n, t')) : t.insertEach rows = (.ok (), t') := by
  have hroom := reserves_of_insertMany h
  rcases he : t.insertEach rows with ⟨e | ⟨⟩, t''⟩
  · rw [insertMany_error hroom he] at h
    cases (Prod.mk.inj h).1
  · rw [insertMany_ok hroom he] at h
    rw [(Prod.mk.inj h).2]

theorem accepts_of_insertMany {t t' : Table} {rows : List (List Value)} {n : Nat} (ht : t.Typed)
    (h : t.insertMany rows = (.ok n, t')) : ∀ r ∈ rows, t.schema.Accepts r := by
  rcases t.schema.accepts_or_split rows with hall | ⟨good, bad, rest, rfl, hg, hb⟩
  · exact hall
  · obtain ⟨m, t'', hm, _⟩ := insertMany_rejected ht hg hb (reserves_of_insertMany h)
    rw [hm] at h
    cases (Prod.mk.inj h).1

theorem insertMany_shape {t t' : Table} {rows : List (List Value)} {n : Nat} (ht : t.Shape)
    (hv : ∀ r ∈ rows, ∀ v ∈ r, v.Fits) (h : t.insertMany rows = (.ok n, t')) : t'.Shape :=
  insertEach_shape ht (accepts_of_insertMany ht.isTyped h) hv (insertMany_eq_ok h)

theorem insertMany_same {t t' : Table} {rows : List (List Value)} {n : Nat} (ht : t.Typed)
    (h : t.insertMany rows = (.ok n, t')) : t'.name = t.name ∧ t'.schema = t.schema := by
  obtain ⟨t'', he, _, ha⟩ :=
    insertMany_accepted ht (accepts_of_insertMany ht h) (reserves_of_insertMany h)
  rw [h] at he
  obtain rfl := (Prod.mk.inj he).2
  exact ⟨ha.name, ha.schema⟩

end Table

namespace WalRecord

def table : WalRecord → String
  | createTable name _ => name
  | dropTable name => name
  | insert name _ => name

def Fits : WalRecord → Prop
  | insert _ rows => ∀ r ∈ rows, ∀ v ∈ r, v.Fits
  | _ => True

end WalRecord

namespace Catalog

/-- The effect of a record on the table it names. -/
def slotApply (s : Option Table) : WalRecord → Exec (Option Table)
  | .createTable name schema => some <$> Table.new name schema
  | .dropTable _ => .ok none
  | .insert name rows =>
    match s with
    | none => bail s!"таблица '{name}' не найдена"
    | some t => (fun _ => some (t.insertMany rows).2) <$> (t.insertMany rows).1

def setSlot (m : Catalog) (k : String) : Option Table → Catalog
  | some t => m.insert k t
  | none => m.erase k

theorem lookup_setSlot (m : Catalog) (k k' : String) (s : Option Table) :
    (m.setSlot k s).lookup k' = if k' = k then s else m.lookup k' := by
  cases s with
  | none => exact lookup_erase_eq m k k'
  | some t => exact lookup_insert_eq m k k' t

theorem apply_ok_iff {m m' : Catalog} {r : WalRecord} :
    m.apply lower r = (.ok (), m') ↔
      ∃ s, slotApply (m.lookup (lower r.table)) r = .ok s ∧ m' = m.setSlot (lower r.table) s := by
  cases r with
  | createTable name schema =>
    cases hn : Table.new name schema with
    | error e => simp [apply, slotApply, hn, Functor.map, Except.map]
    | ok t =>
      have ht : t.name = name := by rw [(Table.new_ok hn).2]
      simp [apply, slotApply, hn, Functor.map, Except.map, setSlot, putTable, ht, WalRecord.table,
        eq_comm]
  | dropTable name =>
    simp [apply, slotApply, setSlot, dropTableInner, WalRecord.table, eq_comm]
  | insert name rows =>
    cases hl : m.lookup (lower name) with
    | none => simp [apply, slotApply, insertInner, table, hl, WalRecord.table, bail]
    | some t =>
      rcases hi : t.insertMany rows with ⟨e | n, t'⟩
      · simp [apply, slotApply, insertInner, table, hl, hi, WalRecord.table, Functor.map, Except.map]
      · simp [apply, slotApply, insertInner, table, hl, hi, WalRecord.table, Functor.map, Except.map,
          setSlot, eq_comm]

theorem insertInner_ok {m m' : Catalog} {name : String} {rows : List (List Value)} {n : Nat}
    (h : m.insertInner lower name rows = (.ok n, m')) : ∃ t t', m.lookup (lower name) = some t ∧
      t.insertMany rows = (.ok n, t') ∧ m' = Finmap.insert (lower name) t' m := by
  unfold insertInner at h
  split at h
  · cases (Prod.mk.inj h).1
  · next t ht =>
    obtain ⟨hok, rfl⟩ := Prod.mk.inj h
    exact ⟨t, (t.insertMany rows).2, ht, Prod.ext hok rfl, rfl⟩

theorem apply_insert {m m' : Catalog} {name : String} {rows : List (List Value)}
    (h : m.apply lower (.insert name rows) = (.ok (), m')) : ∃ t n t',
      m.lookup (lower name) = some t ∧ t.insertMany rows = (.ok n, t') ∧
        m' = Finmap.insert (lower name) t' m := by
  rcases hi : m.insertInner lower name rows with ⟨e | n, m₁⟩
  · simp only [apply, hi] at h
    cases (Prod.mk.inj h).1
  · simp only [apply, hi] at h
    obtain ⟨t, t', ht, hins, hm⟩ := insertInner_ok hi
    exact ⟨t, n, t', ht, hins, (Prod.mk.inj h).2.symm.trans hm⟩

structure Sound (lower : String → String) (m : Catalog) : Prop where
  keyed : m.Keyed lower
  shaped : ∀ k t, m.lookup k = some t → t.Shape

theorem sound_empty : Sound lower ∅ :=
  ⟨keyed_empty, by intro k t h; simp at h⟩

theorem Sound.setSlot {m : Catalog} (h : m.Sound lower) {k : String} {s : Option Table}
    (hs : ∀ t, s = some t → k = lower t.name ∧ t.Shape) : (m.setSlot k s).Sound lower := by
  constructor
  · intro k' t ht
    rw [lookup_setSlot] at ht
    split at ht
    · next he => exact he.trans (hs t ht).1
    · exact h.keyed k' t ht
  · intro k' t ht
    rw [lookup_setSlot] at ht
    split at ht
    · exact (hs t ht).2
    · exact h.shaped k' t ht

theorem Sound.apply {m m' : Catalog} (h : m.Sound lower) {r : WalRecord} (hf : r.Fits)
    (ha : m.apply lower r = (.ok (), m')) : m'.Sound lower := by
  obtain ⟨s, hs, rfl⟩ := apply_ok_iff.mp ha
  refine h.setSlot (fun t ht => ?_)
  subst ht
  cases r with
  | createTable name schema =>
    cases hn : Table.new name schema with
    | error e => simp [slotApply, hn, Functor.map, Except.map] at hs
    | ok t' =>
      obtain rfl : t' = t := by simpa [slotApply, hn, Functor.map, Except.map] using hs
      have hname : t'.name = name := by rw [(Table.new_ok hn).2]
      exact ⟨by rw [hname]; rfl, Table.new_shape hn⟩
  | dropTable name => simp [slotApply] at hs
  | insert name rows =>
    cases hl : m.lookup (lower name) with
    | none => simp [slotApply, hl, WalRecord.table] at hs
    | some t₀ =>
      rcases hi : t₀.insertMany rows with ⟨e | n, t'⟩
      · simp [slotApply, hl, hi, WalRecord.table, Functor.map, Except.map] at hs
      · obtain rfl : t' = t := by
          simpa [slotApply, hl, hi, WalRecord.table, Functor.map, Except.map] using hs
        have hshape := h.shaped _ _ hl
        have hname := (Table.insertMany_same hshape.isTyped hi).1
        exact ⟨by rw [hname]; exact h.keyed _ _ hl, Table.insertMany_shape hshape hf hi⟩

end Catalog

end Veldb
