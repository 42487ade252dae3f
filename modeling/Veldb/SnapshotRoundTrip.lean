import Veldb.Catalog
import Veldb.CodecRoundTrip
import Veldb.TextColumn

/-! The snapshot of any list of well-formed tables reads back as that list. -/

namespace Veldb

open LittleEndian Reads

/-- A column as `empty` and `push` leave it, within the address space. -/
def Column.Inv : Column → Prop
  | .i64 v => v.length * 8 ≤ isizeMax
  | .f64 v => v.length * 8 ≤ isizeMax
  | .bool v => v.length ≤ isizeMax
  | .str c => c.Inv ∧ c.offsets.length * 4 ≤ isizeMax
  | .vector dim data => dim ≠ 0 ∧ dim.toNat ∣ data.length ∧ data.length * 4 ≤ isizeMax

instance Column.decidableInv : (c : Column) → Decidable c.Inv
  | .i64 v => inferInstanceAs (Decidable (v.length * 8 ≤ isizeMax))
  | .f64 v => inferInstanceAs (Decidable (v.length * 8 ≤ isizeMax))
  | .bool v => inferInstanceAs (Decidable (v.length ≤ isizeMax))
  | .str c => inferInstanceAs (Decidable (c.Inv ∧ c.offsets.length * 4 ≤ isizeMax))
  | .vector dim data => inferInstanceAs (Decidable
      (dim ≠ 0 ∧ dim.toNat ∣ data.length ∧ data.length * 4 ≤ isizeMax))

/-- The representation invariant of a table. -/
@[mk_iff] structure Table.Inv (t : Table) : Prop where
  valid : t.schema.validate = .ok ()
  typed : List.Forall₂ (fun c f => c.dataType = f.ty) t.columns t.schema.fields
  full : ∀ c ∈ t.columns, c.len = t.nrows
  columns : ∀ c ∈ t.columns, c.Inv
  name : (utf8 t.name).length < 2 ^ 64
  schema : t.schema.Fits
  width : t.schema.len * columnSize ≤ isizeMax

instance Table.decidableInv (t : Table) : Decidable t.Inv :=
  decidable_of_iff' _ (Table.inv_iff t)

/-- The memory of a column fits the address space and its text fits 32-bit offsets. -/
def Column.Storable : Column → Prop
  | .i64 v => v.length * 8 ≤ isizeMax
  | .f64 v => v.length * 8 ≤ isizeMax
  | .bool v => v.length ≤ isizeMax
  | .str c => c.buf.length < 2 ^ 32 ∧ c.offsets.length * 4 ≤ isizeMax
  | .vector _ data => data.length * 4 ≤ isizeMax

instance Column.decidableStorable : (c : Column) → Decidable c.Storable
  | .i64 v => inferInstanceAs (Decidable (v.length * 8 ≤ isizeMax))
  | .f64 v => inferInstanceAs (Decidable (v.length * 8 ≤ isizeMax))
  | .bool v => inferInstanceAs (Decidable (v.length ≤ isizeMax))
  | .str c => inferInstanceAs (Decidable (c.buf.length < 2 ^ 32 ∧ c.offsets.length * 4 ≤ isizeMax))
  | .vector _ data => inferInstanceAs (Decidable (data.length * 4 ≤ isizeMax))

@[mk_iff] structure Table.Storable (t : Table) : Prop where
  columns : ∀ c ∈ t.columns, c.Storable
  name : (utf8 t.name).length < 2 ^ 64
  schema : t.schema.Fits
  width : t.schema.len * columnSize ≤ isizeMax

instance Table.decidableStorable (t : Table) : Decidable t.Storable :=
  decidable_of_iff' _ (Table.storable_iff t)

theorem Column.Shape.inv {c : Column} (h : c.Shape) (hs : c.Storable) : c.Inv := by
  cases c with
  | str c => exact ⟨h.2 hs.1, hs.2⟩
  | vector dim data => exact ⟨h.1, h.2, hs⟩
  | _ => exact hs

theorem Table.Shape.inv {t : Table} (h : t.Shape) (hs : t.Storable) : t.Inv where
  valid := h.valid
  typed := h.typed
  full := h.full
  columns c hc := (h.columns c hc).inv (hs.columns c hc)
  name := hs.name
  schema := hs.schema
  width := hs.width

namespace Reader

theorem lift_yields {α : Type} {m : Exec α} {a : α} (h : m = .ok a) :
    Yields (monadLift m : Reader α) [] a :=
  Yields.lift h

theorem column_yields {c : Column} (h : c.Inv) :
    Yields (column c.dataType) (Writer.column c) c := by
  cases c with
  | i64 v =>
    have hv : v.length * 8 ≤ isizeMax := h
    exact (rawI64_yields (by simp only [isizeMax] at hv; omega)).map Column.i64
  | f64 v =>
    have hv : v.length * 8 ≤ isizeMax := h
    exact (rawF64_yields (by simp only [isizeMax] at hv; omega)).map Column.f64
  | bool v =>
    have hv : v.length ≤ isizeMax := h
    exact (rawU8_yields (by simp only [isizeMax] at hv; omega)).map Column.bool
  | str c =>
    obtain ⟨hc, ho⟩ := h
    have hb := hc.buf_lt
    refine (rawU32_yields (by simp only [isizeMax] at ho; omega)).bind ?_
    refine (bytes_yields (by omega)).bind_pure ?_
    exact (lift_yields hc.fromParts).bind_pure (Yields.pure (Column.str c))
  | vector dim data =>
    obtain ⟨hd, hdvd, hl⟩ := h
    refine (u64_yields dim).bind ?_
    rw [if_neg (by simp)]
    refine (rawF32_yields (by simp only [isizeMax] at hl; omega)).bind_pure ?_
    rw [if_neg (by simp [hd, Nat.mod_eq_zero_of_dvd hdvd])]
    exact Yields.pure _

end Reader

theorem Column.Inv.len_lt {c : Column} (h : c.Inv) : c.len < 2 ^ 64 := by
  cases c with
  | i64 v =>
    have hv : v.length * 8 ≤ isizeMax := h
    simp only [isizeMax, Column.len] at *
    omega
  | f64 v =>
    have hv : v.length * 8 ≤ isizeMax := h
    simp only [isizeMax, Column.len] at *
    omega
  | bool v =>
    have hv : v.length ≤ isizeMax := h
    simp only [isizeMax, Column.len] at *
    omega
  | str c =>
    have hv := h.2
    simp only [isizeMax, Column.len, StrColumn.len] at *
    omega
  | vector dim data =>
    have hv := h.2.2
    have hq : data.length / dim.toNat ≤ data.length := Nat.div_le_self _ _
    simp only [isizeMax, Column.len, if_neg h.1] at *
    omega

namespace Table

theorem checkColumns_ok {n : Nat} {cs : List Column} {fs : List Field}
    (ht : List.Forall₂ (fun c f => c.dataType = f.ty) cs fs) (hn : ∀ c ∈ cs, c.len = n) :
    checkColumns n cs fs = .ok () := by
  induction ht with
  | nil => rfl
  | cons hcf _ ih =>
    have hc := hn _ List.mem_cons_self
    have hrest := ih (fun c hc => hn c (List.mem_cons_of_mem _ hc))
    simp [checkColumns, hcf, hc, hrest]

theorem Inv.exists_column {t : Table} (h : t.Inv) : ∃ c cs, t.columns = c :: cs := by
  have hne := Schema.validate_ne_nil h.valid
  have hlen := h.typed.length_eq
  cases hc : t.columns with
  | nil => exact absurd (List.length_eq_zero_iff.mp (by simp [← hlen, hc])) hne
  | cons c cs => exact ⟨c, cs, rfl⟩

theorem Inv.nrows_lt {t : Table} (h : t.Inv) : t.nrows < 2 ^ 64 := by
  obtain ⟨c, cs, hc⟩ := h.exists_column
  have hm : c ∈ t.columns := by simp [hc]
  exact h.full c hm ▸ (h.columns c hm).len_lt

theorem Inv.fromColumns {t : Table} (h : t.Inv) :
    fromColumns t.name t.schema t.columns = .ok t := by
  obtain ⟨c, cs, hc⟩ := h.exists_column
  have hn : (t.columns.head?.map Column.len).getD 0 = t.nrows := by
    simp [hc, h.full c (by simp [hc])]
  simp [Table.fromColumns, h.valid, h.typed.length_eq, hn, checkColumns_ok h.typed h.full, bind,
    Except.bind, pure, Except.pure]

end Table

theorem readTable_yields {t : Table} (h : t.Inv) : Yields readTable (encodeTable t) t := by
  have hcols : Yields (Reads.each (fun f : Field => Reader.column f.ty) t.schema.fields)
      (t.columns.flatMap Writer.column) t.columns := by
    refine Yields.each (List.forall₂_iff_get.mpr ⟨h.typed.length_eq.symm, fun i hf hc => ?_⟩)
    have hty := h.typed.get hc hf
    have hc' := Reader.column_yields (h.columns _ (List.get_mem t.columns ⟨i, hc⟩))
    rw [← hty]
    exact hc'
  refine (Reader.str_yields h.name).bind ((Reader.schema_yields h.schema).bind ?_)
  refine (Reader.u64_yields _).bind ?_
  refine (Reader.withCapacity_yields h.width).bind (hcols.bind_pure ?_)
  rw [h.fromColumns, withContext_ok]
  refine (Reader.lift_yields rfl).bind_pure ?_
  rw [UInt64.toNat_ofNat_of_lt' h.nrows_lt, if_neg (by simp)]
  exact Yields.pure t

theorem readSnapshot_yields {tables : List Table} (lsn : UInt64) (h : ∀ t ∈ tables, t.Inv)
    (hn : tables.length * tableSize ≤ isizeMax) :
    Yields readSnapshot (snapshotBody tables lsn) (tables, lsn) := by
  have hlt : tables.length < 2 ^ 64 := by
    simp only [tableSize, isizeMax] at hn
    omega
  have hmagic : Yields Reader.takeMagic snapshotMagic snapshotMagic := Reader.take_yields rfl
  have htables : Yields (Reads.times readTable tables.length) (tables.flatMap encodeTable) tables :=
    Yields.times (fun t ht => readTable_yields (h t ht))
  unfold readSnapshot snapshotBody
  refine hmagic.bind ((Reader.u32_yields formatVersion).bind ?_)
  rw [if_neg (by simp)]
  refine (Reader.u64_yields lsn).bind ((Reader.u64_yields _).bind ?_)
  rw [UInt64.toNat_ofNat_of_lt' hlt]
  exact (Reader.withCapacity_yields hn).bind (htables.bind_pure (Yields.pure _))

theorem decodeSnapshot_encodeSnapshot {tables : List Table} (lsn : UInt64)
    (h : ∀ t ∈ tables, t.Inv) (hn : tables.length * tableSize ≤ isizeMax) :
    ∃ bytes, encodeSnapshot tables lsn = .ok bytes ∧ decodeSnapshot bytes = .ok (tables, lsn) := by
  let body := snapshotBody tables lsn
  refine ⟨body ++ Writer.u32 (crc32 body), rfl, ?_⟩
  have hlen : (body ++ Writer.u32 (crc32 body)).length - 4 = body.length := by
    simp [Writer.u32]
  have hmin : ¬((body ++ Writer.u32 (crc32 body)).length < 28 ∨
      (body ++ Writer.u32 (crc32 body)).take 8 ≠ snapshotMagic) := by
    rintro (hs | hs)
    · simp [body, snapshotBody, Writer.u32, Writer.u64, snapshotMagic] at hs
      omega
    · exact hs rfl
  have hcrc : UInt32.ofNat (leNat (Writer.u32 (crc32 body))) = crc32 body :=
    ofNat_leNat_uint32 _
  have hread := (readSnapshot_yields lsn h hn).run
  simp only [decodeSnapshot, ensureLe, bind, Except.bind, if_neg hmin, hlen, List.take_left,
    List.drop_left, hcrc, ne_eq, not_true, if_false]
  exact congrArg (Except.map Prod.fst) hread

theorem snapshot_roundTrip (lower : String → String) (tables : List Table) (lsn : UInt64)
    (h : ∀ t ∈ tables, t.Inv) (hn : tables.length * tableSize ≤ isizeMax) :
    (∃ bytes, encodeSnapshot tables lsn = .ok bytes ∧ decodeSnapshot bytes = .ok (tables, lsn)) ∧
      (∀ db other : Database, db.tables.Keyed lower → db.tables.Lists tables →
        ∃ bytes, db.snapshotBytes tables = .ok bytes ∧ other.loadSnapshotBytes lower bytes =
          (.ok db.frozenLsn, { other with tables := db.tables })) ∧
      ∀ (other : Database) bytes e, decodeSnapshot bytes = .error e →
        other.loadSnapshotBytes lower bytes = (.error e, other) := by
  refine ⟨decodeSnapshot_encodeSnapshot lsn h hn, ?_, ?_⟩
  · intro db other hk hl
    obtain ⟨bytes, henc, hdec⟩ := decodeSnapshot_encodeSnapshot db.frozenLsn h hn
    refine ⟨bytes, henc, ?_⟩
    simp only [Database.loadSnapshotBytes, hdec, Catalog.ofTables_eq hk hl]
  · intro other bytes e hdec
    simp only [Database.loadSnapshotBytes, hdec]

/-- A column of each kind, the text partly outside ASCII. -/
def docsTable : Table where
  name := "docs"
  schema := ⟨[⟨"id", .i64⟩, ⟨"score", .f64⟩, ⟨"seen", .bool⟩, ⟨"title", .str⟩, ⟨"v", .vector 2⟩]⟩
  columns := [.i64 [1, 2], .f64 [F64.ofI64 1, F64.ofI64 2], .bool [1, 0],
    .str ((StrColumn.new.push "да").push "no"), .vector 2 [⟨1⟩, ⟨2⟩, ⟨3⟩, ⟨4⟩]]
  nrows := 2

theorem snapshot_roundTrip_docs :
    (∃ bytes, encodeSnapshot [docsTable] 7 = .ok bytes ∧
        decodeSnapshot bytes = .ok ([docsTable], 7)) ∧
      ∃ bytes, { Database.new with tables := Catalog.putTable id ∅ docsTable }.snapshotBytes
          [docsTable] = .ok bytes ∧
        Database.new.loadSnapshotBytes id bytes =
          (.ok 0, { Database.new with tables := Catalog.putTable id ∅ docsTable }) := by
  have hd : ∀ t ∈ [docsTable], t.Inv := by decide +kernel
  have hk : Catalog.Keyed id (Catalog.putTable id ∅ docsTable) := Catalog.keyed_empty.insert rfl
  have hr := snapshot_roundTrip id [docsTable] 7 hd (by decide)
  exact ⟨hr.1, hr.2.1 _ Database.new hk (by decide +kernel)⟩

end Veldb
