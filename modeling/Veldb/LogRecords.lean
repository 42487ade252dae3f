import Veldb.CatalogSteps
import Veldb.CodecRoundTrip

/-! A record written to the log does at recovery what the call did in memory. -/

namespace Veldb

open Reads

variable {lower : String → String}

/-- The value of a column type that the log gives back for `v`: the encoding
has no tag, so an integer bound for a DOUBLE column returns as the same bits. -/
def Value.readBack : DataType → Value → Value
  | .f64, .i64 x => .f64 ⟨x.toUInt64⟩
  | _, v => v

/-- Nothing is lost between the value pushed and the value read back. -/
def Value.Keeps : DataType → Value → Prop
  | .f64, .i64 x => F64.ofI64 x = ⟨x.toUInt64⟩
  | _, _ => True

instance Value.decidableKeeps (ty : DataType) (v : Value) : Decidable (v.Keeps ty) := by
  unfold Value.Keeps
  split <;> infer_instance

def Schema.readBack (s : Schema) (row : List Value) : List Value :=
  List.zipWith (fun f v => v.readBack f.ty) s.fields row

def Schema.Keeps (s : Schema) (row : List Value) : Prop :=
  List.Forall₂ (fun f v => Value.Keeps f.ty v) s.fields row

instance Schema.decidableKeeps (s : Schema) (row : List Value) : Decidable (s.Keeps row) := by
  unfold Schema.Keeps
  infer_instance

namespace Value

theorem readBack_typed {ty : DataType} {v : Value} (h : Table.accepts ty v.typeOf = true) :
    (v.readBack ty).typeOf = ty := by
  cases ty <;> cases v <;> simp_all [Table.accepts, typeOf, readBack]

theorem writer_readBack (ty : DataType) (v : Value) : Writer.value (v.readBack ty) = Writer.value v := by
  cases ty <;> cases v <;> rfl

theorem push_readBack {c : Column} {v : Value} (h : v.Keeps c.dataType) :
    c.push (v.readBack c.dataType) = c.push v := by
  cases c <;> cases v <;> try rfl
  next vs x =>
    have hx : F64.ofI64 x = ⟨x.toUInt64⟩ := h
    simp [Column.push, readBack, Column.dataType, hx]

theorem fits_of_length {v : Value} (h : (Writer.value v).length < 2 ^ 64) : v.Fits := by
  cases v with
  | str s =>
    simp only [Writer.value, Writer.str, Writer.bytes, List.length_append] at h
    exact lt_of_le_of_lt (Nat.le_add_left _ _) h
  | vector x =>
    have hl : (x.flatMap Writer.f32).length = x.length * 4 := by
      simp [List.length_flatMap, Writer.f32]
    simp only [Writer.value, Writer.raw, List.length_append, hl] at h
    exact lt_of_le_of_lt (Nat.le_add_left _ _) h
  | _ => trivial

theorem readBack_fits {ty : DataType} {v : Value} (h : v.Fits) : (v.readBack ty).Fits := by
  cases ty <;> cases v <;> exact h

theorem writer_pos (v : Value) : 0 < (Writer.value v).length := by
  cases v <;> simp [Writer.value, Writer.i64, Writer.f64, Writer.u8, Writer.str, Writer.bytes,
    Writer.raw, Writer.u64]

end Value

namespace Table

theorem pushRow_readBack {cs : List Column} {fs : List Field} {row : List Value}
    (ht : List.Forall₂ (fun c f => c.dataType = f.ty) cs fs)
    (hk : List.Forall₂ (fun f v => Value.Keeps f.ty v) fs row) :
    pushRow cs (List.zipWith (fun f v => v.readBack f.ty) fs row) = pushRow cs row := by
  induction ht generalizing row with
  | nil =>
    cases hk
    rfl
  | cons hcf _ ih =>
    cases hk with
    | cons hv hvs =>
      rw [← hcf] at hv
      rw [List.zipWith_cons_cons, pushRow, pushRow, ← hcf, Value.push_readBack hv, ih hvs]

theorem accepts_readBack {s : Schema} {row : List Value} (h : s.Accepts row) :
    s.Accepts (s.readBack row) := by
  unfold Schema.Accepts Schema.readBack at *
  generalize s.fields = fs at h ⊢
  induction h with
  | nil => exact .nil
  | cons hfv _ ih =>
    refine .cons ?_ ih
    simp [accepts, Value.readBack_typed hfv]

theorem insert_readBack {t : Table} {row : List Value} (ht : t.Typed) (h : t.schema.Accepts row)
    (hk : t.schema.Keeps row) : t.insert (t.schema.readBack row) = t.insert row := by
  have hl : row.length = t.columns.length := h.length_eq.symm.trans ht.length_eq.symm
  have hl' : (t.schema.readBack row).length = t.columns.length :=
    (accepts_readBack h).length_eq.symm.trans ht.length_eq.symm
  have hp : pushRow t.columns (t.schema.readBack row) = pushRow t.columns row := pushRow_readBack ht hk
  simp only [insert, hl, hl', ne_eq, not_true, if_false, checkRow_ok h,
    checkRow_ok (accepts_readBack h), hp]

theorem insertEach_readBack {t : Table} {rows : List (List Value)} (ht : t.Typed)
    (h : ∀ r ∈ rows, t.schema.Accepts r) (hk : ∀ r ∈ rows, t.schema.Keeps r) :
    t.insertEach (rows.map t.schema.readBack) = t.insertEach rows := by
  induction rows generalizing t with
  | nil => rfl
  | cons r rs ih =>
    obtain ⟨hr, hrs⟩ := List.forall_mem_cons.mp h
    obtain ⟨hkr, hkrs⟩ := List.forall_mem_cons.mp hk
    obtain ⟨cs, hins, hty, _⟩ := insert_accepted ht hr
    rw [List.map_cons, insertEach, insertEach, insert_readBack ht hr hkr, hins]
    exact ih (t := { t with columns := cs, nrows := t.nrows + 1 }) hty hrs hkrs

theorem insertMany_readBack {t : Table} {rows : List (List Value)} (ht : t.Typed)
    (h : ∀ r ∈ rows, t.schema.Accepts r) (hk : ∀ r ∈ rows, t.schema.Keeps r) :
    t.insertMany (rows.map t.schema.readBack) = t.insertMany rows := by
  unfold insertMany
  rw [insertEach_readBack ht h hk, List.length_map]

end Table

namespace WalRecord

/-- What `encode` emits whenever it emits anything. -/
def payload : WalRecord → Bytes
  | createTable name schema => Writer.u8 1 ++ (Writer.str name ++ Writer.schema schema)
  | dropTable name => Writer.u8 2 ++ Writer.str name
  | insert table rows => Writer.u8 3 ++ (Writer.str table ++
      (Writer.u64 (UInt64.ofNat rows.length) ++ rows.flatMap (fun r => r.flatMap Writer.value)))

theorem encode_payload {r : WalRecord} {schemaOf : String → Option Schema} {bytes : Bytes}
    (h : r.encode schemaOf = .ok bytes) : bytes = r.payload := by
  cases r with
  | insert table rows =>
    simp only [encode] at h
    split at h
    · cases h
    · split at h
      · cases h
      · exact (Except.ok.inj h).symm
  | _ => exact (Except.ok.inj h).symm

theorem value_readBack_yields {ty : DataType} {v : Value} (ha : Table.accepts ty v.typeOf = true)
    (hf : v.Fits) : Yields (Reader.value ty) (Writer.value (v.readBack ty)) (v.readBack ty) := by
  have hy : Yields (Reader.value (v.readBack ty).typeOf) (Writer.value (v.readBack ty))
      (v.readBack ty) := Reader.value_yields (Value.readBack_fits hf)
  rwa [Value.readBack_typed ha] at hy

theorem flatMap_readBack {s : Schema} {row : List Value} (ha : s.Accepts row) :
    (s.readBack row).flatMap Writer.value = row.flatMap Writer.value := by
  unfold Schema.readBack Schema.Accepts at *
  generalize s.fields = fs at ha ⊢
  induction ha with
  | nil => rfl
  | cons _ _ ih =>
    rw [List.zipWith_cons_cons, List.flatMap_cons, List.flatMap_cons, Value.writer_readBack, ih]

theorem row_yields {s : Schema} {row : List Value} (ha : s.Accepts row) (hf : ∀ v ∈ row, v.Fits) :
    Yields (WalRecord.row s.fields) ((s.readBack row).flatMap Writer.value) (s.readBack row) := by
  refine Yields.each ?_
  unfold Schema.readBack Schema.Accepts at *
  generalize s.fields = fs at ha ⊢
  induction ha with
  | nil => exact .nil
  | cons hfv _ ih =>
    obtain ⟨hv, hvs⟩ := List.forall_mem_cons.mp hf
    exact .cons (value_readBack_yields hfv hv) (ih hvs)

theorem rows_yields {s : Schema} {rows : List (List Value)} (ha : ∀ r ∈ rows, s.Accepts r)
    (hf : ∀ r ∈ rows, ∀ v ∈ r, v.Fits) :
    Yields (Reads.times (WalRecord.row s.fields) rows.length)
      (rows.flatMap (fun r => r.flatMap Writer.value)) (rows.map s.readBack) := by
  have hbytes : (rows.map s.readBack).flatMap (fun r => r.flatMap Writer.value) =
      rows.flatMap (fun r => r.flatMap Writer.value) := by
    rw [List.flatMap_map]
    exact List.flatMap_congr (fun r hr => flatMap_readBack (ha r hr))
  rw [← hbytes, ← List.length_map (f := s.readBack)]
  refine Yields.times (fun row hrow => ?_)
  obtain ⟨r, hr, rfl⟩ := List.mem_map.mp hrow
  exact row_yields (ha r hr) (hf r hr)

theorem length_flatMap_ge {α : Type} {f : α → Bytes} {xs : List α} (h : ∀ x ∈ xs, 0 < (f x).length) :
    xs.length ≤ (xs.flatMap f).length := by
  induction xs with
  | nil => simp
  | cons x xs ih =>
    obtain ⟨hx, hxs⟩ := List.forall_mem_cons.mp h
    have := ih hxs
    rw [List.flatMap_cons, List.length_append, List.length_cons]
    omega

theorem length_le_flatMap {α : Type} {f : α → Bytes} {xs : List α} {x : α} (h : x ∈ xs) :
    (f x).length ≤ (xs.flatMap f).length := by
  induction xs with
  | nil => cases h
  | cons y ys ih =>
    rw [List.flatMap_cons, List.length_append]
    rcases List.mem_cons.mp h with rfl | h
    · omega
    · have := ih h
      omega

/-- The bytes of a record bound everything the reader takes from it. -/
theorem fits_of_payload {r : WalRecord} (h : r.payload.length < 2 ^ 32) : r.Fits := by
  cases r with
  | insert table rows =>
    intro row hrow v hv
    have h1 := length_le_flatMap (f := fun r : List Value => r.flatMap Writer.value) hrow
    have h2 := length_le_flatMap (f := Writer.value) hv
    simp only [payload, List.length_append] at h
    exact Value.fits_of_length (by omega)
  | _ => trivial

theorem name_fits {r : WalRecord} (h : r.payload.length < 2 ^ 32) :
    (utf8 r.table).length < 2 ^ 64 := by
  cases r <;>
    simp only [payload, Writer.str, Writer.bytes, List.length_append, table] at h ⊢ <;> omega

theorem schema_fits {name : String} {schema : Schema}
    (h : (createTable name schema).payload.length < 2 ^ 32) : schema.Fits := by
  simp only [payload, Writer.schema, List.length_append] at h
  have hpos : ∀ f ∈ schema.fields, 0 < (Writer.field f).length := by
    intro f _
    simp only [Writer.field, Writer.str, Writer.bytes, Writer.u64, List.length_append,
      LittleEndian.length_leBytes]
    omega
  refine ⟨?_, fun f hf => ?_⟩
  · have hcount := length_flatMap_ge hpos
    simp only [Reader.fieldSize, isizeMax]
    omega
  · have hle := length_le_flatMap (f := Writer.field) hf
    simp only [Writer.field, Writer.str, Writer.bytes, List.length_append] at hle
    omega

/-- Sizes that strings and vectors of the source can have. -/
def InMemory : WalRecord → Prop
  | createTable name schema => (utf8 name).length < 2 ^ 64 ∧ schema.Fits
  | dropTable name => (utf8 name).length < 2 ^ 64
  | insert name rows => (utf8 name).length < 2 ^ 64 ∧ rows.length * rowSize ≤ isizeMax ∧
      ∀ r ∈ rows, ∀ v ∈ r, v.Fits

theorem inMemory_insert {name : String} {rows : List (List Value)} {s : Schema}
    (hne : s.fields ≠ []) (h : (insert name rows).payload.length < 2 ^ 32)
    (ha : ∀ r ∈ rows, s.Accepts r) : (insert name rows).InMemory := by
  have hpos : ∀ r ∈ rows, 0 < (r.flatMap Writer.value).length := by
    intro r hr
    cases r with
    | nil => exact absurd (List.length_eq_zero_iff.mp (ha [] hr).length_eq) hne
    | cons v vs =>
      have := Value.writer_pos v
      rw [List.flatMap_cons, List.length_append]
      omega
  have hcount : rows.length ≤ (rows.flatMap (fun r => r.flatMap Writer.value)).length :=
    length_flatMap_ge hpos
  refine ⟨name_fits h, ?_, fits_of_payload h⟩
  simp only [payload, List.length_append] at h
  simp only [rowSize, isizeMax]
  omega

theorem decode_createTable {name : String} {schema : Schema}
    (h : (createTable name schema).InMemory) (schemaOf : String → Option Schema) :
    decode (createTable name schema).payload schemaOf = .ok (createTable name schema) := by
  have hread : Yields (read schemaOf) (createTable name schema).payload (createTable name schema) := by
    refine (Reader.u8_yields 1).bind ?_
    rw [if_pos rfl]
    exact (Reader.str_yields h.1).bind
      ((Reader.schema_yields h.2).bind_pure (Yields.pure _))
  rw [decode, hread.run]
  rfl

theorem decode_dropTable {name : String} (h : (dropTable name).InMemory)
    (schemaOf : String → Option Schema) :
    decode (dropTable name).payload schemaOf = .ok (dropTable name) := by
  have hread : Yields (read schemaOf) (dropTable name).payload (dropTable name) := by
    refine (Reader.u8_yields 2).bind ?_
    rw [if_neg (by decide), if_pos rfl]
    exact (Reader.str_yields h).bind_pure (Yields.pure _)
  rw [decode, hread.run]
  rfl

theorem decode_insert {name : String} {rows : List (List Value)} {s : Schema}
    {schemaOf : String → Option Schema} (hs : schemaOf name = some s)
    (h : (insert name rows).InMemory) (ha : ∀ r ∈ rows, s.Accepts r) :
    decode (insert name rows).payload schemaOf = .ok (insert name (rows.map s.readBack)) := by
  obtain ⟨hname, hcount, hfit⟩ := h
  have hn : (UInt64.ofNat rows.length).toNat = rows.length := by
    refine UInt64.toNat_ofNat_of_lt' ?_
    simp only [rowSize, isizeMax] at hcount
    simp only [UInt64.size]
    omega
  have hrows := rows_yields ha hfit
  have hread : Yields (read schemaOf) (insert name rows).payload
      (insert name (rows.map s.readBack)) := by
    refine (Reader.u8_yields 3).bind ?_
    rw [if_neg (by decide), if_neg (by decide), if_pos rfl]
    refine (Reader.str_yields hname).bind ?_
    simp only [hs]
    refine (Reader.u64_yields _).bind ?_
    rw [hn]
    exact (Reader.withCapacity_yields hcount).bind (hrows.bind_pure (Yields.pure _))
  rw [decode, hread.run]
  rfl

/-- The rows of an insert survive the log against the catalog they go into. -/
def Keeps (lower : String → String) (m : Catalog) : WalRecord → Prop
  | insert name rows => ∀ t ∈ m.table lower name, ∀ r ∈ rows, t.schema.Keeps r
  | _ => True

instance decidableKeeps (m : Catalog) : (r : WalRecord) → Decidable (r.Keeps lower m)
  | insert name rows =>
    inferInstanceAs (Decidable (∀ t ∈ m.table lower name, ∀ r ∈ rows, t.schema.Keeps r))
  | createTable _ _ => inferInstanceAs (Decidable True)
  | dropTable _ => inferInstanceAs (Decidable True)

end WalRecord

namespace Catalog

theorem applyPayload_payload {m m' : Catalog} {r : WalRecord} (hm : m.Sound lower)
    (hlen : r.payload.length < 2 ^ 32) (hk : r.Keeps lower m) (ha : m.apply lower r = (.ok (), m'))
    (lsn : UInt64) : m.applyPayload lower lsn r.payload = .ok m' := by
  cases r with
  | createTable name schema =>
    have hname : (utf8 name).length < 2 ^ 64 := WalRecord.name_fits hlen
    rw [applyPayload, WalRecord.decode_createTable ⟨hname, WalRecord.schema_fits hlen⟩]
    simp only [withContext_ok, bind, Except.bind, ha]
  | dropTable name =>
    have hname : (utf8 name).length < 2 ^ 64 := WalRecord.name_fits hlen
    rw [applyPayload, WalRecord.decode_dropTable hname]
    simp only [withContext_ok, bind, Except.bind, ha]
  | insert name rows =>
    obtain ⟨t, n, t', hl, hi, -⟩ := apply_insert ha
    have hshape := hm.shaped _ _ hl
    have hacc := Table.accepts_of_insertMany hshape.isTyped hi
    have hs : m.schemaOf lower name = some t.schema := by simp [schemaOf, table, hl]
    have hmem := WalRecord.inMemory_insert (Schema.validate_ne_nil hshape.valid) hlen hacc
    have hdec := WalRecord.decode_insert hs hmem hacc
    have hback := Table.insertMany_readBack hshape.isTyped hacc (hk t hl)
    have ha' : m.apply lower (.insert name (rows.map t.schema.readBack)) = (.ok (), m') := by
      rw [← ha]
      simp only [apply, insertInner, table, hl, hback]
    rw [applyPayload, hdec]
    simp only [withContext_ok, bind, Except.bind, ha']

end Catalog

end Veldb
