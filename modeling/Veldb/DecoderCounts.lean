import Veldb.Library.TracedReads
import Veldb.Storage

/-! What the decoders do with the counts they find in the input: how they multiply them, how
much memory they ask for, and how many elements they take in the end. -/

namespace Veldb

open Attempts LittleEndian Reads Reads.Traced

/-- What becomes of a count: it is multiplied by the size of an element in `usize`, memory for
so many elements is reserved, or so many elements are taken. -/
inductive Note where
  | product (count size : Nat)
  | reserve (count size need remaining : Nat)
  | accept (declared got : Nat)
  deriving DecidableEq, Repr

namespace Note

/-- The product does not wrap, the elements could be in the input, the count is true. -/
def Met : Note → Prop
  | product count size => count * size < usizeRange
  | reserve _ _ need remaining => need ≤ remaining
  | accept declared got => declared = got

/-- The count is small enough for the place where it stands. -/
def Small : Note → Prop
  | product count size => count < usizeRange / size
  | reserve count size need remaining => need ≤ remaining ∧ count * size ≤ isizeMax
  | accept _ _ => True

end Note

/-- The fewest bytes of a value, a column, a field and a table. -/
def leastValue : DataType → Nat
  | .i64 | .f64 | .str => 8
  | .bool => 1
  | .vector dim => 8 + 4 * dim.toNat

def leastColumn : DataType → Nat
  | .i64 | .f64 | .bool => 8
  | .str => 20
  | .vector _ => 16

def leastField : Nat := 9

def leastTable : Nat := 41

abbrev Noted := Traced UInt8 Fault Note

namespace Noted

def reserve (size count need : Nat) : Noted Unit := do
  note fun bs => .reserve count size need bs.length
  ofReader (withCapacity size count : Exec Unit)

def bytes : Noted Bytes := do
  let n ← ofReader Reader.u64
  let b ← ofReader (Reader.take n.toNat)
  note fun _ => .accept n.toNat b.length
  return b

def str : Noted String := do
  let b ← bytes
  match fromUtf8 b with
  | some s => return s
  | none => ofReader (bail "строка не в UTF-8: invalid utf-8 sequence" : Exec String)

def rawOf {α : Type} (size : Nat) (item : Bytes → α) : Noted (List α) := do
  let n ← ofReader Reader.u64
  note fun _ => .product n.toNat size
  let b ← ofReader (Reader.take (n.toNat * size % usizeRange))
  let v := (Reader.chunksExact size b).map item
  note fun _ => .accept n.toNat v.length
  return v

def rawI64 : Noted (List Int64) :=
  rawOf 8 (fun c => (UInt64.ofNat (leNat c)).toInt64)

def rawF64 : Noted (List F64) :=
  rawOf 8 (fun c => ⟨UInt64.ofNat (leNat c)⟩)

def rawF32 : Noted (List F32) :=
  rawOf 4 (fun c => ⟨UInt32.ofNat (leNat c)⟩)

def rawU32 : Noted (List UInt32) :=
  rawOf 4 (fun c => UInt32.ofNat (leNat c))

def rawU8 : Noted (List UInt8) :=
  bytes

def field : Noted Field := do
  let name ← str
  let ty ← ofReader Reader.dataType
  return ⟨name, ty⟩

def schema : Noted Schema := do
  let n ← ofReader Reader.u64
  reserve Reader.fieldSize n.toNat (n.toNat * leastField)
  let fields ← times field n.toNat
  note fun _ => .accept n.toNat fields.length
  return ⟨fields⟩

def value : DataType → Noted Value
  | .i64 => .i64 <$> ofReader Reader.i64
  | .f64 => .f64 <$> ofReader Reader.f64
  | .bool => (fun b => .bool (b != 0)) <$> ofReader Reader.u8
  | .str => .str <$> str
  | .vector dim => do
    let v ← rawF32
    if UInt64.ofNat v.length ≠ dim then
      ofReader (bail s!"вектор длины {v.length} вместо {dim.toNat}" : Exec Value)
    else return .vector v

def column : DataType → Noted Column
  | .i64 => .i64 <$> rawI64
  | .f64 => .f64 <$> rawF64
  | .bool => .bool <$> rawU8
  | .str => do
    let offsets ← rawU32
    let buf ← bytes
    return .str (← ofReader (StrColumn.fromParts buf offsets : Exec StrColumn))
  | .vector dim => do
    let stored ← ofReader Reader.u64
    if stored ≠ dim then
      ofReader (bail s!"в снапшоте VECTOR({stored.toNat}), в схеме VECTOR({dim.toNat})" : Exec Column)
    else
      let data ← rawF32
      if dim = 0 ∨ data.length % dim.toNat ≠ 0 then
        ofReader (bail s!"длина векторных данных {data.length} не кратна {dim.toNat}" : Exec Column)
      else return .vector dim data

def row (fields : List Field) : Noted (List Value) :=
  each (fun f => value f.ty) fields

def record (schemaOf : String → Option Schema) : Noted WalRecord := do
  let tag ← ofReader Reader.u8
  if tag = 1 then
    let name ← str
    let schema ← schema
    return .createTable name schema
  else if tag = 2 then
    let name ← str
    return .dropTable name
  else if tag = 3 then
    let table ← str
    match schemaOf table with
    | none => ofReader (bail s!"WAL ссылается на неизвестную таблицу '{table}'" : Exec WalRecord)
    | some schema =>
      let n ← ofReader Reader.u64
      reserve WalRecord.rowSize n.toNat (n.toNat * (schema.fields.map fun f => leastValue f.ty).sum)
      let rows ← times (row schema.fields) n.toNat
      note fun _ => .accept n.toNat rows.length
      return .insert table rows
  else ofReader (bail s!"неизвестный код записи WAL: {tag.toNat}" : Exec WalRecord)

def table : Noted Table := do
  let name ← str
  let schema ← schema
  let nrows ← ofReader Reader.u64
  reserve columnSize schema.len (schema.fields.map fun f => leastColumn f.ty).sum
  let columns ← each (fun f : Field => column f.ty) schema.fields
  let t ← ofReader (withContext s!"таблица '{name}' из снапшота"
    (Table.fromColumns name schema columns) : Exec Table)
  if t.nrows ≠ nrows.toNat then
    ofReader (bail s!"таблица '{name}': в снапшоте {nrows.toNat} строк, прочитано {t.nrows}" :
      Exec Table)
  else do
    note fun _ => .accept nrows.toNat t.nrows
    return t

def snapshot : Noted (List Table × UInt64) := do
  let _ ← ofReader Reader.takeMagic
  let ver ← ofReader Reader.u32
  if ver ≠ formatVersion then
    ofReader (bail s!"версия снапшота {ver.toNat}, поддерживается {formatVersion.toNat}" :
      Exec (List Table × UInt64))
  else
    let lsn ← ofReader Reader.u64
    let ntables ← ofReader Reader.u64
    reserve tableSize ntables.toNat (ntables.toNat * leastTable)
    let tables ← times table ntables.toNat
    note fun _ => .accept ntables.toNat tables.length
    return (tables, lsn)

/-- The notes of `decode_snapshot`, which reads nothing of a snapshot that fails its checks. -/
def ofSnapshot (raw : Bytes) : List Note :=
  let body := raw.take (raw.length - 4)
  let stored := UInt32.ofNat (leNat (raw.drop (raw.length - 4)))
  if raw.length < 28 ∨ raw.take 8 ≠ snapshotMagic then []
  else if crc32 body ≠ stored then []
  else snapshot.notes body

/-! The decoders that take notes are the decoders. -/

@[simp] theorem run_bytes : bytes.run = Reader.bytes := by
  simp [bytes, Reader.bytes]

@[simp] theorem run_reserve (size count need : Nat) :
    (reserve size count need).run = (withCapacity size count : Exec Unit) := by
  simp [reserve]

theorem reserve_notes (size count need : Nat) (bs : Bytes) :
    (reserve size count need).notes bs = [.reserve count size need bs.length] := by
  have hrest : after (Except.ok ((), bs) : Except Fault (Unit × Bytes))
      (fun _ _ => ([] : List Note)) = [] := rfl
  exact congrArg (Note.reserve count size need bs.length :: ·) hrest

@[simp] theorem run_str : str.run = Reader.str := by
  simp only [str, Reader.str, run_bind, run_bytes]
  congr 1
  funext b
  cases fromUtf8 b with
  | some s => rfl
  | none => rfl

@[simp] theorem run_rawOf {α : Type} (size : Nat) (item : Bytes → α) :
    (rawOf size item).run = Reader.rawOf size item := by
  simp [rawOf, Reader.rawOf]

@[simp] theorem run_field : field.run = Reader.field := by
  simp [field, Reader.field]

@[simp] theorem run_schema : schema.run = Reader.schema := by
  simp [schema, Reader.schema]

@[simp] theorem run_value (ty : DataType) : (value ty).run = Reader.value ty := by
  cases ty with
  | vector dim => simp [value, Reader.value, rawF32, Reader.rawF32]
  | _ => simp [value, Reader.value]

@[simp] theorem run_column (ty : DataType) : (column ty).run = Reader.column ty := by
  cases ty with
  | i64 => simp [column, Reader.column, rawI64, Reader.rawI64]
  | f64 => simp [column, Reader.column, rawF64, Reader.rawF64]
  | bool => simp [column, Reader.column, rawU8, Reader.rawU8, Reader.bytes]
  | str => simp [column, Reader.column, rawU32, Reader.rawU32]
  | vector dim => simp [column, Reader.column, rawF32, Reader.rawF32]

@[simp] theorem run_row (fields : List Field) : (row fields).run = WalRecord.row fields := by
  simp [row, WalRecord.row]

theorem run_record (schemaOf : String → Option Schema) :
    (record schemaOf).run = WalRecord.read schemaOf := by
  simp only [record, WalRecord.read, run_bind, run_ite, run_ofReader, run_str, run_schema, run_pure]
  refine bind_congr fun tag => if_congr Iff.rfl rfl (if_congr Iff.rfl rfl ?_)
  refine if_congr Iff.rfl (bind_congr fun name => ?_) rfl
  cases schemaOf name with
  | none => rfl
  | some s => simp

@[simp] theorem run_table : table.run = readTable := by
  simp [table, readTable]

theorem run_snapshot : snapshot.run = readSnapshot := by
  simp [snapshot, readSnapshot]

end Noted

end Veldb
