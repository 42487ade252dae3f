import Veldb.Library.LittleEndian
import Veldb.Library.Reads
import Veldb.Table

/-! The binary format of snapshots, log records and replication. A writer
function is the bytes it appends to the buffer; a reader takes the unread bytes. -/

namespace Veldb

open LittleEndian

def ensureLe : Exec Unit :=
  .ok ()

namespace Writer

def u8 (v : UInt8) : Bytes := [v]

def u32 (v : UInt32) : Bytes := leBytes 4 v.toNat

def u64 (v : UInt64) : Bytes := leBytes 8 v.toNat

def i64 (v : Int64) : Bytes := leBytes 8 v.toUInt64.toNat

def f64 (v : F64) : Bytes := leBytes 8 v.bits.toNat

def f32 (v : F32) : Bytes := leBytes 4 v.bits.toNat

def bytes (v : Bytes) : Bytes :=
  u64 (UInt64.ofNat v.length) ++ v

def str (v : String) : Bytes :=
  bytes (utf8 v)

/-- `raw` dumps a slice; `item` is the memory of one element. -/
def raw {α : Type} (item : α → Bytes) (v : List α) : Bytes :=
  u64 (UInt64.ofNat v.length) ++ v.flatMap item

def dataType : DataType → Bytes
  | .i64 => u8 1
  | .f64 => u8 2
  | .bool => u8 3
  | .str => u8 4
  | .vector d => u8 5 ++ u64 d

def field (f : Field) : Bytes :=
  str f.name ++ dataType f.ty

def schema (s : Schema) : Bytes :=
  u64 (UInt64.ofNat s.fields.length) ++ s.fields.flatMap field

/-- No type tag: the reader knows the type from the schema. -/
def value : Value → Bytes
  | .i64 x => i64 x
  | .f64 x => f64 x
  | .bool x => u8 (if x then 1 else 0)
  | .str x => str x
  | .vector x => raw f32 x

def column : Column → Bytes
  | .i64 v => raw i64 v
  | .f64 v => raw f64 v
  | .bool v => raw u8 v
  | .vector dim data => u64 dim ++ raw f32 data
  | .str c => raw u32 c.offsets ++ bytes c.buf

theorem u64_inj {a b : UInt64} (h : u64 a = u64 b) : a = b := by
  have hback := congrArg (fun bs => UInt64.ofNat (leNat bs)) h
  simpa only [u64, ofNat_leNat_uint64] using hback

theorem u32_inj {a b : UInt32} (h : u32 a = u32 b) : a = b := by
  have hback := congrArg (fun bs => UInt32.ofNat (leNat bs)) h
  simpa only [u32, ofNat_leNat_uint32] using hback

end Writer

abbrev Reader := Reads.Reader UInt8 Fault

namespace Reader

def take (n : Nat) : Reader Bytes := fun data =>
  if data.length < n then bail s!"данные обрываются: нужно {n} байт, осталось {data.length}"
  else .ok (data.take n, data.drop n)

def takeMagic : Reader Bytes := take 8

def u8 : Reader UInt8 := do
  return UInt8.ofNat (leNat (← take 1))

def u32 : Reader UInt32 := do
  return UInt32.ofNat (leNat (← take 4))

def u64 : Reader UInt64 := do
  return UInt64.ofNat (leNat (← take 8))

def i64 : Reader Int64 := do
  return (UInt64.ofNat (leNat (← take 8))).toInt64

def f64 : Reader F64 := do
  return ⟨UInt64.ofNat (leNat (← take 8))⟩

def bytes : Reader Bytes := do
  let n ← u64
  take n.toNat

def str : Reader String := do
  let b ← bytes
  match fromUtf8 b with
  | some s => return s
  | none => (bail "строка не в UTF-8: invalid utf-8 sequence" : Exec String)

/-- `chunks_exact`: the pieces of `k` bytes, a shorter rest left out. -/
def chunksExact (k : Nat) (b : Bytes) : List Bytes :=
  (List.range (b.length / k)).map (fun i => (b.drop (i * k)).take k)

/-- The count is taken from the input and multiplied in `usize`. -/
def rawOf {α : Type} (size : Nat) (item : Bytes → α) : Reader (List α) := do
  let n ← u64
  let b ← take (n.toNat * size % usizeRange)
  return (chunksExact size b).map item

def rawI64 : Reader (List Int64) :=
  rawOf 8 (fun c => (UInt64.ofNat (leNat c)).toInt64)

def rawF64 : Reader (List F64) :=
  rawOf 8 (fun c => ⟨UInt64.ofNat (leNat c)⟩)

def rawF32 : Reader (List F32) :=
  rawOf 4 (fun c => ⟨UInt32.ofNat (leNat c)⟩)

def rawU32 : Reader (List UInt32) :=
  rawOf 4 (fun c => UInt32.ofNat (leNat c))

def rawU8 : Reader (List UInt8) := do
  let n ← u64
  take n.toNat

def dataType : Reader DataType := do
  let tag ← u8
  if tag = 1 then return .i64
  else if tag = 2 then return .f64
  else if tag = 3 then return .bool
  else if tag = 4 then return .str
  else if tag = 5 then return .vector (← u64)
  else (bail s!"неизвестный код типа {tag.toNat}" : Exec DataType)

def field : Reader Field := do
  let name ← str
  let ty ← dataType
  return ⟨name, ty⟩

/-- Bytes of a `Field` in memory: a string and a type. -/
def fieldSize : Nat := 40

def schema : Reader Schema := do
  let n ← u64
  withCapacity fieldSize n.toNat
  return ⟨← Reads.times field n.toNat⟩

def value : DataType → Reader Value
  | .i64 => .i64 <$> i64
  | .f64 => .f64 <$> f64
  | .bool => (fun b => .bool (b != 0)) <$> u8
  | .str => .str <$> str
  | .vector dim => do
    let v ← rawF32
    if UInt64.ofNat v.length ≠ dim then
      (bail s!"вектор длины {v.length} вместо {dim.toNat}" : Exec Value)
    else return .vector v

def column : DataType → Reader Column
  | .i64 => .i64 <$> rawI64
  | .f64 => .f64 <$> rawF64
  | .bool => .bool <$> rawU8
  | .str => do
    let offsets ← rawU32
    let buf ← bytes
    return .str (← StrColumn.fromParts buf offsets)
  | .vector dim => do
    let stored ← u64
    if stored ≠ dim then
      (bail s!"в снапшоте VECTOR({stored.toNat}), в схеме VECTOR({dim.toNat})" : Exec Column)
    else
      let data ← rawF32
      if dim = 0 ∨ data.length % dim.toNat ≠ 0 then
        (bail s!"длина векторных данных {data.length} не кратна {dim.toNat}" : Exec Column)
      else return .vector dim data

end Reader

def crc32Bit (crc : UInt32) : UInt32 :=
  let mask := 0 - (crc &&& 1)
  (crc >>> 1) ^^^ (0xEDB88320 &&& mask)

def crc32Byte (crc : UInt32) (b : UInt8) : UInt32 :=
  Nat.repeat crc32Bit 8 (crc ^^^ b.toUInt32)

/-- CRC-32, polynomial of IEEE. -/
def crc32 (data : Bytes) : UInt32 :=
  ~~~ (data.foldl crc32Byte (~~~ 0))

example : crc32 [0x31, 0x32, 0x33, 0x34, 0x35, 0x36, 0x37, 0x38, 0x39] = 0xCBF43926 := by
  decide +kernel

end Veldb
