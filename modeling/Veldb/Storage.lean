import Veldb.Codec

/-! Persistence: log records, the write-ahead log file with its frames, and the
snapshot of all tables as one byte string. -/

namespace Veldb

open LittleEndian

/-- `"VELDBSNP"` -/
def snapshotMagic : Bytes := [0x56, 0x45, 0x4C, 0x44, 0x42, 0x53, 0x4E, 0x50]

/-- `"VELDBWAL"` -/
def walMagic : Bytes := [0x56, 0x45, 0x4C, 0x44, 0x42, 0x57, 0x41, 0x4C]

def formatVersion : UInt32 := 1

inductive Durability where
  | fsync
  | buffered
  deriving DecidableEq, Repr

abbrev RawRecord := UInt64 × Bytes

inductive WalRecord where
  | createTable (name : String) (schema : Schema)
  | dropTable (name : String)
  | insert (table : String) (rows : List (List Value))
  deriving DecidableEq, Repr

namespace WalRecord

def encode (r : WalRecord) (schemaOf : String → Option Schema) : Exec Bytes :=
  match r with
  | createTable name schema => .ok (Writer.u8 1 ++ (Writer.str name ++ Writer.schema schema))
  | dropTable name => .ok (Writer.u8 2 ++ Writer.str name)
  | insert table rows =>
    match schemaOf table with
    | none => bail s!"схема таблицы '{table}' для WAL"
    | some schema =>
      match rows.find? (fun r => r.length != schema.len) with
      | some r => bail s!"строка из {r.length} значений при {schema.len} колонках"
      | none => .ok (Writer.u8 3 ++ (Writer.str table ++
          (Writer.u64 (UInt64.ofNat rows.length) ++ rows.flatMap (fun r => r.flatMap Writer.value))))

/-- Bytes of a row `Vec<Value>` in memory. -/
def rowSize : Nat := 24

def row (fields : List Field) : Reader (List Value) :=
  Reads.each (fun f => Reader.value f.ty) fields

def read (schemaOf : String → Option Schema) : Reader WalRecord := do
  let tag ← Reader.u8
  if tag = 1 then
    let name ← Reader.str
    let schema ← Reader.schema
    return createTable name schema
  else if tag = 2 then
    let name ← Reader.str
    return dropTable name
  else if tag = 3 then
    let table ← Reader.str
    match schemaOf table with
    | none => (bail s!"WAL ссылается на неизвестную таблицу '{table}'" : Exec WalRecord)
    | some schema =>
      let n ← Reader.u64
      withCapacity rowSize n.toNat
      let rows ← Reads.times (row schema.fields) n.toNat
      return insert table rows
  else (bail s!"неизвестный код записи WAL: {tag.toNat}" : Exec WalRecord)

/-- Bytes left over after the record are not looked at. -/
def decode (payload : Bytes) (schemaOf : String → Option Schema) : Exec WalRecord :=
  Prod.fst <$> read schemaOf payload

end WalRecord

structure File where
  content : Bytes
  pos : Nat
  deriving DecidableEq, Repr

namespace File

/-- A write past the end fills the gap with zeros. -/
def writeAll (f : File) (bs : Bytes) : File :=
  ⟨f.content.take f.pos ++ List.replicate (f.pos - f.content.length) 0 ++ bs ++
    f.content.drop (f.pos + bs.length), f.pos + bs.length⟩

def setLen (f : File) (n : Nat) : File :=
  ⟨f.content.take n ++ List.replicate (n - f.content.length) 0, f.pos⟩

def seekStart (f : File) (n : Nat) : File :=
  ⟨f.content, n⟩

def seekEnd (f : File) : File :=
  ⟨f.content, f.content.length⟩

end File

/-- How the system calls of one append end: a failing write may have put any
prefix of the frame into the file. -/
inductive AppendIo where
  | done
  | writeFails (written : Nat)
  | syncFails
  deriving DecidableEq, Repr

structure Wal where
  file : File
  nextLsn : UInt64
  durability : Durability
  deriving DecidableEq, Repr

namespace Wal

/-- `len | crc | lsn`. -/
def frameHeader : Nat := 4 + 4 + 8

def frame (lsn : UInt64) (payload : Bytes) : Bytes :=
  let body := Writer.u64 lsn ++ payload
  Writer.u32 (UInt32.ofNat payload.length) ++ Writer.u32 (crc32 body) ++ body

/-- The scanning loop of `open` from `pos`: the records found and the length of
the file up to the last of them. -/
def scanFrames (raw : Bytes) (pos : Nat) : List RawRecord × Nat :=
  if pos + frameHeader ≤ raw.length then
    let len := leNat (slice raw pos (pos + 4))
    let crc := UInt32.ofNat (leNat (slice raw (pos + 4) (pos + 8)))
    let stop := pos + frameHeader + len
    if stop > raw.length then ([], pos)
    else
      let body := slice raw (pos + 8) stop
      if crc32 body ≠ crc then ([], pos)
      else
        let lsn := UInt64.ofNat (leNat (body.take 8))
        let rest := scanFrames raw stop
        ((lsn, body.drop 8) :: rest.1, rest.2)
  else ([], pos)
termination_by raw.length - pos
decreasing_by
  simp only [frameHeader] at *
  omega

def openFile (raw : Bytes) (durability : Durability) : Exec (Wal × List RawRecord) :=
  if raw = [] then
    let file := ((File.mk [] 0).writeAll walMagic).writeAll (Writer.u32 formatVersion)
    .ok (⟨file.seekEnd, 1, durability⟩, [])
  else if raw.length < walMagic.length + 4 ∨ raw.take 8 ≠ walMagic then
    bail "wal.log не похож на WAL veldb"
  else
    let ver := UInt32.ofNat (leNat (slice raw 8 12))
    if ver ≠ formatVersion then
      bail s!"версия WAL {ver.toNat}, поддерживается {formatVersion.toNat}"
    else
      let (records, goodLen) := scanFrames raw (walMagic.length + 4)
      let file := File.mk raw raw.length
      let file := if goodLen ≠ raw.length then file.setLen goodLen else file
      let nextLsn := match records.getLast? with
        | some (l, _) => l + 1
        | none => 1
      .ok (⟨file.seekEnd, nextLsn, durability⟩, records)

def append (io : AppendIo) (w : Wal) (payload : Bytes) : Exec UInt64 × Wal :=
  let lsn := w.nextLsn
  let bytes := frame lsn payload
  let written := { w with file := w.file.writeAll bytes }
  let finished := (.ok lsn, { written with nextLsn := w.nextLsn + 1 })
  match io with
  | .writeFails k => (bail "write_all", { w with file := w.file.writeAll (bytes.take k) })
  | .syncFails => if w.durability = .fsync then (bail "sync_data", written) else finished
  | .done => finished

/-- Opens the file a second time by its path, so a damaged tail is cut off
behind the back of this handle. -/
def recordsAfter (w : Wal) (after : UInt64) : Exec (List RawRecord) × Wal :=
  match openFile w.file.content w.durability with
  | .error e => (.error e, w)
  | .ok (again, all) =>
    (.ok (all.filter (fun r => after < r.1)),
      { w with file := { w.file with content := again.file.content } })

def reset (w : Wal) : Wal :=
  let file := (w.file.setLen 0).seekStart 0
  { w with file := (file.writeAll walMagic).writeAll (Writer.u32 formatVersion) }

end Wal

def encodeTable (t : Table) : Bytes :=
  Writer.str t.name ++ (Writer.schema t.schema ++
    (Writer.u64 (UInt64.ofNat t.nrows) ++ t.columns.flatMap Writer.column))

def snapshotBody (tables : List Table) (lsn : UInt64) : Bytes :=
  snapshotMagic ++ (Writer.u32 formatVersion ++ (Writer.u64 lsn ++
    (Writer.u64 (UInt64.ofNat tables.length) ++ tables.flatMap encodeTable)))

def encodeSnapshot (tables : List Table) (lsn : UInt64) : Exec Bytes := do
  ensureLe
  let buf := snapshotBody tables lsn
  return buf ++ Writer.u32 (crc32 buf)

/-- Bytes of a `Column` and of a `Table` in memory. -/
def columnSize : Nat := 48

def tableSize : Nat := 80

def readTable : Reader Table := do
  let name ← Reader.str
  let schema ← Reader.schema
  let nrows ← Reader.u64
  withCapacity columnSize schema.len
  let columns ← Reads.each (fun f : Field => Reader.column f.ty) schema.fields
  let t ← withContext s!"таблица '{name}' из снапшота" (Table.fromColumns name schema columns)
  if t.nrows ≠ nrows.toNat then
    (bail s!"таблица '{name}': в снапшоте {nrows.toNat} строк, прочитано {t.nrows}" : Exec Table)
  else return t

def readSnapshot : Reader (List Table × UInt64) := do
  let _ ← Reader.takeMagic
  let ver ← Reader.u32
  if ver ≠ formatVersion then
    (bail s!"версия снапшота {ver.toNat}, поддерживается {formatVersion.toNat}" :
      Exec (List Table × UInt64))
  else
    let lsn ← Reader.u64
    let ntables ← Reader.u64
    withCapacity tableSize ntables.toNat
    let tables ← Reads.times readTable ntables.toNat
    return (tables, lsn)

def decodeSnapshot (raw : Bytes) : Exec (List Table × UInt64) := do
  ensureLe
  if raw.length < 28 ∨ raw.take 8 ≠ snapshotMagic then
    bail "данные не похожи на снапшот veldb"
  else
    let body := raw.take (raw.length - 4)
    let stored := UInt32.ofNat (leNat (raw.drop (raw.length - 4)))
    if crc32 body ≠ stored then bail "снапшот повреждён (не сходится CRC)"
    else Prod.fst <$> readSnapshot body

end Veldb
