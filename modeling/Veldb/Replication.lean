import Veldb.Durability

/-! Asynchronous replication: a replica takes the primary's snapshot once and
then its log, record by record, over HTTP. A reply is what the replica reads off
the JSON body; a field that is missing or of another type is `none`. -/

namespace Veldb

def hexDigit (n : Nat) : Char :=
  if n < 10 then Char.ofNat (48 + n) else Char.ofNat (87 + n)

def hex (b : Bytes) : String :=
  String.ofList (b.flatMap (fun x => [hexDigit (x.toNat / 16), hexDigit (x.toNat % 16)]))

def digitOf (b : UInt8) : Option Nat :=
  if 48 ≤ b ∧ b ≤ 57 then some (b.toNat - 48)
  else if 97 ≤ b ∧ b ≤ 102 then some (b.toNat - 87)
  else if 65 ≤ b ∧ b ≤ 70 then some (b.toNat - 55)
  else none

/-- `u8::from_str_radix` on the two bytes of a slice: a leading plus is a sign. -/
def fromHexPair (a b : UInt8) : Exec UInt8 :=
  let high := if a = 43 then some 0 else digitOf a
  match high, digitOf b with
  | some h, some l => .ok (UInt8.ofNat (16 * h + l))
  | _, _ => bail "hex: invalid digit found in string"

/-- A slice that cuts a character in two is a panic. -/
def unhexPairs : Bytes → Exec Bytes
  | a :: b :: rest =>
    if (fromUtf8 [a, b]).isNone then crash "unhex slice"
    else do
      let x ← fromHexPair a b
      let xs ← unhexPairs rest
      return x :: xs
  | _ => .ok []

def unhex (s : String) : Exec Bytes :=
  if (utf8 s).length % 2 ≠ 0 then bail "нечётная длина hex-строки" else unhexPairs (utf8 s)

structure ReplyRecord where
  lsn : Option UInt64
  payload : Option String

structure WalReply where
  records : Option (List ReplyRecord)

namespace Database

/-- The handler of `/replication/wal`. -/
def wal (db : Database) (after : UInt64) : Exec WalReply × Database :=
  match db.walSince after with
  | (.error e, db') => (.error e, db')
  | (.ok records, db') =>
    (.ok ⟨some (records.map (fun r => ⟨some r.1, some (hex r.2)⟩))⟩, db')

/-- The loop of `pull_once` over the catalog of the replica. -/
def pullRecords (lower : String → String) (m : Catalog) (lsn : UInt64) (n : Nat) :
    List ReplyRecord → Exec (UInt64 × Nat) × Catalog
  | [] => (.ok (lsn, n), m)
  | rec :: rs =>
    match rec.lsn with
    | none => (bail "запись без lsn", m)
    | some recLsn =>
      if recLsn ≠ lsn + 1 then
        (bail s!"разрыв в WAL: ожидался lsn={(lsn + 1).toNat}, пришёл {recLsn.toNat}", m)
      else
        match rec.payload with
        | none => (bail "запись без payload", m)
        | some text =>
          match unhex text with
          | .error e => (.error e, m)
          | .ok payload =>
            match withContext s!"разбор записи lsn={recLsn.toNat}"
                (WalRecord.decode payload (m.schemaOf lower)) with
            | .error e => (.error e, m)
            | .ok record =>
              match m.apply lower record with
              | (.error e, m') =>
                (withContext s!"применение записи lsn={recLsn.toNat}" (.error e), m')
              | (.ok (), m') => pullRecords lower m' recLsn (n + 1) rs

def pullOnce (lower : String → String) (db : Database) (reply : Exec WalReply) (applied : UInt64) :
    Exec (UInt64 × Nat) × Database :=
  match reply with
  | .error e => (.error e, db)
  | .ok ⟨none⟩ => (bail "в ответе нет 'records'", db)
  | .ok ⟨some records⟩ =>
    ((pullRecords lower db.tables applied 0 records).1,
      { db with tables := (pullRecords lower db.tables applied 0 records).2 })

def bootstrap (lower : String → String) (db : Database) (reply : Exec Bytes) :
    Exec UInt64 × Database :=
  match withContext "снапшот с первичного узла" reply with
  | .error e => (.error e, db)
  | .ok bytes => db.loadSnapshotBytes lower bytes

end Database

/-- `str::contains`. -/
def hasText (text part : String) : Bool :=
  decide (part.toList <:+: text.toList)

/-- The error after which `follow` starts over with a snapshot. -/
def Fault.isGap : Fault → Bool
  | .bail msg => hasText msg "разрыв в WAL"
  | .crash _ => false

/-- What the loop of `follow` keeps between two iterations. -/
structure Follower where
  db : Database
  applied : Option UInt64
  deriving DecidableEq

namespace Follower

/-- The number to pull from; without one the replica takes a snapshot first. -/
def pullFrom (lower : String → String) (s : Follower) (snapshot : Exec Bytes) :
    Exec UInt64 × Database :=
  match s.applied with
  | some l => (.ok l, s.db)
  | none => s.db.bootstrap lower snapshot

/-- An error is printed and survived; a panic ends the loop. -/
def survive (e : Fault) (db : Database) (applied : Option UInt64) : Option Follower :=
  match e with
  | .crash _ => none
  | .bail _ => some ⟨db, if e.isGap then none else applied⟩

/-- One iteration of `follow`, given what the primary or the network answers. -/
def follow (lower : String → String) (s : Follower) (snapshot : Exec Bytes) (reply : Exec WalReply) :
    Option Follower :=
  match s.pullFrom lower snapshot with
  | (.error e, db) => survive e db none
  | (.ok l, db) =>
    match db.pullOnce lower reply l with
    | (.error e, db') => survive e db' (some l)
    | (.ok (lsn, _), db') => some ⟨db', some lsn⟩

end Follower

/-- A primary and one replica; `applied` is what the replica last returned. -/
structure Net where
  primary : Database
  replica : Database
  applied : Option UInt64

inductive NetOp where
  | call (op : Op)
  | bootstrap (tables : List Table)
  | pull

namespace NetOp

/-- One step; a primary operation has to succeed, a replica call may fail. -/
def exec (lower : String → String) (net : Net) : NetOp → Option Net
  | call op => (op.exec lower net.primary).map (fun db => { net with primary := db })
  | bootstrap tables =>
    if net.primary.tables.Lists tables then
      match net.replica.bootstrap lower (net.primary.snapshotBytes tables) with
      | (.ok lsn, db) => some { net with replica := db, applied := some lsn }
      | (.error _, db) => some { net with replica := db }
    else none
  | pull =>
    match net.applied with
    | none => none
    | some applied =>
      let (reply, primary) := net.primary.wal applied
      match net.replica.pullOnce lower reply applied with
      | (.ok (lsn, _), db) => some ⟨primary, db, some lsn⟩
      | (.error _, db) => some ⟨primary, db, some applied⟩

end NetOp

end Veldb
