import Veldb.DecoderTotality
import Veldb.LogRecords

/-! A record of the log read from a payload is written as the same payload exactly where the
payload keeps to the one form the writer has for it. -/

namespace Veldb

open Attempts LittleEndian Reads Reads.Traced

/-- What a reader takes in more than one form: the byte of a boolean, the count of a vector, and
however many bytes there are behind the record. -/
inductive Mark where
  | flag (byte : UInt8)
  | count (n : UInt64)
  | leftOver (n : Nat)
  deriving DecidableEq, Repr

/-- The form in which the writer puts it. -/
def Mark.Canonical : Mark → Prop
  | flag byte => byte = 0 ∨ byte = 1
  | count n => n.toNat < 2 ^ 62
  | leftOver n => n = 0

abbrev Marked := Traced UInt8 Fault Mark

namespace Marked

def rawF32 : Marked (List F32) := do
  let n ← ofReader Reader.u64
  note fun _ => .count n
  let b ← ofReader (Reader.take (n.toNat * 4 % usizeRange))
  return (Reader.chunksExact 4 b).map (fun c => ⟨UInt32.ofNat (leNat c)⟩)

def value : DataType → Marked Value
  | .i64 => .i64 <$> ofReader Reader.i64
  | .f64 => .f64 <$> ofReader Reader.f64
  | .bool => do
    let b ← ofReader Reader.u8
    note fun _ => .flag b
    return .bool (b != 0)
  | .str => .str <$> ofReader Reader.str
  | .vector dim => do
    let v ← rawF32
    if UInt64.ofNat v.length ≠ dim then
      ofReader (bail s!"вектор длины {v.length} вместо {dim.toNat}" : Exec Value)
    else return .vector v

def row (fields : List Field) : Marked (List Value) :=
  each (fun f => value f.ty) fields

def record (schemaOf : String → Option Schema) : Marked WalRecord := do
  let tag ← ofReader Reader.u8
  if tag = 1 then
    let name ← ofReader Reader.str
    let schema ← ofReader Reader.schema
    return .createTable name schema
  else if tag = 2 then
    let name ← ofReader Reader.str
    return .dropTable name
  else if tag = 3 then
    let table ← ofReader Reader.str
    match schemaOf table with
    | none => ofReader (bail s!"WAL ссылается на неизвестную таблицу '{table}'" : Exec WalRecord)
    | some schema =>
      let n ← ofReader Reader.u64
      ofReader (withCapacity WalRecord.rowSize n.toNat : Exec Unit)
      let rows ← times (row schema.fields) n.toNat
      return .insert table rows
  else ofReader (bail s!"неизвестный код записи WAL: {tag.toNat}" : Exec WalRecord)

/-- The record, and what is behind it. -/
def payload (schemaOf : String → Option Schema) : Marked WalRecord := do
  let r ← record schemaOf
  note fun bs => .leftOver bs.length
  return r

/-! The readers that take notes are the readers. -/

@[simp] theorem run_rawF32 : rawF32.run = Reader.rawF32 := by
  simp [rawF32, Reader.rawF32, Reader.rawOf]

@[simp] theorem run_value (ty : DataType) : (value ty).run = Reader.value ty := by
  cases ty <;> simp [value, Reader.value]

@[simp] theorem run_row (fields : List Field) : (row fields).run = WalRecord.row fields := by
  simp [row, WalRecord.row]

@[simp] theorem run_record (schemaOf : String → Option Schema) :
    (record schemaOf).run = WalRecord.read schemaOf := by
  simp only [record, WalRecord.read, run_bind, run_ite, run_ofReader, run_pure]
  refine bind_congr fun tag => if_congr Iff.rfl rfl (if_congr Iff.rfl rfl ?_)
  refine if_congr Iff.rfl (bind_congr fun name => ?_) rfl
  cases schemaOf name with
  | none => rfl
  | some s => simp

/-- Of a result `enc` writes, behind `pre`, what was read for it, where the notes are canonical. -/
abbrev Writes {α : Type} (pre : Bytes) (enc : α → Bytes) (p : Marked α) : Prop :=
  Emits Mark.Canonical pre enc p

end Marked

namespace Reader

theorem exists_chunks {k m : Nat} {b : Bytes} (h : b.length = m * k) :
    ∃ cs : List { c : Bytes // c.length = k }, b = cs.flatMap Subtype.val := by
  induction m generalizing b with
  | zero =>
    rw [Nat.zero_mul] at h
    exact ⟨[], List.eq_nil_of_length_eq_zero h⟩
  | succ m ih =>
    rw [Nat.add_one_mul] at h
    have hrest : (b.drop k).length = m * k := by rw [List.length_drop, h, Nat.add_sub_cancel]
    have hfirst : (b.take k).length = k := by rw [List.length_take, h, Nat.min_eq_left (by omega)]
    obtain ⟨cs, hcs⟩ := ih hrest
    refine ⟨⟨b.take k, hfirst⟩ :: cs, ?_⟩
    rw [List.flatMap_cons, ← hcs, List.take_append_drop]

theorem chunks_written {α : Type} {size m : Nat} {item : α → Bytes} {parse : Bytes → α}
    (hsize : 0 < size) (hitem : ∀ c : Bytes, c.length = size → item (parse c) = c) {b : Bytes}
    (h : b.length = m * size) :
    ((chunksExact size b).map parse).length = m ∧
      ((chunksExact size b).map parse).flatMap item = b := by
  obtain ⟨cs, rfl⟩ := exists_chunks h
  have hchunks : chunksExact size (cs.flatMap Subtype.val) = cs.map Subtype.val :=
    chunksExact_flatMap hsize (fun c => c.2) cs
  have hlen : (cs.flatMap Subtype.val).length = cs.length * size := by
    rw [List.length_flatMap, List.map_congr_left fun c _ => c.2, List.map_const', List.sum_replicate_nat]
  constructor
  · rw [hchunks, List.length_map, List.length_map]
    exact Nat.eq_of_mul_eq_mul_right hsize (hlen.symm.trans h)
  · rw [hchunks, List.map_map, List.flatMap_map]
    exact List.flatMap_congr fun c _ => hitem c.1 c.2

end Reader

namespace Marked

section Writing

variable {pre : Bytes}

theorem writes_fixed {α : Type} {w : Nat} {g : Bytes → α} {enc : α → Bytes}
    (h : ∀ b : Bytes, b.length = w → enc (g b) = b) :
    Writes [] enc (ofReader (do return g (← Reader.take w))) := by
  refine emits_ofReader fun bs a rest ha => ?_
  obtain ⟨b, left, hb, hg⟩ := bind_ok ha
  obtain ⟨rfl, rfl⟩ := pure_ok hg
  exact ⟨b, Reader.take_split hb, h b (Reader.take_length hb).1⟩

theorem writes_u8 : Writes [] Writer.u8 (ofReader Reader.u8) := by
  refine writes_fixed fun b hb => ?_
  obtain ⟨x, rfl⟩ := List.length_eq_one_iff.mp hb
  simp [Writer.u8, leNat]

theorem writes_u64 : Writes [] Writer.u64 (ofReader Reader.u64) :=
  writes_fixed fun _ hb => leBytes_leNat_uint64 hb

theorem writes_i64 : Writes [] Writer.i64 (ofReader Reader.i64) :=
  writes_fixed fun _ hb => leBytes_leNat_uint64 hb

theorem writes_f64 : Writes [] Writer.f64 (ofReader Reader.f64) :=
  writes_fixed fun _ hb => leBytes_leNat_uint64 hb

theorem writes_bytes : Writes [] Writer.bytes (ofReader Reader.bytes) := by
  refine emits_ofReader_bind writes_u64 fun n => emits_ofReader fun bs b rest hb => ?_
  refine ⟨b, Reader.take_split hb, ?_⟩
  rw [Writer.bytes, (Reader.take_length hb).1, UInt64.ofNat_toNat, List.nil_append]

theorem writes_str : Writes [] Writer.str (ofReader Reader.str) := by
  refine emits_ofReader_bind writes_bytes fun b => ?_
  cases hs : fromUtf8 b with
  | some s =>
    refine emits_pure ?_
    rw [Writer.str, fromUtf8_eq_some hs, List.nil_append]
  | none => exact emits_error

theorem writes_dataType : Writes [] Writer.dataType (ofReader Reader.dataType) := by
  refine emits_ofReader_bind writes_u8 fun tag => ?_
  split_ifs with h1 h2 h3 h4 h5
  · exact emits_pure (by rw [h1]; rfl)
  · exact emits_pure (by rw [h2]; rfl)
  · exact emits_pure (by rw [h3]; rfl)
  · exact emits_pure (by rw [h4]; rfl)
  · exact emits_ofReader_bind writes_u64 fun d => emits_pure (by rw [h5]; rfl)
  · exact emits_error

theorem writes_field : Writes [] Writer.field (ofReader Reader.field) :=
  emits_ofReader_bind writes_str fun _ => emits_ofReader_bind writes_dataType fun _ => emits_pure rfl

theorem writes_schema : Writes [] Writer.schema (ofReader Reader.schema) := by
  refine emits_ofReader_bind writes_u64 fun n => emits_ofReader_bind (emits_lift _) fun _ => ?_
  refine (emits_ofReader_times writes_field n.toNat).ofReader_bind
    (times_returns_length Reader.field n.toNat) fun fields hcount => emits_pure ?_
  rw [Writer.schema, hcount, UInt64.ofNat_toNat, List.nil_append, List.append_nil]

/-- The product in `usize` drops the count's two highest bits, and the writer does not. -/
theorem writes_rawF32 : Writes [] (Writer.raw Writer.f32) rawF32 := by
  intro bs v rest h
  have hnumbers : ∀ c : Bytes, c.length = 4 → Writer.f32 ⟨UInt32.ofNat (leNat c)⟩ = c :=
    fun _ hc => leBytes_leNat_uint32 hc
  obtain ⟨n, left, hn, hleft⟩ := run_bind_ok h
  rw [run_note_bind] at hleft
  obtain ⟨b, left', hb, hv⟩ := run_bind_ok hleft
  obtain ⟨rfl, rfl⟩ := pure_ok hv
  have hnotes : rawF32.notes bs = [.count n] := by
    refine (notes_bind hn).trans ?_
    rw [notes_note_bind, notes_bind hb]
    rfl
  have hblen : b.length = n.toNat % 2 ^ 62 * 4 := by
    have hlen := (Reader.take_length hb).1
    rw [usizeRange] at hlen
    omega
  obtain ⟨hcount, hbytes⟩ := Reader.chunks_written (by omega) hnumbers hblen
  refine ⟨Writer.u64 n ++ b, Writer.u64 (UInt64.ofNat (n.toNat % 2 ^ 62)) ++ b, ?_, ?_, ?_, ?_⟩
  · rw [writes_u64.split hn, Reader.take_split hb, List.append_assoc]
  · rw [Writer.raw, hcount, hbytes, List.nil_append]
  · rw [List.length_append, List.length_append, Writer.u64, Writer.u64, length_leBytes,
      length_leBytes]
  · rw [hnotes, List.forall_mem_singleton, List.append_left_inj]
    have hsame : UInt64.ofNat (n.toNat % 2 ^ 62) = n ↔ n.toNat < 2 ^ 62 := by
      have hlt := n.toNat_lt
      have hlow : n.toNat % 2 ^ 62 < 2 ^ 64 := by omega
      rw [← UInt64.toNat_inj, UInt64.toNat_ofNat_of_lt' hlow]
      omega
    rw [Mark.Canonical, ← hsame]
    constructor
    · intro heq
      exact Writer.u64_inj heq
    · intro heq
      rw [heq]

/-- Every byte but 0 is read as true, and true is written as 1. -/
theorem writes_bool : Writes [] Writer.value (value .bool) := by
  intro bs v rest h
  obtain ⟨b, left, hb, hv⟩ := run_bind_ok h
  obtain ⟨rfl, rfl⟩ := pure_ok hv
  have hnotes : (value .bool).notes bs = [.flag b] := notes_bind hb
  refine ⟨[b], Writer.u8 (if b != 0 then 1 else 0), writes_u8.split hb, rfl, rfl, ?_⟩
  rw [hnotes, List.forall_mem_singleton, Mark.Canonical, Writer.u8, List.singleton_inj]
  by_cases hzero : b = 0
  · rw [hzero]
    exact iff_of_true rfl (Or.inl rfl)
  · rw [if_pos (bne_iff_ne.mpr hzero), or_iff_right hzero]
    exact eq_comm

theorem writes_value (ty : DataType) : Writes [] Writer.value (value ty) := by
  cases ty with
  | i64 => exact writes_i64.map fun _ => rfl
  | f64 => exact writes_f64.map fun _ => rfl
  | bool => exact writes_bool
  | str => exact writes_str.map fun _ => rfl
  | vector dim =>
    refine emits_bind writes_rawF32 fun v => ?_
    split_ifs
    · exact emits_error
    · exact emits_pure rfl

theorem writes_row (fields : List Field) :
    Writes [] (fun r => r.flatMap Writer.value) (row fields) :=
  Emits.each (fun f : Field => writes_value f.ty) fields

theorem writes_record (schemaOf : String → Option Schema) :
    Writes [] WalRecord.payload (record schemaOf) := by
  refine emits_bind writes_u8 fun tag => ?_
  split_ifs with h1 h2 h3
  · refine emits_bind writes_str fun name => emits_bind writes_schema fun schema => emits_pure ?_
    rw [h1, List.nil_append, List.append_assoc]
    rfl
  · refine emits_bind writes_str fun name => emits_pure ?_
    rw [h2, List.nil_append]
    rfl
  · refine emits_bind writes_str fun name => ?_
    cases schemaOf name with
    | none => exact emits_error
    | some schema =>
      refine emits_bind writes_u64 fun n => emits_bind (emits_lift _) fun _ => ?_
      have hcount : Returns (fun rows => rows.length = n.toNat) (times (row schema.fields) n.toNat).run := by
        rw [run_times]
        exact times_returns_length _ _
      refine ((writes_row schema.fields).times n.toNat).bind hcount fun rows hrows => emits_pure ?_
      rw [WalRecord.payload, hrows, UInt64.ofNat_toNat, h3]
      simp only [List.nil_append, List.append_nil, List.append_assoc]
  · exact emits_error

end Writing

end Marked

namespace WalRecord

theorem row_returns_length (fields : List Field) :
    Returns (fun r => r.length = fields.length) (row fields) :=
  each_returns_length _ fields

/-- The rows of a record that was read are as long as the schema they were read by. -/
theorem encode_read (schemaOf : String → Option Schema) :
    Returns (fun r => r.encode schemaOf = .ok r.payload) (read schemaOf) := by
  have hbail : ∀ m, Returns (fun r => r.encode schemaOf = .ok r.payload)
      (monadLift (bail m : Exec WalRecord) : Reader WalRecord) :=
    fun m => returns_lift fun r h => absurd h (bail_ne_ok _ _)
  refine returns_bind fun tag => ?_
  split_ifs
  · exact returns_bind fun name => returns_bind fun schema => returns_pure rfl
  · exact returns_bind fun name => returns_pure rfl
  · refine returns_bind fun table => ?_
    cases hschema : schemaOf table with
    | none => exact hbail _
    | some schema =>
      refine returns_bind fun n => returns_bind fun _ => ?_
      refine ((row_returns_length schema.fields).times n.toNat).bind fun rows hrows => returns_pure ?_
      have hall : rows.find? (fun r => r.length != schema.len) = none := by
        refine List.find?_eq_none.mpr fun r hr => ?_
        rw [Schema.len, hrows r hr]
        simp
      simp only [encode, hschema, hall]
      rfl
  · exact hbail _

end WalRecord

/-- A payload that is read as a record is what the record is written as exactly where nothing is
left over, every boolean is 0 or 1, and every count of a vector is below 2^62. -/
theorem encode_decode_iff {bytes : Bytes} {schemaOf : String → Option Schema} {r : WalRecord}
    (h : WalRecord.decode bytes schemaOf = .ok r) :
    r.encode schemaOf = .ok bytes ↔ ∀ d ∈ (Marked.payload schemaOf).notes bytes, d.Canonical := by
  obtain ⟨⟨r', rest⟩, hread, rfl⟩ := map_eq_ok.mp h
  have hrun : (Marked.record schemaOf).run bytes = .ok (r', rest) := by
    rw [Marked.run_record, hread]
  have hnotes : (Marked.payload schemaOf).notes bytes =
      (Marked.record schemaOf).notes bytes ++ [.leftOver rest.length] := notes_bind hrun
  obtain ⟨used, out, hbytes, hout, hlen, hright⟩ := Marked.writes_record schemaOf bytes r' rest hrun
  rw [WalRecord.encode_read schemaOf bytes r' rest hread, hout, hnotes, List.forall_mem_append,
    ← hright, List.forall_mem_singleton, List.nil_append, hbytes, Except.ok.injEq, Mark.Canonical]
  constructor
  · intro heq
    have hrest : rest.length = 0 := by
      have htotal := congrArg List.length heq
      rw [List.length_append] at htotal
      omega
    rw [List.eq_nil_of_length_eq_zero hrest, List.append_nil] at heq
    exact ⟨heq, hrest⟩
  · rintro ⟨rfl, hrest⟩
    rw [List.eq_nil_of_length_eq_zero hrest, List.append_nil]

def flagCatalog (name : String) : Option Schema :=
  if name = "t" then some ⟨[⟨"a", .bool⟩]⟩ else none

/-- One row is inserted, of the integer 2. -/
def integerRow : Bytes :=
  Writer.u8 3 ++ (Writer.str "t" ++ (Writer.u64 1 ++ Writer.i64 2))

def flagRow : Bytes :=
  Writer.u8 3 ++ (Writer.str "t" ++ (Writer.u64 1 ++ Writer.u8 1))

theorem encode_decode_flag :
    (WalRecord.insert "t" [[.bool true]]).encode flagCatalog = .ok flagRow ↔
      ∀ d ∈ (Marked.payload flagCatalog).notes flagRow, d.Canonical := by
  have hdecode : WalRecord.decode flagRow flagCatalog = .ok (.insert "t" [[.bool true]]) := by
    decide +kernel
  exact encode_decode_iff hdecode

/-- Read as a boolean the integer's first byte is true, and its other bytes are not looked at. A
count of 2^62 + 1 is read as 1. -/
theorem encode_decode_differs :
    WalRecord.decode integerRow flagCatalog = .ok (.insert "t" [[.bool true]]) ∧
    (WalRecord.insert "t" [[.bool true]]).encode flagCatalog = .ok flagRow ∧
    flagRow ≠ integerRow ∧
    WalRecord.decode wrappedVector vectorCatalog = .ok (.insert "t" [[.vector [⟨0⟩]]]) ∧
    (WalRecord.insert "t" [[.vector [⟨0⟩]]]).encode vectorCatalog ≠ .ok wrappedVector := by
  have hvector : (WalRecord.insert "t" [[.vector [⟨0⟩]]]).encode vectorCatalog ≠
      .ok wrappedVector := by decide +kernel
  refine ⟨?_, ?_, ?_, ?_, hvector⟩
  · decide +kernel
  · decide +kernel
  · decide +kernel
  · decide +kernel

end Veldb
