import Veldb.Crashes
import Veldb.DecoderCounts

/-! On arbitrary bytes the decoders only panic at a reservation, and the counts are true and
fit into the input exactly where they are small enough for the place they stand in. -/

namespace Veldb

open Attempts LittleEndian Reads Reads.Traced

namespace Reader

theorem not_crashes_take (n : Nat) (bs : Bytes) : ¬ Crashes (take n bs) := by
  unfold take
  split_ifs
  · exact not_crashes_bail _
  · exact not_raises_ok _

theorem take_ok {n : Nat} {bs b rest : Bytes} (h : take n bs = .ok (b, rest)) :
    n ≤ bs.length ∧ b = bs.take n ∧ rest = bs.drop n := by
  unfold take at h
  by_cases hlen : bs.length < n
  · rw [if_pos hlen] at h
    exact absurd h (bail_ne_ok _ _)
  · rw [if_neg hlen] at h
    obtain ⟨hb, hrest⟩ := Prod.mk.inj (Except.ok.inj h)
    exact ⟨not_lt.mp hlen, hb.symm, hrest.symm⟩

theorem take_length {n : Nat} {bs b rest : Bytes} (h : take n bs = .ok (b, rest)) :
    b.length = n ∧ rest.length + n = bs.length := by
  obtain ⟨hlen, rfl, rfl⟩ := take_ok h
  rw [List.length_take, List.length_drop]
  omega

theorem take_split {n : Nat} {bs b rest : Bytes} (h : take n bs = .ok (b, rest)) :
    bs = b ++ rest := by
  obtain ⟨-, rfl, rfl⟩ := take_ok h
  exact (List.take_append_drop n bs).symm

theorem take_returns (n : Nat) : Returns (fun b => b.length = n) (take n) :=
  fun _ _ _ h => (take_length h).1

theorem not_crashes_fixed {α : Type} (w : Nat) (g : Bytes → α) (bs : Bytes) :
    ¬ Crashes ((do return g (← take w) : Reader α) bs) :=
  not_raises_bind (not_crashes_take w bs) fun _ _ => not_raises_ok _

theorem not_crashes_dataType (bs : Bytes) : ¬ Crashes (dataType bs) := by
  refine not_raises_bind (not_crashes_fixed 1 _ bs) fun tag _ => ?_
  dsimp only
  split_ifs
  · exact not_raises_ok _
  · exact not_raises_ok _
  · exact not_raises_ok _
  · exact not_raises_ok _
  · exact not_raises_bind (not_crashes_fixed 8 _ _) fun _ _ => not_raises_ok _
  · exact not_crashes_bail _

end Reader

theorem StrColumn.not_crashes_fromParts (buf : Bytes) (offsets : List UInt32) :
    ¬ Crashes (StrColumn.fromParts buf offsets) := by
  unfold StrColumn.fromParts
  split_ifs
  · exact not_crashes_bail _
  · exact not_crashes_bail _
  · exact not_crashes_bail _
  · exact not_raises_ok _

theorem Schema.not_crashes_validateFrom (seen fs : List Field) :
    ¬ Crashes (Schema.validateFrom seen fs) := by
  induction fs generalizing seen with
  | nil => exact not_raises_ok _
  | cons f fs ih =>
    unfold Schema.validateFrom
    split_ifs
    · exact not_crashes_bail _
    · exact not_crashes_bail _
    · exact not_crashes_bail _
    · exact ih _

theorem Schema.not_crashes_validate (s : Schema) : ¬ Crashes s.validate := by
  unfold Schema.validate
  split_ifs
  · exact not_crashes_bail _
  · exact Schema.not_crashes_validateFrom _ _

theorem Table.not_crashes_checkColumns (n : Nat) (cs : List Column) (fs : List Field) :
    ¬ Crashes (Table.checkColumns n cs fs) := by
  induction cs generalizing fs with
  | nil => exact not_raises_ok _
  | cons c cs ih =>
    cases fs with
    | nil => exact not_raises_ok _
    | cons f fs =>
      unfold Table.checkColumns
      split_ifs
      · exact not_crashes_bail _
      · exact not_crashes_bail _
      · exact ih _

theorem Table.not_crashes_fromColumns (name : String) (schema : Schema) (columns : List Column) :
    ¬ Crashes (Table.fromColumns name schema columns) := by
  refine not_raises_bind (Schema.not_crashes_validate schema) fun _ _ => ?_
  split_ifs
  · exact not_crashes_bail _
  · refine raises_bind_pure.not.mpr ?_
    exact Table.not_crashes_checkColumns _ _ _

namespace Noted

/-- The reader panics only at its counts, and keeps to them exactly when they are small. -/
abbrev Sound {α : Type} (p : Noted α) : Prop :=
  Guarded Fault.IsCrash Note.Met Note.Small p

theorem sound_fixed {α : Type} (w : Nat) (g : Bytes → α) :
    Sound (ofReader (do return g (← Reader.take w))) :=
  guarded_ofReader (Reader.not_crashes_fixed w g)

theorem sound_take (n : Nat) : Sound (ofReader (Reader.take n)) :=
  guarded_ofReader (Reader.not_crashes_take n)

theorem sound_bail {α : Type} (m : String) : Sound (ofReader (bail m : Exec α)) :=
  guarded_lift (not_crashes_bail m)

theorem sound_reserve (size count need : Nat) : Sound (reserve size count need) := by
  intro bs
  have hcrash : ¬ Crashes ((reserve size count need).run bs) ↔ count * size ≤ isizeMax := by
    rw [run_reserve]
    refine raises_bind_pure.not.trans ?_
    unfold withCapacity
    by_cases h : count * size ≤ isizeMax
    · rw [if_pos h]
      exact iff_of_true (not_raises_ok _) h
    · rw [if_neg h]
      exact iff_of_false (not_not.mpr (crashes_crash _)) h
  rw [reserve_notes, List.forall_mem_singleton, List.forall_mem_singleton, hcrash]
  exact And.comm

theorem sound_accept {n m : Nat} (h : n = m) : Sound (note fun _ => .accept n m) :=
  guarded_note fun _ => iff_of_true h trivial

theorem sound_bytes : Sound bytes := by
  refine guarded_bind (sound_fixed 8 _) fun n => ?_
  refine (sound_take n.toNat).bind (Reader.take_returns _) fun b hb => ?_
  exact guarded_bind (sound_accept hb.symm) fun _ => guarded_pure b

theorem sound_str : Sound str := by
  refine guarded_bind sound_bytes fun b => ?_
  cases fromUtf8 b with
  | some s => exact guarded_pure s
  | none => exact sound_bail _

/-- Where the product does not wrap, as many elements are read as the count says. -/
theorem sound_rawOf {α : Type} {size : Nat} (hsize : 0 < size) (hdvd : size ∣ usizeRange)
    (item : Bytes → α) : Sound (rawOf size item) := by
  refine guarded_bind (sound_fixed 8 _) fun n => ?_
  have hwrap : n.toNat < usizeRange / size ↔ n.toNat * size < usizeRange :=
    Nat.lt_div_iff_mul_lt_of_dvd hsize.ne' hdvd
  refine guarded_note_bind hwrap.symm fun hsmall => ?_
  have hmod : n.toNat * size % usizeRange = n.toNat * size := Nat.mod_eq_of_lt (hwrap.mp hsmall)
  refine (sound_take _).bind (Reader.take_returns _) fun b hb => ?_
  have hlen : ((Reader.chunksExact size b).map item).length = n.toNat := by
    rw [List.length_map, Reader.chunksExact, List.length_map, List.length_range, hb, hmod,
      Nat.mul_div_cancel _ hsize]
  exact guarded_bind (sound_accept hlen.symm) fun _ => guarded_pure _

theorem sound_rawF32 : Sound rawF32 :=
  sound_rawOf (by decide) (by decide) _

theorem sound_dataType : Sound (ofReader Reader.dataType) :=
  guarded_ofReader Reader.not_crashes_dataType

theorem sound_field : Sound field :=
  guarded_bind sound_str fun _ => guarded_bind sound_dataType fun _ => guarded_pure _

theorem sound_times {α : Type} {p : Noted α} (h : Sound p) (size n need : Nat)
    {γ : Type} (f : List α → γ) :
    Sound (do
      reserve size n need
      let xs ← times p n
      note fun _ => .accept n xs.length
      return f xs) := by
  refine guarded_bind (sound_reserve size n need) fun _ => ?_
  have hcount : Returns (fun xs => xs.length = n) (times p n).run := by
    rw [run_times]
    exact times_returns_length p.run n
  refine (h.times n).bind hcount fun xs hxs => ?_
  exact guarded_bind (sound_accept hxs.symm) fun _ => guarded_pure _

theorem sound_schema : Sound schema :=
  guarded_bind (sound_fixed 8 _) fun _ => sound_times sound_field _ _ _ _

theorem sound_value (ty : DataType) : Sound (value ty) := by
  cases ty with
  | i64 => exact (sound_fixed 8 _).map _
  | f64 => exact (sound_fixed 8 _).map _
  | bool => exact (sound_fixed 1 _).map _
  | str => exact sound_str.map _
  | vector dim =>
    refine guarded_bind sound_rawF32 fun v => ?_
    split_ifs
    · exact sound_bail _
    · exact guarded_pure _

theorem sound_column (ty : DataType) : Sound (column ty) := by
  cases ty with
  | i64 => exact (sound_rawOf (by decide) (by decide) _).map _
  | f64 => exact (sound_rawOf (by decide) (by decide) _).map _
  | bool => exact sound_bytes.map _
  | str =>
    refine guarded_bind (sound_rawOf (by decide) (by decide) _) fun offsets => ?_
    refine guarded_bind sound_bytes fun buf => ?_
    have hparts := StrColumn.not_crashes_fromParts buf offsets
    exact guarded_bind (guarded_lift hparts) fun _ => guarded_pure _
  | vector dim =>
    refine guarded_bind (sound_fixed 8 _) fun stored => ?_
    split_ifs
    · exact sound_bail _
    · refine guarded_bind sound_rawF32 fun data => ?_
      split_ifs
      · exact sound_bail _
      · exact guarded_pure _

theorem sound_row (fields : List Field) : Sound (row fields) :=
  Guarded.each (fun f : Field => sound_value f.ty) fields

theorem sound_record (schemaOf : String → Option Schema) : Sound (record schemaOf) := by
  refine guarded_bind (sound_fixed 1 _) fun tag => ?_
  split_ifs
  · exact guarded_bind sound_str fun _ => guarded_bind sound_schema fun _ => guarded_pure _
  · exact guarded_bind sound_str fun _ => guarded_pure _
  · refine guarded_bind sound_str fun name => ?_
    cases schemaOf name with
    | none => exact sound_bail _
    | some schema =>
      exact guarded_bind (sound_fixed 8 _) fun _ => sound_times (sound_row _) _ _ _ _
  · exact sound_bail _

theorem sound_table : Sound table := by
  refine guarded_bind sound_str fun name => guarded_bind sound_schema fun schema => ?_
  refine guarded_bind (sound_fixed 8 _) fun nrows => ?_
  refine guarded_bind (sound_reserve _ _ _) fun _ => ?_
  refine guarded_bind (Guarded.each (fun f : Field => sound_column f.ty) _) fun columns => ?_
  have htable := Table.not_crashes_fromColumns name schema columns
  refine guarded_bind (guarded_lift (crashes_withContext.not.mpr htable)) fun t => ?_
  by_cases hrows : t.nrows ≠ nrows.toNat
  · rw [if_pos hrows]
    exact sound_bail _
  · rw [if_neg hrows]
    exact guarded_bind (sound_accept (not_not.mp hrows).symm) fun _ => guarded_pure t

theorem sound_snapshot : Sound snapshot := by
  refine guarded_bind (sound_take 8) fun _ => guarded_bind (sound_fixed 4 _) fun ver => ?_
  split_ifs
  · exact sound_bail _
  · refine guarded_bind (sound_fixed 8 _) fun lsn => guarded_bind (sound_fixed 8 _) fun _ => ?_
    exact sound_times sound_table _ _ _ _

end Noted

theorem decode_guarded (bytes : Bytes) (schemaOf : String → Option Schema) :
    (¬ Crashes (WalRecord.decode bytes schemaOf) ∧
      ∀ d ∈ (Noted.record schemaOf).notes bytes, d.Met) ↔
        ∀ d ∈ (Noted.record schemaOf).notes bytes, d.Small := by
  have hsound := Noted.sound_record schemaOf bytes
  rw [Noted.run_record] at hsound
  have hvalue : Crashes (WalRecord.decode bytes schemaOf) ↔
      Crashes (WalRecord.read schemaOf bytes) := raises_map
  rwa [hvalue]

/-- Either a check fails before anything is read, or the body is read. -/
theorem decodeSnapshot_cases (raw : Bytes) :
    (∃ m, decodeSnapshot raw = bail m ∧ Noted.ofSnapshot raw = []) ∨
    (decodeSnapshot raw = Prod.fst <$> Noted.snapshot.run (raw.take (raw.length - 4)) ∧
      Noted.ofSnapshot raw = Noted.snapshot.notes (raw.take (raw.length - 4))) := by
  by_cases hmagic : raw.length < 28 ∨ raw.take 8 ≠ snapshotMagic
  · exact Or.inl ⟨_, if_pos hmagic, if_pos hmagic⟩
  · by_cases hcrc : crc32 (raw.take (raw.length - 4)) ≠
        UInt32.ofNat (leNat (raw.drop (raw.length - 4)))
    · exact Or.inl ⟨_, (if_neg hmagic).trans (if_pos hcrc), (if_neg hmagic).trans (if_pos hcrc)⟩
    · rw [Noted.run_snapshot]
      exact Or.inr ⟨(if_neg hmagic).trans (if_neg hcrc), (if_neg hmagic).trans (if_neg hcrc)⟩

theorem decodeSnapshot_guarded (raw : Bytes) :
    (¬ Crashes (decodeSnapshot raw) ∧ ∀ d ∈ Noted.ofSnapshot raw, d.Met) ↔
      ∀ d ∈ Noted.ofSnapshot raw, d.Small := by
  rcases decodeSnapshot_cases raw with ⟨m, hdecode, hnotes⟩ | ⟨hdecode, hnotes⟩
  · rw [hdecode, hnotes]
    exact iff_of_true ⟨not_crashes_bail m, by simp⟩ (by simp)
  · rw [hdecode, hnotes]
    have hvalue : Crashes (Prod.fst <$> Noted.snapshot.run (raw.take (raw.length - 4))) ↔
        Crashes (Noted.snapshot.run (raw.take (raw.length - 4))) := raises_map
    rw [hvalue]
    exact Noted.sound_snapshot (raw.take (raw.length - 4))

/-- For all bytes and every catalog the decoder of log records returns a value or an error,
without a wrapped product, a reservation for more than the input could hold or a wrong count
accepted, exactly when every count it comes to is small. The same holds of snapshots. -/
theorem decoders_total_iff (bytes : Bytes) (schemaOf : String → Option Schema) :
    ((¬ Crashes (WalRecord.decode bytes schemaOf) ∧
      ∀ d ∈ (Noted.record schemaOf).notes bytes, d.Met) ↔
        ∀ d ∈ (Noted.record schemaOf).notes bytes, d.Small) ∧
    ((¬ Crashes (decodeSnapshot bytes) ∧ ∀ d ∈ Noted.ofSnapshot bytes, d.Met) ↔
      ∀ d ∈ Noted.ofSnapshot bytes, d.Small) :=
  ⟨decode_guarded bytes schemaOf, decodeSnapshot_guarded bytes⟩

/-- A table is created with 2^64 - 1 columns. -/
def endlessTable : Bytes :=
  Writer.u8 1 ++ (Writer.str "t" ++ Writer.u64 0xFFFFFFFFFFFFFFFF)

def vectorCatalog (name : String) : Option Schema :=
  if name = "t" then some ⟨[⟨"v", .vector 1⟩]⟩ else none

/-- One row is inserted, its vector of 2^62 + 1 numbers has the four bytes of one. -/
def wrappedVector : Bytes :=
  Writer.u8 3 ++ (Writer.str "t" ++ (Writer.u64 1 ++ (Writer.u64 0x4000000000000001 ++
    Writer.u32 0)))

/-- No tables follow, where 2^64 - 1 are announced. -/
def endlessSnapshot : Bytes :=
  let body := snapshotMagic ++ (Writer.u32 formatVersion ++ (Writer.u64 0 ++
    Writer.u64 0xFFFFFFFFFFFFFFFF))
  body ++ Writer.u32 (crc32 body)

theorem decoders_not_total :
    Crashes (WalRecord.decode endlessTable vectorCatalog) ∧
    Crashes (decodeSnapshot endlessSnapshot) ∧
    WalRecord.decode wrappedVector vectorCatalog = .ok (.insert "t" [[.vector [⟨0⟩]]]) ∧
    .accept 0x4000000000000001 1 ∈ (Noted.record vectorCatalog).notes wrappedVector ∧
    ¬ (Note.accept 0x4000000000000001 1).Met := by
  have hrecord : WalRecord.decode endlessTable vectorCatalog = crash "capacity overflow" := by
    decide +kernel
  have hsnapshot : decodeSnapshot endlessSnapshot = crash "capacity overflow" := by
    decide +kernel
  have hnote : Note.accept 0x4000000000000001 1 ∈
      (Noted.record vectorCatalog).notes wrappedVector := by decide +kernel
  refine ⟨⟨_, hrecord, trivial⟩, ⟨_, hsnapshot, trivial⟩, by decide +kernel, hnote, ?_⟩
  intro (h : (0x4000000000000001 : Nat) = 1)
  omega

end Veldb
