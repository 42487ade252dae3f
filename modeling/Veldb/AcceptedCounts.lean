import Veldb.DecoderTotality
import Veldb.TableInvariant

/-! What the decoders accept they have read: every element takes its least bytes, so memory was
reserved for no more than there was, and only the count of a raw array can be false. -/

namespace Veldb

open Attempts LittleEndian Reads Reads.Traced

namespace Reader

theorem take_takes (n : Nat) : Takes (fun b => b.length) (take n) := by
  intro bs b rest h
  obtain ⟨rfl, hrest⟩ := take_length h
  exact hrest.le

theorem fixed_takes {α : Type} (w : Nat) (g : Bytes → α) :
    Takes (fun _ => w) (do return g (← take w) : Reader α) := by
  have hall : Takes (fun _ => w) (take w) :=
    (take_takes w).of_returns (take_returns w) fun b hb => hb.ge
  exact hall.bind fun b => takes_pure (Nat.sub_self w)

theorem bytes_takes : Takes (fun _ => 8) bytes :=
  (fixed_takes 8 _).bind fun n => (take_takes _).mono fun b => by omega

theorem str_takes : Takes (fun _ => 8) str := by
  refine bytes_takes.bind fun b => ?_
  cases fromUtf8 b with
  | some s => exact takes_pure (Nat.sub_self 8)
  | none => exact takes_lift fun s h => absurd h (bail_ne_ok _ _)

theorem rawOf_takes {α : Type} (size : Nat) (item : Bytes → α) :
    Takes (fun v => 8 + v.length * size) (rawOf size item) := by
  refine (fixed_takes 8 _).bind fun n => (take_takes _).bind fun b => takes_pure ?_
  have hchunks : ((chunksExact size b).map item).length = b.length / size := by
    rw [List.length_map, chunksExact, List.length_map, List.length_range]
  have hle := Nat.div_mul_le_self b.length size
  rw [hchunks]
  omega

theorem dataType_takes : Takes (fun _ => 1) dataType := by
  refine (fixed_takes 1 _).bind fun tag => ?_
  have hnone : ∀ ty : DataType, Takes (fun _ => 1 - 1) (pure ty : Reader DataType) :=
    fun ty => takes_pure (Nat.sub_self 1)
  split_ifs
  · exact hnone _
  · exact hnone _
  · exact hnone _
  · exact hnone _
  · exact (fixed_takes 8 _).bind fun n => takes_pure (by omega)
  · exact takes_lift fun ty h => absurd h (bail_ne_ok _ _)

theorem field_takes : Takes (fun _ => leastField) field := by
  have hrest : Takes (fun _ => leastField - 8) dataType := dataType_takes
  exact str_takes.bind fun name => hrest.bind fun ty => takes_pure (Nat.sub_self _)

theorem withCapacity_takes (size n : Nat) :
    Takes (fun _ => 0) (withCapacity size n : Reader Unit) :=
  takes_lift fun _ _ => rfl

theorem schema_takes : Takes (fun s => 8 + s.fields.length * leastField) schema := by
  refine (fixed_takes 8 _).bind fun n => (withCapacity_takes _ _).bind fun _ => ?_
  have hfields : Takes (fun fs => fs.length * leastField) (Reads.times field n.toNat) :=
    (field_takes.times _).of_returns (times_returns_length _ _) fun fs hfs => hfs ▸ Nat.le_refl _
  refine hfields.bind fun fs => takes_pure ?_
  simp only [Nat.sub_zero]
  omega

theorem value_takes (ty : DataType) : Takes (fun _ => leastValue ty) (value ty) := by
  cases ty with
  | i64 => exact (fixed_takes 8 _).map fun _ => Nat.le_refl 8
  | f64 => exact (fixed_takes 8 _).map fun _ => Nat.le_refl 8
  | bool => exact (fixed_takes 1 _).map fun _ => Nat.le_refl 1
  | str => exact str_takes.map fun _ => Nat.le_refl 8
  | vector dim =>
    refine (rawOf_takes 4 _).bind fun v => ?_
    split_ifs with hdim
    · exact takes_lift fun x h => absurd h (bail_ne_ok _ _)
    · refine takes_pure ?_
      have hlen : dim.toNat ≤ v.length := by
        rw [← not_not.mp hdim, UInt64.toNat_ofNat']
        exact Nat.mod_le _ _
      have hbytes : 8 + 4 * dim.toNat ≤ 8 + v.length * 4 := by omega
      exact Nat.sub_eq_zero_of_le hbytes

theorem column_takes (ty : DataType) : Takes (fun _ => leastColumn ty) (column ty) := by
  have hcount : ∀ {α : Type} (size : Nat) (item : Bytes → α), Takes (fun _ => 8) (rawOf size item) :=
    fun size item => (rawOf_takes size item).mono fun v => Nat.le_add_right 8 _
  cases ty with
  | i64 => exact (hcount 8 _).map fun _ => Nat.le_refl 8
  | f64 => exact (hcount 8 _).map fun _ => Nat.le_refl 8
  | bool => exact bytes_takes.map fun _ => Nat.le_refl 8
  | str =>
    refine (rawOf_takes 4 _).bind fun offsets => bytes_takes.bind fun buf => ?_
    refine Takes.bind (takes_lift fun c hc => ?_) fun c => takes_pure (Nat.sub_self _)
    -- there is a first offset, or the parts do not fit
    have hfirst := (StrColumn.fromParts_ok hc).2.1
    have hlen : 0 < offsets.length := List.length_pos_of_ne_nil fun h => by simp [h] at hfirst
    have hleast : leastColumn .str = 20 := rfl
    omega
  | vector dim =>
    refine (fixed_takes 8 _).bind fun stored => ?_
    split_ifs
    · exact takes_lift fun x h => absurd h (bail_ne_ok _ _)
    · refine (hcount 4 _).bind fun data => ?_
      split_ifs
      · exact takes_lift fun x h => absurd h (bail_ne_ok _ _)
      · exact takes_pure rfl

end Reader

theorem row_takes (fields : List Field) :
    Takes (fun _ => (fields.map fun f => leastValue f.ty).sum) (WalRecord.row fields) :=
  Takes.each (fun f : Field => Reader.value_takes f.ty) fields

theorem leastColumn_le (ty : DataType) : 8 ≤ leastColumn ty := by
  cases ty with
  | vector dim => exact Nat.le_add_left 8 8
  | _ => decide

theorem readTable_takes : Takes (fun _ => leastTable) readTable := by
  refine Reader.str_takes.bind fun name => Reader.schema_takes.bind fun schema => ?_
  refine (Reader.fixed_takes 8 _).bind fun nrows => (Reader.withCapacity_takes _ _).bind fun _ => ?_
  refine (Takes.each (fun f : Field => Reader.column_takes f.ty) _).bind fun columns => ?_
  have hchecked : Takes (fun _ : Table => leastTable - 8 - (8 + schema.fields.length * leastField) -
      8 - 0 - (schema.fields.map fun f => leastColumn f.ty).sum)
      (liftM (withContext s!"таблица '{name}' из снапшота"
        (Table.fromColumns name schema columns)) : Reader Table) := by
    refine takes_lift fun t ht => ?_
    obtain ⟨hvalid, -⟩ := Table.fromColumns_ok (withContext_eq_ok.mp ht)
    -- a table without columns is not accepted
    cases hfields : schema.fields with
    | nil =>
      rw [Schema.validate, if_pos hfields] at hvalid
      exact absurd hvalid (bail_ne_ok _ _)
    | cons f fs =>
      have hcolumn := leastColumn_le f.ty
      simp only [leastTable, leastField, List.length_cons, List.map_cons, List.sum_cons]
      omega
  refine hchecked.bind fun t => ?_
  split_ifs
  · exact takes_lift fun x h => absurd h (bail_ne_ok _ _)
  · exact takes_pure (Nat.sub_self _)

namespace Noted

/-- Memory is reserved for no more elements than the rest of the input could hold. -/
def Fits : Note → Prop
  | .reserve count size need remaining => need ≤ remaining ∧ count * size ≤ isizeMax
  | _ => True

theorem kept_bytes : Kept Fits bytes :=
  (kept_ofReader _).bind fun _ => (kept_ofReader _).bind fun b =>
    (kept_note fun _ => trivial).bind fun _ => kept_pure b

theorem kept_str : Kept Fits str := by
  refine kept_bytes.bind fun b => ?_
  cases fromUtf8 b with
  | some s => exact kept_pure s
  | none => exact kept_ofReader _

theorem kept_rawOf {α : Type} (size : Nat) (item : Bytes → α) : Kept Fits (rawOf size item) :=
  (kept_ofReader _).bind fun _ => (kept_note fun _ => trivial).bind fun _ =>
    (kept_ofReader _).bind fun _ => (kept_note fun _ => trivial).bind fun _ => kept_pure _

theorem kept_field : Kept Fits field :=
  kept_str.bind fun _ => (kept_ofReader _).bind fun _ => kept_pure _

/-- What is read after a reservation was there when it was made. -/
theorem kept_reserve {α : Type} {p : Noted α} {size n need : Nat} (hp : Kept Fits p)
    (htakes : Takes (fun _ => need) p.run) :
    Kept Fits (reserve size n need >>= fun _ => p) := by
  refine kept_bind_at (fun bs u left a rest hu ha d hd => ?_) fun _ => hp
  rw [reserve_notes] at hd
  obtain rfl := List.mem_singleton.mp hd
  rw [run_reserve] at hu
  obtain ⟨v, hv, hleft⟩ := bind_eq_ok.mp hu
  obtain ⟨-, rfl⟩ := Prod.mk.inj (Except.ok.inj hleft)
  have hread := htakes bs a rest ha
  exact ⟨(Nat.le_add_left need rest.length).trans hread, withCapacity_eq_ok.mp hv⟩

theorem kept_times {α γ : Type} {p : Noted α} {k : Nat} (hp : Kept Fits p)
    (htakes : Takes (fun _ => k) p.run) (size n : Nat) (f : List α → γ) :
    Kept Fits (do
      reserve size n (n * k)
      let xs ← times p n
      note fun _ => .accept n xs.length
      return f xs) := by
  refine kept_reserve ((hp.times n).bind fun xs => ?_) ?_
  · exact (kept_note fun _ => trivial).bind fun _ => kept_pure _
  · rw [run_bind, run_times]
    exact (htakes.times n).bind fun xs => takes_pure (Nat.sub_self _)

theorem kept_schema : Kept Fits schema :=
  (kept_ofReader _).bind fun _ =>
    kept_times kept_field (run_field ▸ Reader.field_takes) _ _ _

theorem kept_value (ty : DataType) : Kept Fits (value ty) := by
  cases ty with
  | i64 => exact (kept_ofReader _).map _
  | f64 => exact (kept_ofReader _).map _
  | bool => exact (kept_ofReader _).map _
  | str => exact kept_str.map _
  | vector dim =>
    refine (kept_rawOf 4 _).bind fun v => ?_
    split_ifs
    · exact kept_ofReader _
    · exact kept_pure _

theorem kept_column (ty : DataType) : Kept Fits (column ty) := by
  cases ty with
  | i64 => exact (kept_rawOf 8 _).map _
  | f64 => exact (kept_rawOf 8 _).map _
  | bool => exact kept_bytes.map _
  | str =>
    exact (kept_rawOf 4 _).bind fun _ => kept_bytes.bind fun _ =>
      (kept_ofReader _).bind fun _ => kept_pure _
  | vector dim =>
    refine (kept_ofReader _).bind fun stored => ?_
    split_ifs
    · exact kept_ofReader _
    · refine (kept_rawOf 4 _).bind fun data => ?_
      split_ifs
      · exact kept_ofReader _
      · exact kept_pure _

theorem kept_record (schemaOf : String → Option Schema) : Kept Fits (record schemaOf) := by
  refine (kept_ofReader _).bind fun tag => ?_
  split_ifs
  · exact kept_str.bind fun _ => kept_schema.bind fun _ => kept_pure _
  · exact kept_str.bind fun _ => kept_pure _
  · refine kept_str.bind fun name => ?_
    cases schemaOf name with
    | none => exact kept_ofReader _
    | some schema =>
      have hrow : Kept Fits (row schema.fields) :=
        Kept.each (fun f : Field => kept_value f.ty) schema.fields
      exact (kept_ofReader _).bind fun _ =>
        kept_times hrow (run_row _ ▸ row_takes schema.fields) _ _ _
  · exact kept_ofReader _

theorem kept_table : Kept Fits table := by
  refine kept_str.bind fun name => kept_schema.bind fun schema => (kept_ofReader _).bind fun n => ?_
  refine kept_reserve ?_ ?_
  · refine (Kept.each (fun f : Field => kept_column f.ty) _).bind fun columns => ?_
    refine (kept_ofReader _).bind fun t => ?_
    split_ifs
    · exact kept_ofReader _
    · exact (kept_note fun _ => trivial).bind fun _ => kept_pure t
  · have hlift : ∀ x : Exec Table, Takes (fun _ : Table => 0) (liftM x : Reader Table) :=
      fun x => takes_lift fun _ _ => rfl
    simp only [run_bind, run_each, run_column, run_ofReader, run_ite, run_note, run_pure, pure_bind]
    refine (Takes.each (fun f : Field => Reader.column_takes f.ty) _).bind fun columns => ?_
    refine (hlift _).bind fun t => ?_
    split_ifs
    · exact takes_lift fun x h => absurd h (bail_ne_ok _ _)
    · exact takes_pure (by simp)

theorem kept_snapshot : Kept Fits snapshot := by
  refine (kept_ofReader _).bind fun _ => (kept_ofReader _).bind fun ver => ?_
  split_ifs
  · exact kept_ofReader _
  · refine (kept_ofReader _).bind fun lsn => (kept_ofReader _).bind fun _ => ?_
    exact kept_times kept_table (run_table ▸ readTable_takes) _ _ _

/-- Of accepted input only the counts of raw arrays are in question. -/
theorem accepted_met_iff {α : Type} {p : Noted α} (hsound : Sound p) (hkept : Kept Fits p)
    {bs rest : Bytes} {a : α} (h : p.run bs = .ok (a, rest)) :
    (∀ d ∈ p.notes bs, d.Met) ↔
      ∀ count size, .product count size ∈ p.notes bs → count < usizeRange / size := by
  have hsmall := (and_iff_right (not_crashes_of_ok h)).symm.trans (hsound bs)
  rw [hsmall]
  constructor
  · intro hall count size hd
    exact hall _ hd
  · intro hall d hd
    cases d with
    | product count size => exact hall count size hd
    | reserve count size need remaining => exact hkept bs a rest h _ hd
    | accept declared got => trivial

end Noted

section Accepted

variable {bytes : Bytes}

/-- An accepted record was read in full: no reservation exceeds what was there, and its counts
are the numbers of elements read unless that of a raw array wraps. -/
theorem decode_accepted {schemaOf : String → Option Schema} {r : WalRecord}
    (h : WalRecord.decode bytes schemaOf = .ok r) :
    (∀ d ∈ (Noted.record schemaOf).notes bytes, Noted.Fits d) ∧
    ((∀ d ∈ (Noted.record schemaOf).notes bytes, d.Met) ↔
      ∀ count size, .product count size ∈ (Noted.record schemaOf).notes bytes →
        count < usizeRange / size) := by
  obtain ⟨⟨a, rest⟩, hread, -⟩ := map_eq_ok.mp h
  rw [← Noted.run_record] at hread
  have hkept := Noted.kept_record schemaOf
  exact ⟨hkept _ _ _ hread, Noted.accepted_met_iff (Noted.sound_record schemaOf) hkept hread⟩

theorem decodeSnapshot_accepted {tables : List Table} {lsn : UInt64}
    (h : decodeSnapshot bytes = .ok (tables, lsn)) :
    (∀ d ∈ Noted.ofSnapshot bytes, Noted.Fits d) ∧
    ((∀ d ∈ Noted.ofSnapshot bytes, d.Met) ↔
      ∀ count size, .product count size ∈ Noted.ofSnapshot bytes → count < usizeRange / size) := by
  have hkept := Noted.kept_snapshot
  rcases decodeSnapshot_cases bytes with ⟨m, hdecode, -⟩ | ⟨hdecode, hnotes⟩
  · exact absurd (hdecode.symm.trans h) (bail_ne_ok _ _)
  rw [hdecode] at h
  obtain ⟨⟨a, rest⟩, hread, -⟩ := map_eq_ok.mp h
  rw [hnotes]
  exact ⟨hkept _ _ _ hread, Noted.accepted_met_iff Noted.sound_snapshot hkept hread⟩

end Accepted

end Veldb
