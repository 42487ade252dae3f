import Veldb.GroupQueries
import Veldb.Relations

/-! A table as the rows that were put into it: which values a column holds, what it gives back of
them, and what inserts add to them. -/

namespace Veldb

open Attempts Arr

/-- The bytes of the texts among values. -/
def textsIn (vs : List Value) : Nat :=
  StrColumn.textBytes (vs.filterMap fun v => match v with
    | .str s => some s
    | _ => none)

/-- The column was filled with these values one after another. -/
inductive Column.Filled : Column → List Value → Prop where
  | i64 (v : List Int64) : Filled (.i64 v) (v.map .i64)
  | f64 (v : List F64) : Filled (.f64 v) (v.map .f64)
  | bool (v : List Bool) : Filled (.bool (v.map boolByte)) (v.map .bool)
  | str (v : List String) : Filled (.str (v.foldl StrColumn.push StrColumn.new)) (v.map .str)
  | vector (dim : UInt64) (v : List (List F32)) (h : ∀ x ∈ v, x.length = dim.toNat) :
      Filled (.vector dim v.flatten) (v.map .vector)

section Columns

variable {c c' : Column} {v : Value} {vs ws : List Value}

theorem filled_empty (ty : DataType) : (Column.empty ty).Filled [] := by
  cases ty with
  | i64 => exact .i64 []
  | f64 => exact .f64 []
  | bool => exact .bool []
  | str => exact .str []
  | vector dim => exact .vector dim [] (by simp)

theorem Column.Filled.push (h : c.Filled vs) (hp : c.push v = .ok c') (hv : v.Fits) :
    c'.Filled (vs ++ [v.stored c.dataType]) := by
  cases h with
  | i64 w =>
    cases v with
    | i64 x =>
      obtain rfl := Except.ok.inj hp
      simpa [Value.stored, Column.dataType] using Column.Filled.i64 (w ++ [x])
    | _ => cases hp
  | f64 w =>
    cases v with
    | i64 x =>
      obtain rfl := Except.ok.inj hp
      simpa [Value.stored, Column.dataType] using Column.Filled.f64 (w ++ [F64.ofI64 x])
    | f64 x =>
      obtain rfl := Except.ok.inj hp
      simpa [Value.stored, Column.dataType] using Column.Filled.f64 (w ++ [x])
    | _ => cases hp
  | bool w =>
    cases v with
    | bool x =>
      obtain rfl := Except.ok.inj hp
      simpa [Value.stored, boolByte] using Column.Filled.bool (w ++ [x])
    | _ => cases hp
  | str w =>
    cases v with
    | str x =>
      obtain rfl := Except.ok.inj hp
      simpa [Value.stored] using Column.Filled.str (w ++ [x])
    | _ => cases hp
  | vector dim w hw =>
    cases v with
    | vector x =>
      simp only [Column.push] at hp
      by_cases hdim : UInt64.ofNat x.length = dim
      · rw [if_neg (not_not.mpr hdim)] at hp
        obtain rfl := Except.ok.inj hp
        have hlen : x.length = dim.toNat := by
          have hbytes : x.length * 4 < 2 ^ 64 := hv
          have hshort : x.length < 2 ^ 64 := by omega
          rw [← hdim, UInt64.toNat_ofNat_of_lt' hshort]
        have hall : ∀ y ∈ w ++ [x], y.length = dim.toNat :=
          List.forall_mem_append.mpr ⟨hw, List.forall_mem_singleton.mpr hlen⟩
        simpa [Value.stored, Column.dataType] using Column.Filled.vector dim (w ++ [x]) hall
      · rw [if_pos hdim] at hp
        cases hp
    | _ => cases hp

/-- Values pushed one after another stand behind those that were there. -/
theorem Column.Filled.pushes (h : c.Filled vs) (hp : ws.foldlM Column.push c = .ok c')
    (hv : ∀ v ∈ ws, v.Fits) : c'.Filled (vs ++ ws.map (Value.stored c.dataType)) := by
  induction ws generalizing c vs with
  | nil =>
    obtain rfl := pure_eq_ok.mp hp
    simpa using h
  | cons v ws ih =>
    obtain ⟨hfit, hfits⟩ := List.forall_mem_cons.mp hv
    rw [List.foldlM_cons] at hp
    obtain ⟨c₁, hpush, hp⟩ := bind_eq_ok.mp hp
    have hrest := ih (h.push hpush hfit) hp hfits
    rw [Column.push_dataType hpush] at hrest
    simpa using hrest

theorem length_slots {α : Type} {d : Nat} {v : List (List α)} (h : ∀ x ∈ v, x.length = d) :
    v.flatten.length = v.length * d := by
  induction v with
  | nil => simp
  | cons x v ih =>
    obtain ⟨hx, hv⟩ := List.forall_mem_cons.mp h
    rw [List.flatten_cons, List.length_append, ih hv, hx, List.length_cons, Nat.succ_mul, Nat.add_comm]

theorem Column.Filled.len (h : c.Filled vs) (hs : c.dataType ≠ .vector 0) : c.len = vs.length := by
  cases h with
  | i64 v => exact (List.length_map _).symm
  | f64 v => exact (List.length_map _).symm
  | bool v => simp [Column.len]
  | str v => simp [Column.len, StrColumn.len_pushed]
  | vector dim v h =>
    have hdim : dim ≠ 0 := fun he => hs (he ▸ rfl)
    have hpos : 0 < dim.toNat := Nat.pos_of_ne_zero fun h0 => hdim (UInt64.toNat_inj.mp h0)
    rw [Column.len, if_neg hdim, length_slots h, List.length_map, Nat.mul_div_cancel _ hpos]

theorem Column.Filled.room (h : c.Filled vs) (extra : Nat) :
    c.room extra = (vs.length + extra) * c.dataType.width := by
  cases h with
  | i64 v => simp [Column.room, Column.dataType, DataType.width]
  | f64 v => simp [Column.room, Column.dataType, DataType.width]
  | bool v => simp [Column.room, Column.dataType, DataType.width]
  | str v => simp [Column.room, Column.dataType, DataType.width]
  | vector dim v h =>
    change (v.flatten.length + extra * dim.toNat) * 4 = ((v.map Value.vector).length + extra) *
      (dim.toNat * 4)
    rw [length_slots h, List.length_map, ← Nat.add_mul, Nat.mul_assoc]

theorem Column.Filled.bytesUsed (h : c.Filled vs) :
    c.bytesUsed = (vs.map Value.bytes).sum + if c.dataType = .str then 4 else 0 := by
  cases h with
  | i64 v => simp [Column.bytesUsed, Column.dataType, Value.bytes, Function.comp_def]
  | f64 v => simp [Column.bytesUsed, Column.dataType, Value.bytes, Function.comp_def]
  | bool v => simp [Column.bytesUsed, Column.dataType, Value.bytes, Function.comp_def]
  | str v =>
    have hsum : (v.map (fun s => (utf8 s).length + 4)).sum = StrColumn.textBytes v + v.length * 4 := by
      rw [List.sum_map_add]
      simp [StrColumn.textBytes]
    simp only [Column.bytesUsed, StrColumn.bytesUsed, StrColumn.buf_pushed, StrColumn.length_flatten_utf8,
      StrColumn.length_offsets_pushed, Column.dataType, if_true, List.map_map, Function.comp_def,
      Value.bytes, hsum]
    omega
  | vector dim v h =>
    have hsum : ((v.map Value.vector).map Value.bytes).sum = v.flatten.length * 4 := by
      clear h
      induction v with
      | nil => rfl
      | cons x v ih =>
        rw [List.map_cons, List.map_cons, List.sum_cons, ih, List.flatten_cons, List.length_append,
          Value.bytes, Nat.add_mul]
    have hty : (Column.vector dim v.flatten).dataType ≠ .str := by simp [Column.dataType]
    rw [hsum, if_neg hty]
    rfl

theorem slot_flatten {α : Type} {d : Nat} {v : List (List α)} (h : ∀ x ∈ v, x.length = d) {i : Nat}
    {x : List α} (hi : v[i]? = some x) :
    (i + 1) * d ≤ v.flatten.length ∧ (v.flatten.drop (i * d)).take d = x := by
  induction v generalizing i with
  | nil => cases hi
  | cons y v ih =>
    obtain ⟨hy, hv⟩ := List.forall_mem_cons.mp h
    rw [List.flatten_cons, List.length_append, hy]
    cases i with
    | zero =>
      obtain rfl := Option.some.inj hi
      rw [Nat.zero_mul, List.drop_zero, List.take_left' hy]
      exact ⟨by omega, rfl⟩
    | succ i =>
      obtain ⟨hle, heq⟩ := ih hv hi
      have hnext : (i + 1) * d = y.length + i * d := by rw [Nat.succ_mul, hy, Nat.add_comm]
      refine ⟨?_, ?_⟩
      · rw [Nat.succ_mul (i + 1) d]
        omega
      · rw [hnext, ← List.drop_drop, List.drop_left]
        exact heq

/-- A column gives back what it was filled with while its texts fit the arena. -/
theorem Column.Filled.get (h : c.Filled vs) (hfit : textsIn vs < 2 ^ 32) {i : Nat}
    (hi : vs[i]? = some v) : c.get i = .ok v := by
  cases h with
  | i64 w =>
    rw [List.getElem?_map] at hi
    obtain ⟨x, hx, rfl⟩ := Option.map_eq_some_iff.mp hi
    exact bind_pure_eq_ok.mpr ⟨x, index_eq_ok.mpr hx, rfl⟩
  | f64 w =>
    rw [List.getElem?_map] at hi
    obtain ⟨x, hx, rfl⟩ := Option.map_eq_some_iff.mp hi
    exact bind_pure_eq_ok.mpr ⟨x, index_eq_ok.mpr hx, rfl⟩
  | bool w =>
    rw [List.getElem?_map] at hi
    obtain ⟨x, hx, rfl⟩ := Option.map_eq_some_iff.mp hi
    refine bind_pure_eq_ok.mpr ⟨boolByte x, index_eq_ok.mpr (by rw [List.getElem?_map, hx]; rfl), ?_⟩
    cases x <;> rfl
  | str w =>
    rw [List.getElem?_map] at hi
    obtain ⟨x, hx, rfl⟩ := Option.map_eq_some_iff.mp hi
    have hshort : StrColumn.textBytes w < 2 ^ 32 := by
      simpa [textsIn, List.filterMap_map, Function.comp_def] using hfit
    exact bind_pure_eq_ok.mpr ⟨x, (StrColumn.get_pushed_iff w).mpr hshort i x hx, rfl⟩
  | vector dim w hw =>
    rw [List.getElem?_map] at hi
    obtain ⟨x, hx, rfl⟩ := Option.map_eq_some_iff.mp hi
    obtain ⟨hle, heq⟩ := slot_flatten hw hx
    simp only [Column.get]
    rw [if_pos hle, heq]

theorem Column.Filled.holds (h : c.Filled vs) (hfit : textsIn vs < 2 ^ 32) {i : Nat}
    (hi : vs[i]? = some v) (hty : v.typeOf = c.dataType) : c.Holds i v := by
  refine holds_of_get hty (fun w hw b hb => ?_) (h.get hfit hi)
  cases h with
  | bool w' =>
    obtain rfl := Column.bool.inj hw
    obtain ⟨x, -, rfl⟩ := List.mem_map.mp hb
    cases x
    · exact .inl rfl
    · exact .inr rfl
  | _ => cases hw

end Columns

namespace Relation

/-- The values of one column. -/
def column (r : Relation) (j : Nat) : List Value :=
  r.rows.filterMap (fun row => row[j]?)

/-- The texts of every column stay below what an arena can address. -/
def TextsFit (r : Relation) : Prop :=
  ∀ j, textsIn (r.column j) < 2 ^ 32

end Relation

theorem textsFit_of_types {r : Relation} (h : DataType.str ∉ r.schema.types) : r.TextsFit := by
  intro j
  unfold textsIn
  rw [List.filterMap_eq_nil_iff.mpr]
  · decide
  · intro v hv
    obtain ⟨row, hrow, hget⟩ := List.mem_filterMap.mp hv
    cases v with
    | str s =>
      refine absurd ?_ h
      rw [← r.typed row hrow]
      exact List.mem_map.mpr ⟨_, List.mem_of_getElem? hget, rfl⟩
    | _ => rfl

/-- The table holds the rows of the relation. -/
structure Table.Represents (t : Table) (r : Relation) : Prop where
  name : t.name = r.name
  schema : t.schema = r.schema
  nrows : t.nrows = r.rows.length
  typed : t.Typed
  filled : ∀ (j : Nat) c, t.columns[j]? = some c → c.Filled (r.column j)

section Tables

variable {t t' : Table} {r : Relation} {rows : List (List Value)}

theorem represents_new {name : String} {schema : Schema} (h : schema.validate = .ok ()) :
    ∃ t, Table.new name schema = .ok t ∧ t.Represents (Relation.new name schema h) := by
  have hnew : Table.new name schema =
      .ok ⟨name, schema, schema.fields.map (fun f => Column.empty f.ty), 0⟩ := by
    rw [Table.new, h]
    rfl
  refine ⟨_, hnew, rfl, rfl, rfl, (Table.new_shape hnew).typed, fun j c hc => ?_⟩
  rw [List.getElem?_map] at hc
  obtain ⟨f, -, rfl⟩ := Option.map_eq_some_iff.mp hc
  exact filled_empty f.ty

/-- A row of the relation has an entry for every column. -/
theorem entry_exists (hr : t.Represents r) {row : List Value} (hrow : row ∈ r.rows) {j : Nat} {c : Column}
    (hc : t.columns[j]? = some c) : ∃ v, row[j]? = some v ∧ v.typeOf = c.dataType := by
  obtain ⟨hj, rfl⟩ := List.getElem?_eq_some_iff.mp hc
  have htypes := r.typed row hrow
  have hjf : j < t.schema.fields.length := hr.typed.length_eq ▸ hj
  have hty : t.columns[j].dataType = t.schema.fields[j].ty := hr.typed.get hj hjf
  have hjr : j < row.length := by
    have hlen := congrArg List.length htypes
    rw [List.length_map, Schema.types, List.length_map, ← hr.schema] at hlen
    omega
  refine ⟨row[j], List.getElem?_eq_getElem hjr, ?_⟩
  have hget := congrArg (fun l => l[j]?) htypes
  simp only [Schema.types, ← hr.schema, List.getElem?_map, List.getElem?_eq_getElem hjr,
    List.getElem?_eq_getElem hjf, Option.map_some, Option.some.injEq] at hget
  rw [hget, hty]

theorem column_entry (hr : t.Represents r) {i j : Nat} {row : List Value} {c : Column}
    (hi : r.rows[i]? = some row) (hc : t.columns[j]? = some c) :
    ∃ v, row[j]? = some v ∧ v.typeOf = c.dataType ∧ (r.column j)[i]? = some v := by
  obtain ⟨v, hv, hty⟩ := entry_exists hr (List.mem_of_getElem? hi) hc
  refine ⟨v, hv, hty, ?_⟩
  have hall : r.column j = r.rows.map (fun row => row[j]?.getD v) := by
    rw [Relation.column, ← List.filterMap_eq_map]
    refine List.filterMap_congr fun row' hrow' => ?_
    obtain ⟨v', hv', -⟩ := entry_exists hr hrow' hc
    simp [hv']
  rw [hall, List.getElem?_map, hi, Option.map_some, hv, Option.getD_some]

theorem column_length (hr : t.Represents r) {j : Nat} {c : Column} (hc : t.columns[j]? = some c) :
    (r.column j).length = t.nrows := by
  rw [hr.nrows, Relation.column, List.length_filterMap_eq_countP, List.countP_eq_length]
  intro row hrow
  obtain ⟨v, hv, -⟩ := entry_exists hr hrow hc
  simp [hv]

theorem represents_full (hr : t.Represents r) : ∀ c ∈ t.columns, c.len = t.nrows := by
  intro c hc
  obtain ⟨j, hj⟩ := List.mem_iff_getElem?.mp hc
  rw [(hr.filled j c hj).len, column_length hr hj]
  obtain ⟨hlt, rfl⟩ := List.getElem?_eq_some_iff.mp hj
  have hjf : j < t.schema.fields.length := hr.typed.length_eq ▸ hlt
  have hty : t.columns[j].dataType = t.schema.fields[j].ty := hr.typed.get hlt hjf
  rw [hty]
  exact Schema.validate_vector r.valid _ (hr.schema ▸ List.getElem_mem hjf)

/-- The rows read back as they were stored while the texts fit. -/
theorem represents_holds (hr : t.Represents r) (hfit : r.TextsFit) :
    (sourceFrame (some t)).HoldsRows r.rows := by
  intro i row hi
  have htypes := congrArg List.length (r.typed row (List.mem_of_getElem? hi))
  rw [List.length_map, Schema.types, List.length_map, ← hr.schema, ← hr.typed.length_eq] at htypes
  refine List.forall₂_iff_get.mpr ⟨htypes.symm, fun j hj hj' => ?_⟩
  have hc : t.columns[j]? = some t.columns[j] := List.getElem?_eq_getElem hj
  obtain ⟨v, hv, hty, hentry⟩ := column_entry hr hi hc
  obtain ⟨_, rfl⟩ := List.getElem?_eq_some_iff.mp hv
  exact (hr.filled j _ hc).holds (hfit j) hentry hty

theorem column_append (hr : t.Represents r) (ha : ∀ row ∈ rows, r.schema.Accepts row) {j : Nat}
    {c : Column} (hc : t.columns[j]? = some c) :
    (r.append rows ha).column j =
      r.column j ++ (rows.filterMap (fun row => row[j]?)).map (Value.stored c.dataType) := by
  obtain ⟨hj, rfl⟩ := List.getElem?_eq_some_iff.mp hc
  have hjf : j < t.schema.fields.length := hr.typed.length_eq ▸ hj
  have hty : t.columns[j].dataType = t.schema.fields[j].ty := hr.typed.get hj hjf
  have hfield : r.schema.types[j]? = some t.columns[j].dataType := by
    rw [Schema.types, ← hr.schema, List.getElem?_map, List.getElem?_eq_getElem hjf, hty]
    rfl
  rw [Relation.column, Relation.append, List.filterMap_append, Relation.column, List.filterMap_map,
    List.map_filterMap]
  congr 1
  refine List.filterMap_congr fun row _ => ?_
  rw [Function.comp_apply, Schema.stored, List.getElem?_zipWith, hfield]
  cases row[j]? <;> rfl

theorem pushes_dataType {c c' : Column} {vs : List Value} (h : vs.foldlM Column.push c = .ok c') :
    c'.dataType = c.dataType :=
  foldlM_invariant (I := fun d : Column => d.dataType = c.dataType)
    (fun _ _ _ hp hd => (Column.push_dataType hp).trans hd) h rfl

theorem appends_typed (ht : t.Typed) (h : t.Appends rows t') : t'.Typed := by
  refine List.forall₂_iff_get.mpr ⟨?_, fun j hj hj' => ?_⟩
  · rw [h.columns, h.schema, ht.length_eq]
  · have hjt : j < t.columns.length := h.columns ▸ hj
    have hjf : j < t.schema.fields.length := ht.length_eq ▸ hjt
    have hty : t.columns[j].dataType = t.schema.fields[j].ty := ht.get hjt hjf
    have hpush := h.values j _ _ (List.getElem?_eq_getElem hjt) (List.getElem?_eq_getElem hj)
    simp only [List.get_eq_getElem, h.schema, pushes_dataType hpush, hty]

theorem represents_append (hr : t.Represents r) (h : t.Appends rows t')
    (ha : ∀ row ∈ rows, r.schema.Accepts row) (hfits : ∀ row ∈ rows, ∀ v ∈ row, v.Fits) :
    t'.Represents (r.append rows ha) := by
  refine ⟨h.name.trans hr.name, h.schema.trans hr.schema, ?_, appends_typed hr.typed h,
    fun j c' hc' => ?_⟩
  · rw [h.nrows, hr.nrows, Relation.append, List.length_append, List.length_map]
  · have hj : j < t.columns.length := h.columns ▸ (List.getElem?_eq_some_iff.mp hc').1
    have hc := List.getElem?_eq_getElem hj
    rw [column_append hr ha hc]
    refine (hr.filled j _ hc).pushes (h.values j _ c' hc hc') fun v hv => ?_
    obtain ⟨row, hrow, hget⟩ := List.mem_filterMap.mp hv
    exact hfits row hrow v (List.mem_of_getElem? hget)

theorem taken_all (h : ∀ row ∈ rows, r.schema.Accepts row) : r.taken rows = rows :=
  List.takeWhile_eq_self_iff.mpr fun row hrow => by simpa using h row hrow

theorem taken_split {good : List (List Value)} {bad : List Value} (rest : List (List Value))
    (hg : ∀ row ∈ good, r.schema.Accepts row) (hb : ¬ r.schema.Accepts bad) :
    r.taken (good ++ bad :: rest) = good := by
  have hall : ∀ row ∈ good, decide (r.schema.Accepts row) = true := fun row hrow => by
    simpa using hg row hrow
  rw [Relation.taken, List.takeWhile_append_of_pos hall, List.takeWhile_cons_of_neg (by simpa using hb),
    List.append_nil]

theorem represents_reserves (hr : t.Represents r) {extra : Nat} (h : r.Reserves extra) :
    t.Reserves extra := by
  intro c hc
  obtain ⟨j, hj⟩ := List.getElem?_of_mem hc
  obtain ⟨hlt, rfl⟩ := List.getElem?_eq_some_iff.mp hj
  have hjf : j < t.schema.fields.length := hr.typed.length_eq ▸ hlt
  have hty : t.columns[j].dataType = t.schema.fields[j].ty := hr.typed.get hlt hjf
  have hmem : t.columns[j].dataType ∈ r.schema.types := by
    rw [hty, Schema.types, ← hr.schema]
    exact List.mem_map_of_mem (List.getElem_mem hjf)
  have hroom := h _ hmem
  rwa [← hr.nrows, ← column_length hr hj, ← (hr.filled j _ hj).room extra] at hroom

/-- A batch adds to the table the rows that the relation takes of it. -/
theorem represents_insertMany (hr : t.Represents r) (hfits : ∀ row ∈ rows, ∀ v ∈ row, v.Fits)
    (hroom : t.Reserves rows.length) :
    (t.insertMany rows).2.Represents (r.insert rows) ∧
      if ∀ row ∈ rows, r.schema.Accepts row then (t.insertMany rows).1 = .ok rows.length
      else ∃ e, (t.insertMany rows).1 = .error e := by
  have hinsert : ∀ {taken : List (List Value)} (ha : ∀ row ∈ taken, r.schema.Accepts row),
      r.taken rows = taken → r.insert rows = r.append taken ha := by
    rintro _ ha rfl
    rfl
  rcases t.schema.accepts_or_split rows with hall | ⟨good, bad, rest, rfl, hg, hb⟩
  · obtain ⟨t', hi, -, happ⟩ := Table.insertMany_accepted hr.typed hall hroom
    have hall' : ∀ row ∈ rows, r.schema.Accepts row := hr.schema ▸ hall
    rw [hi, if_pos hall', hinsert hall' (taken_all hall')]
    exact ⟨represents_append hr happ hall' hfits, rfl⟩
  · obtain ⟨m, t', hi, happ⟩ := Table.insertMany_rejected hr.typed hg hb hroom
    have hg' : ∀ row ∈ good, r.schema.Accepts row := hr.schema ▸ hg
    have hb' : ¬ r.schema.Accepts bad := hr.schema ▸ hb
    rw [hi, if_neg fun hall => hb' (hall bad (by simp)), hinsert hg' (taken_split rest hg' hb')]
    exact ⟨represents_append hr happ hg' fun row hrow => hfits row (by simp [hrow]), .bail m, rfl⟩

section Memory

variable {b : Value → Nat} {n : Nat}

theorem range_entries (row : List Value) :
    ((List.range row.length).map (fun j => ((row[j]?).map b).getD 0)).sum = (row.map b).sum := by
  congr 1
  refine List.ext_getElem (by simp) fun j hj hj' => ?_
  have hlt : j < row.length := by simpa using hj
  simp [hlt]

/-- The sum by columns is the sum by rows. -/
theorem sum_columns (hlen : ∀ row ∈ rows, row.length = n) :
    ((List.range n).map (fun j => ((rows.filterMap (fun row => row[j]?)).map b).sum)).sum =
      (rows.map (fun row => (row.map b).sum)).sum := by
  induction rows with
  | nil => simp
  | cons row rows ih =>
    obtain ⟨hrow, hrows⟩ := List.forall_mem_cons.mp hlen
    have hsplit : ∀ j : Nat, ((List.filterMap (fun row => row[j]?) (row :: rows)).map b).sum =
        ((row[j]?).map b).getD 0 + ((rows.filterMap (fun row => row[j]?)).map b).sum := by
      intro j
      rw [List.filterMap_cons]
      cases row[j]? with
      | none => simp
      | some v => simp
    rw [List.map_congr_left fun j _ => hsplit j, List.sum_map_add, ih hrows, ← hrow, range_entries,
      List.map_cons, List.sum_cons]

theorem sum_texts (types : List DataType) :
    (types.map (fun ty => if ty = .str then 4 else 0)).sum = 4 * types.count .str := by
  induction types with
  | nil => rfl
  | cons ty types ih =>
    rw [List.map_cons, List.sum_cons, ih, List.count_cons]
    by_cases hty : ty = .str <;> simp [hty, Nat.mul_add, Nat.add_comm]

/-- The memory of a table, counted over its rows. -/
theorem represents_bytesUsed (hr : t.Represents r) : t.bytesUsed = r.bytesUsed := by
  have htypes : t.columns.map Column.dataType = r.schema.types := by
    rw [← hr.schema]
    exact List.forall₂_eq_eq_eq ▸
      List.forall₂_map_left_iff.mpr (List.forall₂_map_right_iff.mpr hr.typed)
  have hlen : ∀ row ∈ r.rows, row.length = t.columns.length := by
    intro row hrow
    have hl := congrArg List.length (r.typed row hrow)
    rwa [← htypes, List.length_map, List.length_map] at hl
  have hcols : t.columns.map Column.bytesUsed =
      (List.range t.columns.length).map (fun j => ((r.column j).map Value.bytes).sum +
        if r.schema.types[j]? = some .str then 4 else 0) := by
    refine List.ext_getElem (by simp) fun j hj hj' => ?_
    have hlt : j < t.columns.length := by simpa using hj
    have hty : r.schema.types[j]? = some t.columns[j].dataType := by
      rw [← htypes, List.getElem?_map, List.getElem?_eq_getElem hlt]
      rfl
    simp [hty, (hr.filled j _ (List.getElem?_eq_getElem hlt)).bytesUsed]
  have htexts : ((List.range t.columns.length).map (fun j =>
      if r.schema.types[j]? = some .str then 4 else 0)).sum = 4 * r.schema.types.count .str := by
    rw [← sum_texts]
    congr 1
    refine List.ext_getElem (by simp [← htypes]) fun j hj hj' => ?_
    have hlt : j < r.schema.types.length := by simpa using hj'
    simp [hlt]
  rw [Table.bytesUsed, hcols, List.sum_map_add, htexts, Relation.bytesUsed]
  exact congrArg (· + _) (sum_columns hlen)

end Memory

end Tables

end Veldb
