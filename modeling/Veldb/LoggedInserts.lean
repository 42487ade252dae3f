import Veldb.LogRecords

/-! Which inserts the log replays to the columns it recorded. -/

namespace Veldb

open Reads

namespace Value

/-- What a DOUBLE column stores for a value. -/
def asF64 : Value → Option F64
  | .f64 x => some x
  | .i64 x => some (F64.ofI64 x)
  | _ => none

theorem foldlM_push_f64 {vs : List Value} {c : List F64} {c' : Column}
    (h : vs.foldlM Column.push (.f64 c) = .ok c') :
    ∃ xs, c' = .f64 (c ++ xs) ∧ vs.map asF64 = xs.map some := by
  induction vs generalizing c with
  | nil =>
    cases h
    exact ⟨[], by simp, rfl⟩
  | cons v vs ih =>
    have hpush : ∀ x : F64, Column.push (.f64 c) v = .ok (.f64 (c ++ [x])) → v.asF64 = some x →
        ∃ xs, c' = .f64 (c ++ xs) ∧ (v :: vs).map asF64 = xs.map some := by
      intro x hp hx
      rw [List.foldlM_cons, hp] at h
      obtain ⟨xs, hc, hxs⟩ := ih h
      exact ⟨x :: xs, by rw [hc]; simp, by simp [hx, hxs]⟩
    cases v with
    | f64 x => exact hpush x rfl rfl
    | i64 x => exact hpush _ rfl rfl
    | _ => cases h

theorem keeps_of_asF64 {v : Value} (h : (v.readBack .f64).asF64 = v.asF64) : v.Keeps .f64 := by
  cases v with
  | i64 x => exact (Option.some.inj h).symm
  | _ => trivial

end Value

namespace Table

theorem getElem?_readBack {s : Schema} {row : List Value} {j : Nat} {f : Field}
    (hf : s.fields[j]? = some f) : (s.readBack row)[j]? = row[j]?.map (Value.readBack f.ty) := by
  rw [Schema.readBack, List.getElem?_zipWith, hf]
  cases row[j]? <;> rfl

/-- Equal columns after the decoded rows mean that no value of a row was altered. -/
theorem keeps_of_columns {t t' u : Table} {rows : List (List Value)} (ht : t.Typed)
    (ha : ∀ r ∈ rows, t.schema.Accepts r) (h : t.Appends rows t')
    (hu : t.Appends (rows.map t.schema.readBack) u) (he : u.columns = t'.columns) :
    ∀ r ∈ rows, t.schema.Keeps r := by
  intro r hr
  refine List.forall₂_iff_get.mpr ⟨(ha r hr).length_eq, fun j hj hjr => ?_⟩
  have hjc : j < t.columns.length := ht.length_eq ▸ hj
  have hjc' : j < t'.columns.length := h.columns ▸ hjc
  have hc := List.getElem?_eq_getElem hjc
  have hc' := List.getElem?_eq_getElem hjc'
  have hfield := List.getElem?_eq_getElem hj
  have hty : t.columns[j].dataType = t.schema.fields[j].ty := ht.get hjc hj
  have hmem : r[j] ∈ rows.filterMap (fun r => r[j]?) :=
    List.mem_filterMap.mpr ⟨r, hr, List.getElem?_eq_getElem hjr⟩
  have hback : (rows.map t.schema.readBack).filterMap (fun r => r[j]?) =
      (rows.filterMap (fun r => r[j]?)).map (Value.readBack t.schema.fields[j].ty) := by
    rw [List.filterMap_map, List.map_filterMap]
    exact List.filterMap_congr (fun r _ => getElem?_readBack hfield)
  have hpush := h.values j _ _ hc hc'
  have hpush' := hu.values j _ _ hc ((congrArg (fun cs => cs[j]?) he).trans hc')
  rw [hback] at hpush'
  simp only [List.get_eq_getElem]
  revert hty hpush hpush'
  generalize t.columns[j] = c
  generalize t.schema.fields[j].ty = ty
  generalize t'.columns[j] = c'
  intro hty hpush hpush'
  by_cases hd : ty = .f64
  · subst hd
    cases c with
    | f64 c =>
      obtain ⟨xs, hxs, hmap⟩ := Value.foldlM_push_f64 hpush
      obtain ⟨ys, hys, hmap'⟩ := Value.foldlM_push_f64 hpush'
      have heq : xs = ys := List.append_cancel_left (Column.f64.inj (hxs.symm.trans hys))
      rw [← heq, ← hmap, List.map_map] at hmap'
      exact Value.keeps_of_asF64 (List.map_inj_left.mp hmap' _ hmem)
    | _ => cases hty
  · cases ty with
    | f64 => exact absurd rfl hd
    | _ => trivial

/-- The insert of `rows`, written to the log under the schema of `t`, gives `t` the columns that
the insert itself gave it. -/
def Replays (t : Table) (name : String) (rows : List (List Value))
    (schemaOf : String → Option Schema) : Prop :=
  ∃ bytes decoded, (WalRecord.insert name rows).encode schemaOf = .ok bytes ∧
    WalRecord.decode bytes schemaOf = .ok (.insert name decoded) ∧
    (t.insertMany decoded).1 = (t.insertMany rows).1 ∧
    (t.insertMany decoded).2.columns = (t.insertMany rows).2.columns

theorem insert_replays_iff {t t' : Table} {name : String} {rows : List (List Value)}
    {schemaOf : String → Option Schema} {n : Nat} (ht : t.Typed)
    (hs : schemaOf name = some t.schema) (hm : (WalRecord.insert name rows).InMemory)
    (hi : t.insertMany rows = (.ok n, t')) :
    t.Replays name rows schemaOf ↔ ∀ r ∈ rows, t.schema.Keeps r := by
  have ha := accepts_of_insertMany ht hi
  have hroom := reserves_of_insertMany hi
  have henc : (WalRecord.insert name rows).encode schemaOf =
      .ok (WalRecord.insert name rows).payload :=
    WalRecord.encode_insert hs (fun r hr => (ha r hr).length_eq.symm)
  have hdec := WalRecord.decode_insert hs hm ha
  constructor
  · intro ⟨bytes, decoded, he, hd, _, hcols⟩
    obtain rfl := Except.ok.inj (henc.symm.trans he)
    obtain ⟨-, rfl⟩ := WalRecord.insert.inj (Except.ok.inj (hdec.symm.trans hd))
    obtain ⟨t₁, h₁, -, happ⟩ := insertMany_accepted ht ha hroom
    have hback : ∀ r ∈ rows.map t.schema.readBack, t.schema.Accepts r := by
      simpa using fun r hr => accepts_readBack (ha r hr)
    obtain ⟨t₂, h₂, -, happ'⟩ := insertMany_accepted ht hback (by rwa [List.length_map])
    rw [h₁, h₂] at hcols
    exact keeps_of_columns ht ha happ happ' hcols
  · intro hk
    refine ⟨_, _, henc, hdec, ?_⟩
    rw [insertMany_readBack ht ha hk]
    exact ⟨rfl, rfl⟩

/-- The log gives back every schema change as it was, and an insert exactly when no integer
was given for a DOUBLE column whose bits it does not share. -/
theorem logged_replays_iff (schemaOf : String → Option Schema) :
    (∀ name schema, (WalRecord.createTable name schema).InMemory →
      ∃ bytes, (WalRecord.createTable name schema).encode schemaOf = .ok bytes ∧
        WalRecord.decode bytes schemaOf = .ok (.createTable name schema)) ∧
    (∀ name, (WalRecord.dropTable name).InMemory →
      ∃ bytes, (WalRecord.dropTable name).encode schemaOf = .ok bytes ∧
        WalRecord.decode bytes schemaOf = .ok (.dropTable name)) ∧
    ∀ (t t' : Table) (name : String) (rows : List (List Value)) (n : Nat), t.Typed →
      schemaOf name = some t.schema → (WalRecord.insert name rows).InMemory →
      t.insertMany rows = (.ok n, t') →
      (t.Replays name rows schemaOf ↔ ∀ r ∈ rows, t.schema.Keeps r) := by
  refine ⟨fun name schema h => ⟨_, rfl, ?_⟩, fun name h => ⟨_, rfl, ?_⟩, ?_⟩
  · exact WalRecord.decode_createTable h schemaOf
  · exact WalRecord.decode_dropTable h schemaOf
  · intro t t' name rows n ht hs hm hi
    exact insert_replays_iff ht hs hm hi

def doubleTable : Table :=
  ⟨"t", ⟨[⟨"x", .f64⟩]⟩, [.f64 []], 0⟩

/-- The integer 1 returns from the log as the smallest subnormal. -/
theorem int_for_double_altered :
    doubleTable.Typed ∧ (WalRecord.insert "t" [[.i64 1]]).InMemory ∧
      (doubleTable.insertMany [[.i64 1]]).1 = .ok 1 ∧
      ¬doubleTable.Replays "t" [[.i64 1]] (fun _ => some doubleTable.schema) := by
  have ht : doubleTable.Typed := by
    simp [Typed, doubleTable, Column.dataType]
  have hm : (WalRecord.insert "t" [[.i64 1]]).InMemory := by
    refine ⟨by decide +kernel, by decide, ?_⟩
    simp [Value.Fits]
  have hi : (doubleTable.insertMany [[.i64 1]]).1 = .ok 1 := by decide +kernel
  refine ⟨ht, hm, hi, fun hr => ?_⟩
  have hk := (insert_replays_iff ht rfl hm (Prod.ext hi rfl)).mp hr
  exact absurd hk (by decide +kernel)

theorem logged_replays_iff_whole :
    doubleTable.Replays "t" [[.f64 ⟨0⟩], [.i64 0]] (fun _ => some doubleTable.schema) := by
  have hm : (WalRecord.insert "t" [[.f64 ⟨0⟩], [.i64 0]]).InMemory := by
    refine ⟨by decide +kernel, by decide, ?_⟩
    simp [Value.Fits]
  have hi : (doubleTable.insertMany [[.f64 ⟨0⟩], [.i64 0]]).1 = .ok 2 := by decide +kernel
  refine ((logged_replays_iff (fun _ => some doubleTable.schema)).2.2 doubleTable _ "t" _ 2 ?_ rfl hm
    (Prod.ext hi rfl)).mpr (by decide +kernel)
  simp [Typed, doubleTable, Column.dataType]

end Table

end Veldb
