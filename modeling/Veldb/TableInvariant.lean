import Veldb.CatalogSteps

/-! Any sequence of inserts keeps a table aligned: each column has one entry for each
row, and the rows that are there keep their values. -/

namespace Veldb

theorem index_append_left {α : Type} {v : List α} {i : Nat} (h : i < v.length) (w : List α) :
    index (v ++ w) i = index v i := by
  unfold index
  rw [List.getElem?_append_left h]

namespace StrColumn

/-- The arenas that the functions of the column make. -/
inductive Built : StrColumn → Prop where
  | new : Built StrColumn.new
  | push {c : StrColumn} (s : String) (h : Built c) : Built (c.push s)
  | fromParts {buf : Bytes} {offsets : List UInt32} {c : StrColumn}
      (h : StrColumn.fromParts buf offsets = .ok c) : Built c

theorem fromParts_ok {buf : Bytes} {offsets : List UInt32} {c : StrColumn}
    (h : StrColumn.fromParts buf offsets = .ok c) :
    c = ⟨buf, offsets⟩ ∧ offsets.head? = some 0 ∧
      offsets.getLast? = some (UInt32.ofNat buf.length) ∧ offsets.IsChain (· ≤ ·) := by
  unfold StrColumn.fromParts at h
  split at h
  · cases h
  · next hends =>
    split at h
    · cases h
    · next hmono =>
      split at h
      · cases h
      · obtain ⟨h0, hlast⟩ := not_or.mp hends
        refine ⟨(Except.ok.inj h).symm, not_not.mp h0, not_not.mp hlast, ?_⟩
        refine List.isChain_iff_getElem.mpr (fun i hi => ?_)
        have hall := List.any_eq_false.mp (Bool.not_eq_true _ ▸ hmono)
        have hmem : (offsets[i], offsets[i + 1]) ∈ offsets.zip offsets.tail := by
          refine List.mem_iff_getElem.mpr ⟨i, ?_, ?_⟩
          · simp only [List.length_zip, List.length_tail]
            omega
          · simp [List.getElem_zip, List.getElem_tail]
        simpa [UInt32.not_lt] using hall _ hmem

theorem Built.solid {c : StrColumn} (h : c.Built) :
    c.offsets ≠ [] ∧ ∀ o ∈ c.offsets, o.toNat ≤ c.buf.length := by
  induction h with
  | new => exact ⟨by simp [StrColumn.new], by simp [StrColumn.new]⟩
  | @push c s _ ih =>
    refine ⟨by simp [StrColumn.push], fun o ho => ?_⟩
    simp only [StrColumn.push] at ho ⊢
    rcases List.mem_append.mp ho with ho | ho
    · have hle := ih.2 o ho
      rw [List.length_append]
      omega
    · rw [List.mem_singleton.mp ho]
      exact Nat.mod_le _ _
  | @fromParts buf offsets c h =>
    obtain ⟨rfl, h0, hlast, hmono⟩ := fromParts_ok h
    have hne : offsets ≠ [] := by
      rintro rfl
      cases h0
    refine ⟨hne, fun o ho => ?_⟩
    have hend : (UInt32.ofNat buf.length).toNat ≤ buf.length := Nat.mod_le _ _
    have hle := le_last_of_chain hmono hlast o ho
    exact (UInt32.le_iff_toNat_le.mp hle).trans hend

theorem Built.get_push {c : StrColumn} (h : c.Built) (s : String) {i : Nat} (hi : i < c.len) :
    (c.push s).get i = c.get i := by
  have hlen : i + 1 < c.offsets.length := by
    simp only [len] at hi
    omega
  have hbytes : (c.push s).getBytes i = c.getBytes i := by
    have hle := h.solid.2 _ (List.getElem_mem hlen)
    have hle' : c.offsets[i + 1].toNat ≤ (c.buf ++ utf8 s).length := by
      rw [List.length_append]
      omega
    simp only [getBytes, StrColumn.push, List.getElem?_append_left hlen,
      List.getElem?_append_left (Nat.lt_of_succ_lt hlen), List.getElem?_eq_getElem hlen,
      List.getElem?_eq_getElem (Nat.lt_of_succ_lt hlen), slice_append_left hle, hle, hle', and_true]
  rw [get, get, hbytes]

end StrColumn

namespace Column

def Solid : Column → Prop
  | .str c => c.Built
  | .vector dim _ => dim ≠ 0
  | _ => True

theorem solid_empty {ty : DataType} (h : ty ≠ .vector 0) : (empty ty).Solid := by
  cases ty with
  | vector dim => exact fun he => h (he ▸ rfl)
  | str => exact .new
  | _ => trivial

theorem get_append {dim : UInt64} {data x : List F32} {i : Nat}
    (h : (i + 1) * dim.toNat ≤ data.length) :
    (Column.vector dim (data ++ x)).get i = (Column.vector dim data).get i := by
  have hlong : (i + 1) * dim.toNat ≤ (data ++ x).length := by
    rw [List.length_append]
    omega
  simp only [get, hlong, h, if_true]
  rw [Nat.succ_mul] at h
  rw [List.drop_append_of_le_length (by omega), List.take_append_of_le_length]
  rw [List.length_drop]
  omega

theorem push_solid {c c' : Column} {v : Value} (h : c.push v = .ok c') (hs : c.Solid)
    (hv : v.Fits) : c'.len = c.len + 1 ∧ c'.Solid ∧ ∀ i < c.len, c'.get i = c.get i := by
  unfold push at h
  split at h
  case h_5 c s =>
    cases h
    have hl := List.length_pos_of_ne_nil hs.solid.1
    refine ⟨?_, hs.push s, fun i hi => ?_⟩
    · simp only [len, StrColumn.len, StrColumn.push, List.length_append, List.length_singleton]
      omega
    · simp only [get, hs.get_push s hi]
  case h_6 dim data x =>
    split at h
    · cases h
    · next hx =>
      cases h
      have hd : dim ≠ 0 := hs
      have hx' : x.length = dim.toNat := by
        have he : UInt64.ofNat x.length = dim := not_not.mp hx
        have hl : x.length < 2 ^ 64 := by
          have : x.length * 4 < 2 ^ 64 := hv
          omega
        rw [← he, UInt64.toNat_ofNat_of_lt' hl]
      have hp : 0 < dim.toNat := by
        refine Nat.pos_of_ne_zero (fun h0 => hd ?_)
        exact UInt64.toNat_inj.mp h0
      refine ⟨?_, hd, fun i hi => get_append ?_⟩
      · simp only [len, if_neg hd, List.length_append, hx', Nat.add_div_right _ hp]
      · simp only [len, if_neg hd] at hi
        exact (Nat.mul_le_mul_right _ hi).trans (Nat.div_mul_le_self _ _)
  all_goals cases h
  all_goals
    refine ⟨by simp [len], trivial, fun i hi => ?_⟩
    simp only [get, index_append_left hi]

end Column

namespace Table

/-- The tables that `new` and `from_columns` make. -/
def Made (t : Table) : Prop :=
  (∃ name schema, Table.new name schema = .ok t) ∨
    ∃ name schema columns, (∀ c, .str c ∈ columns → c.Built) ∧
      fromColumns name schema columns = .ok t

structure Aligned (t : Table) : Prop where
  typed : t.Typed
  full : ∀ c ∈ t.columns, c.len = t.nrows
  solid : ∀ c ∈ t.columns, c.Solid

/-- `t` is `t₀` with rows added behind the ones it had. -/
structure Extends (t₀ t : Table) : Prop where
  name : t.name = t₀.name
  schema : t.schema = t₀.schema
  values : ∀ (j : Nat) c₀ c, t₀.columns[j]? = some c₀ → t.columns[j]? = some c →
    ∀ i < t₀.nrows, c.get i = c₀.get i

theorem checkColumns_inv {nrows : Nat} {cs : List Column} {fs : List Field}
    (hl : cs.length = fs.length) (h : checkColumns nrows cs fs = .ok ()) :
    List.Forall₂ (fun c f => c.dataType = f.ty) cs fs ∧ ∀ c ∈ cs, c.len = nrows := by
  induction cs generalizing fs with
  | nil =>
    obtain rfl := List.length_eq_zero_iff.mp hl.symm
    exact ⟨.nil, by simp⟩
  | cons c cs ih =>
    cases fs with
    | nil => simp at hl
    | cons f fs =>
      unfold checkColumns at h
      split at h
      · cases h
      · next hty =>
        split at h
        · cases h
        · next hlen =>
          obtain ⟨htyped, hfull⟩ := ih (by simpa using hl) h
          exact ⟨.cons (not_not.mp hty) htyped, List.forall_mem_cons.mpr ⟨not_not.mp hlen, hfull⟩⟩

theorem fromColumns_ok {name : String} {schema : Schema} {columns : List Column} {t : Table}
    (h : fromColumns name schema columns = .ok t) :
    schema.validate = .ok () ∧ columns.length = schema.fields.length ∧
      checkColumns ((columns.head?.map Column.len).getD 0) columns schema.fields = .ok () ∧
      t = ⟨name, schema, columns, (columns.head?.map Column.len).getD 0⟩ := by
  unfold fromColumns at h
  cases hv : schema.validate with
  | error e => simp [hv, bind, Except.bind] at h
  | ok u =>
    by_cases hl : columns.length = schema.fields.length
    · cases hc : checkColumns ((columns.head?.map Column.len).getD 0) columns schema.fields with
      | error e => simp [hv, hl, hc, bind, Except.bind] at h
      | ok u =>
        simp only [hv, hl, hc, bind, Except.bind, pure, Except.pure, ne_eq, not_true, if_false,
          Except.ok.injEq] at h
        exact ⟨rfl, hl, rfl, h.symm⟩
    · simp [hv, hl, bind, Except.bind, bail] at h

theorem Made.aligned {t : Table} (h : t.Made) : t.Aligned := by
  rcases h with ⟨name, schema, hnew⟩ | ⟨name, schema, columns, hbuilt, hfrom⟩
  · obtain ⟨hv, rfl⟩ := new_ok hnew
    refine ⟨(new_shape hnew).typed, (new_shape hnew).full, fun c hc => ?_⟩
    obtain ⟨f, hf, rfl⟩ := List.mem_map.mp hc
    exact Column.solid_empty (Schema.validate_vector hv f hf)
  · obtain ⟨hv, hl, hcheck, rfl⟩ := fromColumns_ok hfrom
    obtain ⟨htyped, hfull⟩ := checkColumns_inv hl hcheck
    refine ⟨htyped, hfull, fun c hc => ?_⟩
    cases c with
    | str c => exact hbuilt c hc
    | vector dim data =>
      intro hd
      obtain ⟨j, hj, hget⟩ := List.mem_iff_getElem.mp hc
      have hty := htyped.get hj (hl ▸ hj)
      have hnot := Schema.validate_vector hv _ (List.getElem_mem (hl ▸ hj))
      simp only [List.get_eq_getElem, hget] at hty
      rw [← hty, hd] at hnot
      exact hnot rfl
    | _ => trivial

theorem pushed_at {cs cs' : List Column} {row : List Value} {j : Nat} {c' : Column}
    (hz : cs'.map Except.ok = List.zipWith Column.push cs row) (hc : cs'[j]? = some c') :
    ∃ c v, cs[j]? = some c ∧ row[j]? = some v ∧ c.push v = .ok c' := by
  have hj := congrArg (fun l => l[j]?) hz
  simp only [List.getElem?_map, hc, Option.map_some, List.getElem?_zipWith] at hj
  cases hcs : cs[j]? with
  | none => simp [hcs] at hj
  | some c =>
    cases hrow : row[j]? with
    | none => simp [hcs, hrow] at hj
    | some v =>
      simp only [hcs, hrow, Option.some.injEq] at hj
      exact ⟨c, v, rfl, rfl, hj.symm⟩

theorem Extends.refl (t : Table) : t.Extends t := by
  refine ⟨rfl, rfl, fun j c₀ c hc₀ hc i _ => ?_⟩
  rw [← Option.some.inj (hc₀.symm.trans hc)]

theorem Extends.trans {t₀ t₁ t₂ : Table} (h₁ : t₀.Extends t₁) (h₂ : t₁.Extends t₂)
    (hl : t₁.columns.length = t₂.columns.length) (hn : t₀.nrows ≤ t₁.nrows) : t₀.Extends t₂ := by
  refine ⟨h₂.name.trans h₁.name, h₂.schema.trans h₁.schema, fun j c₀ c₂ hc₀ hc₂ i hi => ?_⟩
  have hj : j < t₁.columns.length := hl ▸ (List.getElem?_eq_some_iff.mp hc₂).1
  have hc₁ := List.getElem?_eq_getElem hj
  rw [h₂.values j _ c₂ hc₁ hc₂ i (by omega)]
  exact h₁.values j c₀ _ hc₀ hc₁ i hi

/-- A row that is taken adds one entry to every column and leaves the others alone. -/
theorem Aligned.insert_ok {t t' : Table} {row : List Value} (h : t.Aligned)
    (hv : ∀ v ∈ row, v.Fits) (hi : t.insert row = (.ok (), t')) :
    t'.Aligned ∧ t.Extends t' ∧ t'.nrows = t.nrows + 1 := by
  have ha : t.schema.Accepts row := by
    by_contra hna
    obtain ⟨e, he⟩ := insert_rejected h.typed hna
    rw [hi] at he
    cases (Prod.mk.inj he).1
  obtain ⟨cs, hins, htyped, hz⟩ := insert_accepted h.typed ha
  obtain rfl := (Prod.mk.inj (hi.symm.trans hins)).2
  have hstep : ∀ (j : Nat) c', cs[j]? = some c' → ∃ c, t.columns[j]? = some c ∧
      c'.len = c.len + 1 ∧ c'.Solid ∧ ∀ i < c.len, c'.get i = c.get i := by
    intro j c' hc'
    obtain ⟨c, v, hc, hrow, hpush⟩ := pushed_at hz hc'
    have hsolid := h.solid c (List.mem_of_getElem? hc)
    exact ⟨c, hc, Column.push_solid hpush hsolid (hv v (List.mem_of_getElem? hrow))⟩
  refine ⟨⟨htyped, fun c' hc' => ?_, fun c' hc' => ?_⟩, ⟨rfl, rfl, ?_⟩, rfl⟩
  · obtain ⟨j, hj⟩ := List.mem_iff_getElem?.mp hc'
    obtain ⟨c, hc, hlen, -, -⟩ := hstep j c' hj
    rw [hlen, h.full c (List.mem_of_getElem? hc)]
  · obtain ⟨j, hj⟩ := List.mem_iff_getElem?.mp hc'
    obtain ⟨c, -, -, hsolid, -⟩ := hstep j c' hj
    exact hsolid
  · intro j c₀ c' hc₀ hc' i hi
    obtain ⟨c, hc, -, -, hget⟩ := hstep j c' hc'
    obtain rfl := Option.some.inj (hc₀.symm.trans hc)
    exact hget i (h.full c₀ (List.mem_of_getElem? hc₀) ▸ hi)

theorem Aligned.insert_error {t t' : Table} {row : List Value} {e : Fault} (h : t.Aligned)
    (hi : t.insert row = (.error e, t')) : t' = t := by
  by_cases ha : t.schema.Accepts row
  · obtain ⟨cs, hins, -, -⟩ := insert_accepted h.typed ha
    rw [hi] at hins
    cases (Prod.mk.inj hins).1
  · obtain ⟨e', hrej⟩ := insert_rejected h.typed ha
    exact (Prod.mk.inj (hi.symm.trans hrej)).2

theorem Aligned.pushRow_ok {t : Table} {row : List Value} (h : t.Aligned)
    (hl : row.length = t.columns.length) (hc : checkRow t.schema.fields row = .ok ()) :
    (pushRow t.columns row).1 = .ok () := by
  obtain ⟨cs, hcs, -, -⟩ := Table.pushRow_ok h.typed (checkRow_accepts (hl.trans h.typed.length_eq) hc)
  rw [hcs]

/-- Calls of `insert` one after another: how many went through, and the table. -/
def insertRun : Table → List (List Value) → Nat × Table
  | t, [] => (0, t)
  | t, row :: rows =>
    match t.insert row with
    | (.ok (), t') => ((insertRun t' rows).1 + 1, (insertRun t' rows).2)
    | (.error _, t') => insertRun t' rows

theorem Aligned.insertRun {t : Table} {rows : List (List Value)} (h : t.Aligned)
    (hv : ∀ row ∈ rows, ∀ v ∈ row, v.Fits) :
    (t.insertRun rows).2.Aligned ∧ t.Extends (t.insertRun rows).2 ∧
      (t.insertRun rows).2.nrows = t.nrows + (t.insertRun rows).1 := by
  induction rows generalizing t with
  | nil => exact ⟨h, Extends.refl t, rfl⟩
  | cons row rows ih =>
    obtain ⟨hrow, hrows⟩ := List.forall_mem_cons.mp hv
    rw [Table.insertRun]
    rcases hi : t.insert row with ⟨e | u, t'⟩
    · obtain rfl := h.insert_error hi
      exact ih h hrows
    · obtain ⟨h', hext, hn⟩ := h.insert_ok hrow hi
      obtain ⟨hal, hext', hn'⟩ := ih h' hrows
      have hl : t'.columns.length = (t'.insertRun rows).2.columns.length := by
        rw [h'.typed.length_eq, hal.typed.length_eq, hext'.schema]
      refine ⟨hal, hext.trans hext' hl (by omega), ?_⟩
      simp only
      omega

/-- In whatever state a sequence of inserts leaves a table, it is aligned and still holds
its first rows; a further insert that fails leaves no trace, and the pushes of one that
passed the checks do not fail. -/
theorem insertRun_invariant (t₀ : Table) (h₀ : t₀.Made) (rows : List (List Value))
    (hv : ∀ row ∈ rows, ∀ v ∈ row, v.Fits) :
    let t := (t₀.insertRun rows).2
    t.schema = t₀.schema ∧
      List.Forall₂ (fun c f => c.dataType = f.ty) t.columns t₀.schema.fields ∧
      (∀ c ∈ t.columns, c.len = t.nrows) ∧ t.nrows = t₀.nrows + (t₀.insertRun rows).1 ∧
      (∀ (j : Nat) c₀ c, t₀.columns[j]? = some c₀ → t.columns[j]? = some c →
        ∀ i < t₀.nrows, c.get i = c₀.get i) ∧
      ∀ row : List Value, (∀ v ∈ row, v.Fits) →
        (∀ e t', t.insert row = (.error e, t') → t' = t) ∧
        (row.length = t.columns.length → checkRow t.schema.fields row = .ok () →
          (pushRow t.columns row).1 = .ok ()) ∧
        ∀ t', t.insert row = (.ok (), t') → t'.nrows = t.nrows + 1 ∧
          ∀ (j : Nat) c c', t.columns[j]? = some c → t'.columns[j]? = some c' →
            ∀ i < t.nrows, c'.get i = c.get i := by
  intro t
  obtain ⟨hal, hext, hn⟩ := h₀.aligned.insertRun hv
  have htyped : t.Typed := hal.typed
  refine ⟨hext.schema, hext.schema ▸ htyped, hal.full, hn, hext.values, fun row hrow => ?_⟩
  refine ⟨fun e t' hi => hal.insert_error hi, hal.pushRow_ok, fun t' hi => ?_⟩
  obtain ⟨-, hext', hn'⟩ := hal.insert_ok hrow hi
  exact ⟨hn', hext'.values⟩

def pairTable : Table :=
  ⟨"t", ⟨[⟨"x", .f64⟩, ⟨"v", .vector 1⟩]⟩, [.f64 [], .vector 1 []], 0⟩

/-- The second row has a vector of the wrong length, the third an integer for a DOUBLE. -/
def pairRows : List (List Value) :=
  [[.f64 ⟨0⟩, .vector [⟨0⟩]], [.f64 ⟨0⟩, .vector []], [.i64 1, .vector [⟨1⟩]]]

theorem insertRun_invariant_pair :
    (pairTable.insertRun pairRows).1 = 2 ∧ (pairTable.insertRun pairRows).2.nrows = 2 ∧
      ∀ c ∈ (pairTable.insertRun pairRows).2.columns, c.len = 2 := by
  have hmade : pairTable.Made := .inl ⟨"t", pairTable.schema, by decide +kernel⟩
  have hrun : (pairTable.insertRun pairRows).1 = 2 := by decide +kernel
  have hfits : ∀ row ∈ pairRows, ∀ v ∈ row, v.Fits := by
    simp [pairRows, Value.Fits]
  obtain ⟨-, -, hfull, hn, -⟩ := insertRun_invariant pairTable hmade pairRows hfits
  rw [hrun] at hn
  exact ⟨hrun, hn, fun c hc => (hfull c hc).trans hn⟩

end Table

end Veldb
