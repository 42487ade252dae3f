import Veldb.Crashes
import Veldb.DroppedClauses
import Veldb.Library.Rearranging
import Veldb.Statements

/-! INSERT with a list of columns: the list is accepted when it is a permutation of the columns,
and the rows are then those that were written in the order of the schema. -/

namespace Veldb

open Attempts Rearranging

def Schema.keys (s : Schema) : List String :=
  s.fields.map (fun f => toAsciiLowercase f.name)

/-- The names are the columns in some order, without regard to ASCII case. -/
def NamesColumns (schema : Schema) (names : List String) : Prop :=
  (names.map toAsciiLowercase).Perm schema.keys

/-- Every column of the schema has the value that stands under its name. -/
def InSchemaOrder {α : Type} (schema : Schema) (names : List String) (row row' : List α) : Prop :=
  Rearranged (names.map toAsciiLowercase) schema.keys row row'

section Names

variable {schema : Schema} {names done : List String} {n : String}

theorem eqIgnoreAsciiCase_iff {a b : String} :
    eqIgnoreAsciiCase a b = true ↔ toAsciiLowercase a = toAsciiLowercase b := by
  rw [toAsciiLowercase, toAsciiLowercase, String.ofList_inj]
  exact beq_iff_eq

theorem indexOf_eq (schema : Schema) (n : String) :
    schema.indexOf n =
      if toAsciiLowercase n ∈ schema.keys then some (schema.keys.idxOf (toAsciiLowercase n))
      else none := by
  unfold Schema.indexOf Schema.keys
  induction schema.fields with
  | nil => rfl
  | cons f fs ih =>
    rw [List.findIdx?_cons, List.map_cons]
    by_cases hf : eqIgnoreAsciiCase f.name n = true
    · have hkey := eqIgnoreAsciiCase_iff.mp hf
      rw [if_pos hf, hkey, if_pos List.mem_cons_self, List.idxOf_cons_self]
    · have hkey : toAsciiLowercase f.name ≠ toAsciiLowercase n :=
        fun he => hf (eqIgnoreAsciiCase_iff.mpr he)
      rw [if_neg hf, ih, List.idxOf_cons_ne _ hkey]
      by_cases hmem : toAsciiLowercase n ∈ fs.map (fun f => toAsciiLowercase f.name)
      · rw [if_pos hmem, if_pos (List.mem_cons_of_mem _ hmem)]
        rfl
      · rw [if_neg hmem, if_neg (by simp [hmem, hkey.symm])]
        rfl

theorem validateFrom_nodup {seen fs : List Field} (h : Schema.validateFrom seen fs = .ok ())
    (hseen : (seen.map (fun f => toAsciiLowercase f.name)).Nodup) :
    ((seen ++ fs).map (fun f => toAsciiLowercase f.name)).Nodup := by
  induction fs generalizing seen with
  | nil => rwa [List.append_nil]
  | cons f fs ih =>
    unfold Schema.validateFrom at h
    by_cases hempty : f.name = ""
    · rw [if_pos hempty] at h
      cases h
    rw [if_neg hempty] at h
    by_cases hdup : seen.any (fun p => eqIgnoreAsciiCase p.name f.name) = true
    · rw [if_pos hdup] at h
      cases h
    rw [if_neg hdup] at h
    by_cases hvector : f.ty = .vector 0
    · rw [if_pos hvector] at h
      cases h
    rw [if_neg hvector] at h
    have hnew : toAsciiLowercase f.name ∉ seen.map (fun f => toAsciiLowercase f.name) := by
      intro hmem
      obtain ⟨p, hp, hsame⟩ := List.mem_map.mp hmem
      exact hdup (List.any_eq_true.mpr ⟨p, hp, eqIgnoreAsciiCase_iff.mpr hsame⟩)
    have hall := ih h (by
      rw [List.map_append, List.map_singleton]
      exact List.nodup_append_comm.mp (List.nodup_cons.mpr ⟨hnew, hseen⟩))
    rwa [List.append_assoc, List.singleton_append] at hall

theorem keys_nodup (h : schema.validate = .ok ()) : schema.keys.Nodup := by
  unfold Schema.validate at h
  by_cases hnil : schema.fields = []
  · rw [if_pos hnil] at h
    cases h
  · rw [if_neg hnil] at h
    exact validateFrom_nodup h List.nodup_nil

theorem keys_length (schema : Schema) : schema.keys.length = schema.len :=
  List.length_map _

theorem positionsFrom_unknown {pos : List (Option Nat)} {i : Nat}
    (h : toAsciiLowercase n ∉ schema.keys) (ns : List String) :
    positionsFrom schema pos i (n :: ns) = bail s!"нет колонки '{n}'" := by
  rw [positionsFrom, indexOf_eq, if_neg h]
  rfl

theorem positionsFrom_known {i : Nat} (h : toAsciiLowercase n ∈ schema.keys) (ns : List String) :
    positionsFrom schema (slots (done.map toAsciiLowercase) schema.keys) i (n :: ns) =
      if toAsciiLowercase n ∈ done.map toAsciiLowercase then bail s!"колонка '{n}' указана дважды"
      else
        positionsFrom schema ((slots (done.map toAsciiLowercase) schema.keys).set
          (schema.keys.idxOf (toAsciiLowercase n)) (some i)) (i + 1) ns := by
  have hslot : index (slots (done.map toAsciiLowercase) schema.keys)
      (schema.keys.idxOf (toAsciiLowercase n)) =
        .ok (if toAsciiLowercase n ∈ done.map toAsciiLowercase then
          some ((done.map toAsciiLowercase).idxOf (toAsciiLowercase n)) else none) :=
    index_eq_ok.mpr (slots_get h)
  rw [positionsFrom, indexOf_eq, if_pos h, orBail, ok_bind, hslot, ok_bind]
  by_cases hmem : toAsciiLowercase n ∈ done.map toAsciiLowercase
  · rw [if_pos hmem, if_pos hmem]
    rfl
  · rw [if_neg hmem, if_neg hmem]
    rfl

/-- The loop over the names: each is looked up and takes a place that is still free. -/
theorem positionsFrom_run (hnd : schema.keys.Nodup) (hdone : (done.map toAsciiLowercase).Nodup)
    (names : List String) :
    (names.map toAsciiLowercase ⊆ schema.keys ∧ ((done ++ names).map toAsciiLowercase).Nodup ∧
      positionsFrom schema (slots (done.map toAsciiLowercase) schema.keys) done.length names =
        .ok (slots ((done ++ names).map toAsciiLowercase) schema.keys)) ∨
    (¬ (names.map toAsciiLowercase ⊆ schema.keys ∧ ((done ++ names).map toAsciiLowercase).Nodup) ∧
      ∃ m, positionsFrom schema (slots (done.map toAsciiLowercase) schema.keys) done.length names =
        bail m) := by
  induction names generalizing done with
  | nil =>
    rw [List.append_nil]
    exact Or.inl ⟨List.nil_subset _, hdone, rfl⟩
  | cons n ns ih =>
    by_cases hkey : toAsciiLowercase n ∈ schema.keys
    · rw [positionsFrom_known hkey]
      by_cases hmem : toAsciiLowercase n ∈ done.map toAsciiLowercase
      · right
        rw [if_pos hmem]
        refine ⟨fun h => ?_, _, rfl⟩
        have hall := h.2
        rw [List.map_append, List.nodup_append] at hall
        exact hall.2.2 _ hmem _ List.mem_cons_self rfl
      · have hnext : ((done ++ [n]).map toAsciiLowercase).Nodup := by
          rw [List.map_append, List.map_singleton]
          exact List.nodup_append_comm.mp (List.nodup_cons.mpr ⟨hmem, hdone⟩)
        have hset : (slots (done.map toAsciiLowercase) schema.keys).set
            (schema.keys.idxOf (toAsciiLowercase n)) (some done.length) =
              slots ((done ++ [n]).map toAsciiLowercase) schema.keys := by
          have hsnoc := slots_snoc hnd hmem
          rwa [List.length_map, ← List.map_singleton, ← List.map_append] at hsnoc
        have hrun := ih hnext
        rw [List.length_append, List.length_singleton, List.append_assoc, List.singleton_append] at hrun
        rw [if_neg hmem, hset, List.map_cons, List.cons_subset, and_iff_right hkey]
        exact hrun
    · right
      rw [positionsFrom_unknown hkey]
      exact ⟨fun h => hkey (h.1 List.mem_cons_self), _, rfl⟩

/-- As many names as columns, all found and none repeated: then no column is left out. -/
theorem namesColumns_iff (hnd : schema.keys.Nodup) : NamesColumns schema names ↔
    names.length = schema.len ∧ names.map toAsciiLowercase ⊆ schema.keys ∧
      (names.map toAsciiLowercase).Nodup := by
  have hlen : (names.map toAsciiLowercase).length = schema.keys.length ↔
      names.length = schema.len := by
    rw [List.length_map, keys_length]
  constructor
  · intro h
    exact ⟨hlen.mp h.length_eq, h.subset, h.nodup_iff.mpr hnd⟩
  · rintro ⟨heq, hsub, hnames⟩
    exact (hnames.subperm hsub).perm_of_length_le (hlen.mpr heq).ge

end Names

section Reorder

variable {lower : String → String} {db : Database} {table : String} {schema : Schema}
  {names : List String} {rows : List (List Value)}

theorem clonedAt_some {r : List Value} {i : Nat} {x : Value} (h : r[i]? = some x) :
    clonedAt r (some i) = .ok x :=
  index_eq_ok.mpr h

theorem reorder_row (hnd : schema.keys.Nodup) (hnames : NamesColumns schema names) {r : List Value}
    (hlen : r.length = names.length) : ∃ r',
    (slots (names.map toAsciiLowercase) schema.keys).mapM (clonedAt r) = .ok r' ∧
      InSchemaOrder schema names r r' := by
  have hlen' : r.length = (names.map toAsciiLowercase).length := by rw [hlen, List.length_map]
  have hsource : (names.map toAsciiLowercase).Nodup := hnames.nodup_iff.mpr hnd
  exact slots_read hsource hnames.symm.subset hlen' fun _ _ h => clonedAt_some h

theorem positions_run (hnd : schema.keys.Nodup) (hlen : names.length = schema.len) :
    (NamesColumns schema names ∧
      positionsFrom schema (List.replicate schema.len none) 0 names =
        .ok (slots (names.map toAsciiLowercase) schema.keys)) ∨
    (¬ NamesColumns schema names ∧
      ∃ m, positionsFrom schema (List.replicate schema.len none) 0 names = bail m) := by
  rw [namesColumns_iff hnd, and_iff_right hlen, ← keys_length, ← slots_nil]
  have hnone : (([] : List String).map toAsciiLowercase).Nodup := List.nodup_nil
  rcases positionsFrom_run hnd hnone names with ⟨hsub, hsource, h⟩ | h
  · exact Or.inl ⟨⟨hsub, hsource⟩, h⟩
  · exact Or.inr h

/-- The names are taken when they are the columns in some order, and refused otherwise. -/
theorem reorder_run (hschema : db.tables.schemaOf lower table = some schema)
    (hnd : schema.keys.Nodup) (hrows : ∀ r ∈ rows, r.length = names.length) :
    (NamesColumns schema names ∧ ∃ rows', reorder lower table names rows db = .ok rows' ∧
      List.Forall₂ (InSchemaOrder schema names) rows rows') ∨
    (¬ NamesColumns schema names ∧ ∃ m, reorder lower table names rows db = bail m) := by
  rw [reorder, hschema, orBail, ok_bind]
  by_cases hlen : names.length = schema.len
  · rw [if_neg (not_not.mpr hlen)]
    rcases positions_run hnd hlen with ⟨hnames, hpos⟩ | ⟨hnames, m, hpos⟩
    · left
      rw [hpos, ok_bind]
      exact ⟨hnames, mapM_related fun r hr => reorder_row hnd hnames (hrows r hr)⟩
    · right
      rw [hpos]
      exact ⟨hnames, m, rfl⟩
  · right
    rw [if_pos hlen]
    exact ⟨fun h => hlen ((namesColumns_iff hnd).mp h).1, _, rfl⟩

end Reorder

section Planned

variable {tx : Texts} {catalog : Schemas} {table : String} {schema : Schema} {names : List String}
  {t : Sa.ObjectName} {columns : List Sa.ObjectName} {q : Sa.Query} {rows rows' : List (List Sa.Expr)}
  {types : List DataType}

theorem planStatement_plain (ht : identOf tx t = .ok table) (hschema : catalog table = some schema)
    (hq : q.body = .values rows) :
    planStatement tx catalog (.insert (.tableName t) [] (some q)) = do
      let planned ← rows.mapM (planRow tx (schema.fields.map Field.ty))
      return .insert table none planned := by
  have hs : tableSchema catalog table = .ok schema := by rw [tableSchema, hschema, orBail]
  simp only [planStatement, planInsert, insertRows, hq, ht, hs, ok_bind]
  rfl

theorem planStatement_columns (ht : identOf tx t = .ok table)
    (hschema : catalog table = some schema) (hq : q.body = .values rows)
    (hcolumns : columns.mapM (identOf tx) = .ok names) (hne : columns ≠ []) :
    planStatement tx catalog (.insert (.tableName t) columns (some q)) = do
      let types ← targetTypes schema table (some names)
      let planned ← rows.mapM (planRow tx types)
      return .insert table (some names) planned := by
  have hs : tableSchema catalog table = .ok schema := by rw [tableSchema, hschema, orBail]
  simp only [planStatement, planInsert, insertRows, hq, ht, hs, if_neg hne, hcolumns, ok_bind]
  rfl

theorem field_of_key {n : String} {i : Nat} (hnd : schema.keys.Nodup)
    (h : schema.keys[i]? = some (toAsciiLowercase n)) : schema.field n = schema.fields[i]? := by
  obtain ⟨hlt, hkey⟩ := List.getElem?_eq_some_iff.mp h
  have hplace : schema.keys.idxOf (toAsciiLowercase n) = i := hkey ▸ hnd.idxOf_getElem i hlt
  rw [Schema.field, indexOf_eq, if_pos (List.mem_of_getElem? h), hplace]
  rfl

theorem targetTypes_columns (table : String) (hnd : schema.keys.Nodup) (hnames : NamesColumns schema names) :
    ∃ types, targetTypes schema table (some names) = .ok types ∧ types.length = names.length ∧
      InSchemaOrder schema names types (schema.fields.map Field.ty) := by
  have htype : ∀ (i : Nat) (n : String), schema.keys[i]? = some (toAsciiLowercase n) →
      ∃ ty, (schema.fields.map Field.ty)[i]? = some ty ∧
        orBail s!"в таблице '{table}' нет колонки '{n}'" ((schema.field n).map Field.ty) = .ok ty := by
    intro i n hi
    have hlt : i < schema.fields.length := by
      have hbound := (List.getElem?_eq_some_iff.mp hi).1
      rwa [keys_length] at hbound
    have hf := List.getElem?_eq_getElem hlt
    rw [field_of_key hnd hi, List.getElem?_map, hf]
    exact ⟨_, rfl, rfl⟩
  obtain ⟨types, htypes⟩ := mapM_total fun n hn => by
    obtain ⟨i, hi⟩ := List.mem_iff_getElem?.mp (hnames.subset (List.mem_map_of_mem hn))
    obtain ⟨ty, -, hty⟩ := htype i n hi
    exact ⟨ty, hty⟩
  refine ⟨types, htypes, mapM_length htypes, ?_, fun i j k hi hj => ?_⟩
  · rw [List.length_map, keys_length]
    rfl
  · rw [List.getElem?_map, Option.map_eq_some_iff] at hj
    obtain ⟨n, hn, rfl⟩ := hj
    obtain ⟨ty, hget, hty⟩ := htype i n hi
    have hvalue := getElem?_of_mapM htypes j
    rw [hn, Option.map_some, hty] at hvalue
    obtain ⟨ty', hty', heq⟩ := Option.map_eq_some_iff.mp hvalue.symm
    rw [hget, hty', Except.ok.inj heq]

theorem planRow_sized {row : List Sa.Expr} (h : row.length = types.length) :
    planRow tx types row = (row.zip types).mapM (fun p => literal tx p.1 (some p.2)) := by
  rw [planRow, if_neg (not_not.mpr h)]

theorem planRow_order (hnames : NamesColumns schema names) (htypes : types.length = names.length)
    (horder : InSchemaOrder schema names types (schema.fields.map Field.ty))
    {row row' : List Sa.Expr}
    (hlen : row.length = names.length) (hrow : InSchemaOrder schema names row row') :
    (∀ vs, planRow tx types row = .ok vs →
      ∃ vs', planRow tx (schema.fields.map Field.ty) row' = .ok vs' ∧
        InSchemaOrder schema names vs vs') ∧
    ∀ vs', planRow tx (schema.fields.map Field.ty) row' = .ok vs' →
      ∃ vs, planRow tx types row = .ok vs ∧ InSchemaOrder schema names vs vs' := by
  have hzip := hrow.zip horder
  have hsize : row'.length = (schema.fields.map Field.ty).length :=
    hrow.length_eq.trans horder.length_eq.symm
  have hzlen : (row.zip types).length = (names.map toAsciiLowercase).length := by
    rw [List.length_zip, List.length_map, hlen, htypes, Nat.min_self]
  rw [planRow_sized (hlen.trans htypes.symm), planRow_sized hsize]
  constructor
  · intro vs hvs
    exact hzip.mapM hnames.symm.subset hvs
  · intro vs' hvs'
    exact hzip.mapM_back hnames.symm.subset hnames.subset hzlen hvs'

/-- All rows of the statement: both plans or neither, and the planned rows correspond. -/
theorem planRows_order (tx : Texts) (hnames : NamesColumns schema names)
    (htypes : types.length = names.length)
    (horder : InSchemaOrder schema names types (schema.fields.map Field.ty))
    (hlen : ∀ row ∈ rows, row.length = names.length)
    (hrows : List.Forall₂ (InSchemaOrder schema names) rows rows') :
    (∀ vss, rows.mapM (planRow tx types) = .ok vss →
      ∃ vss', rows'.mapM (planRow tx (schema.fields.map Field.ty)) = .ok vss' ∧
        List.Forall₂ (InSchemaOrder schema names) vss vss') ∧
    ∀ vss', rows'.mapM (planRow tx (schema.fields.map Field.ty)) = .ok vss' →
      ∃ vss, rows.mapM (planRow tx types) = .ok vss ∧
        List.Forall₂ (InSchemaOrder schema names) vss vss' := by
  constructor
  · intro vss hvss
    refine mapM_transfer (fun row row' vs hmem hrow hvs => ?_) hrows hvss
    exact (planRow_order hnames htypes horder (hlen row hmem) hrow).1 vs hvs
  · intro vss' hvss'
    have hboth := (List.forall₂_and_left rows rows').mpr ⟨hlen, hrows⟩
    have hturned : List.Forall₂ (fun row' row => row.length = names.length ∧
        InSchemaOrder schema names row row') rows' rows := List.Forall₂.flip hboth
    obtain ⟨vss, hvss, hrel⟩ := mapM_transfer (S := fun vs' vs => InSchemaOrder schema names vs vs')
      (fun row' row vs' _ hrow hvs' =>
        (planRow_order hnames htypes horder hrow.1 hrow.2).2 vs' hvs') hturned hvss'
    exact ⟨vss, hvss, List.Forall₂.flip hrel⟩

theorem planRow_length {row : List Sa.Expr} {vs : List Value} (h : planRow tx types row = .ok vs) :
    vs.length = types.length := by
  unfold planRow at h
  by_cases hlen : row.length ≠ types.length
  · rw [if_pos hlen] at h
    cases h
  · rw [if_neg hlen] at h
    rw [mapM_length h, List.length_zip, not_not.mp hlen, Nat.min_self]

end Planned

section Stored

variable {tx : Texts} {rt : Runtime} {io : AppendIo} {db : Database} {table : String}
  {schema : Schema} {names : List String}

/-- The same database is left, and the same answers are given, whichever of the two ran. -/
def SameOutcome (x y : Exec QueryResult × Database) : Prop :=
  x.2 = y.2 ∧ ∀ r, x.1 = .ok r ↔ y.1 = .ok r

/-- Behind a plan with a list: the rows are put in order and stored as without one. -/
theorem runInsert_ordered {rows rows' : List (List Value)} {lower : String → String}
    (h : reorder lower table names rows db = .ok rows') :
    db.runInsert lower io table (some names) rows = db.runInsert lower io table none rows' := by
  rw [Database.runInsert, Database.runInsert, Option.elim_some, Option.elim_none, h]

/-- INSERT with a list of columns stores what INSERT of the rows in schema order stores. -/
theorem execute_ordered (hschema : db.tables.schemaOf rt.toLowercase table = some schema)
    (hvalid : schema.validate = .ok ()) (hnames : NamesColumns schema names) {t : Sa.ObjectName}
    (ht : identOf tx t = .ok table) {columns : List Sa.ObjectName}
    (hcolumns : columns.mapM (identOf tx) = .ok names) {q q' : Sa.Query}
    {rows rows' : List (List Sa.Expr)} (hq : q.body = .values rows) (hq' : q'.body = .values rows')
    (hlen : ∀ row ∈ rows, row.length = names.length)
    (hrows : List.Forall₂ (InSchemaOrder schema names) rows rows') :
    SameOutcome (db.execute tx rt io (.insert (.tableName t) columns (some q)))
      (db.execute tx rt io (.insert (.tableName t) [] (some q'))) := by
  have hnd := keys_nodup hvalid
  have hne : columns ≠ [] := by
    rintro rfl
    obtain rfl : names = [] := (pure_eq_ok.mp hcolumns).symm
    have hnone : schema.len = 0 := by
      rw [← keys_length, ← hnames.length_eq]
      rfl
    exact Schema.validate_ne_nil hvalid (List.length_eq_zero_iff.mp hnone)
  obtain ⟨types, htypes, htlen, horder⟩ := targetTypes_columns table hnd hnames
  obtain ⟨hforth, hback⟩ := planRows_order tx hnames htlen horder hlen hrows
  unfold Database.execute
  rw [planStatement_columns ht hschema hq hcolumns hne, planStatement_plain ht hschema hq', htypes,
    ok_bind]
  cases hplan : rows.mapM (planRow tx types) with
  | error e =>
    cases hplan' : rows'.mapM (planRow tx (schema.fields.map Field.ty)) with
    | error e' => exact ⟨rfl, fun r => iff_of_false nofun nofun⟩
    | ok vss' =>
      obtain ⟨vss, hvss, -⟩ := hback vss' hplan'
      cases hplan.symm.trans hvss
  | ok vss =>
    obtain ⟨vss', hplan', hrel⟩ := hforth vss hplan
    have hlens : ∀ vs ∈ vss, vs.length = names.length := by
      intro vs hvs
      obtain ⟨row, -, hrow⟩ := exists_of_mem_mapM hplan hvs
      rw [planRow_length hrow, htlen]
    rw [hplan']
    have hordered : reorder rt.toLowercase table names vss db = .ok vss' := by
      rcases reorder_run hschema hnd hlens with ⟨-, vss'', hok, hrel'⟩ | ⟨hnot, -⟩
      · have huniq : Relator.RightUnique (InSchemaOrder (α := Value) schema names) :=
          fun _ _ _ h h' => Rearranged.unique hnames.symm.subset h h'
        rw [hok, List.right_unique_forall₂' huniq hrel' hrel]
      · exact absurd hnames hnot
    exact ⟨congrArg Prod.snd (runInsert_ordered hordered), fun r =>
      iff_of_eq (congrArg (fun x => x.1 = .ok r) (runInsert_ordered hordered))⟩

/-- A list of names is taken exactly when it is a permutation of the columns; the rows then have
each value under its name, no row is read outside, and what is stored is what the same values in the
order of the schema store. -/
theorem insert_columns_permute (hschema : db.tables.schemaOf rt.toLowercase table = some schema)
    (hvalid : schema.validate = .ok ()) (names : List String) :
    (∀ rows : List (List Value), (∀ r ∈ rows, r.length = names.length) →
      ((∃ rows', reorder rt.toLowercase table names rows db = .ok rows') ↔ NamesColumns schema names) ∧
      (∀ rows', reorder rt.toLowercase table names rows db = .ok rows' →
        List.Forall₂ (InSchemaOrder schema names) rows rows') ∧
      ¬ Crashes (reorder rt.toLowercase table names rows db)) ∧
    ∀ (tx : Texts) (io : AppendIo) (t : Sa.ObjectName) (columns : List Sa.ObjectName) (q q' : Sa.Query)
      (rows rows' : List (List Sa.Expr)), NamesColumns schema names → identOf tx t = .ok table →
      columns.mapM (identOf tx) = .ok names → q.body = .values rows → q'.body = .values rows' →
      (∀ row ∈ rows, row.length = names.length) →
      List.Forall₂ (InSchemaOrder schema names) rows rows' →
      SameOutcome (db.execute tx rt io (.insert (.tableName t) columns (some q)))
        (db.execute tx rt io (.insert (.tableName t) [] (some q'))) := by
  constructor
  · intro rows hrows
    rcases reorder_run hschema (keys_nodup hvalid) hrows with ⟨hnames, rows', hok, hrel⟩ | ⟨hnot, m, hm⟩
    · refine ⟨iff_of_true ⟨rows', hok⟩ hnames, fun rows'' h => ?_, not_crashes_of_ok hok⟩
      obtain rfl : rows' = rows'' := Except.ok.inj (hok.symm.trans h)
      exact hrel
    · have hfails : ∀ rows', reorder rt.toLowercase table names rows db ≠ .ok rows' := by
        intro rows' h
        cases hm.symm.trans h
      refine ⟨iff_of_false (fun ⟨rows', h⟩ => hfails rows' h) hnot, fun rows' h => ?_, ?_⟩
      · exact absurd h (hfails rows')
      · rw [hm]
        exact not_crashes_bail m
  · intro tx io t columns q q' rows rows' hnames ht hcolumns hq hq' hlen hrows
    exact execute_ordered hschema hvalid hnames ht hcolumns hq hq' hlen hrows

/-- `CREATE TABLE t (a INT, b TEXT)` -/
def pairsSchema : Schema :=
  ⟨[⟨"a", .i64⟩, ⟨"b", .str⟩]⟩

def pairsDatabase : Database :=
  { Database.new with
    tables := Catalog.putTable id ∅ ⟨"t", pairsSchema, [Column.empty .i64, Column.empty .str], 0⟩ }

def valuesQuery (rows : List (List Sa.Expr)) : Sa.Query :=
  { body := .values rows }

/-- `INSERT INTO t (B, a) VALUES ('x', 1)` -/
theorem insert_columns_permute_pair :
    reorder plainRuntime.toLowercase "t" ["B", "a"] [[.str "x", .i64 1]] pairsDatabase =
      .ok [[.i64 1, .str "x"]] ∧
    List.Forall₂ (InSchemaOrder pairsSchema ["B", "a"]) [[Value.str "x", .i64 1]]
      [[.i64 1, .str "x"]] ∧
    SameOutcome
      (pairsDatabase.execute plainTexts plainRuntime .done (.insert
        (.tableName [.identifier "t"]) [[.identifier "B"], [.identifier "a"]]
        (some (valuesQuery [[.value (.singleQuotedString "x"), .value (.number "1")]]))))
      (pairsDatabase.execute plainTexts plainRuntime .done (.insert
        (.tableName [.identifier "t"]) []
        (some (valuesQuery [[.value (.number "1"), .value (.singleQuotedString "x")]])))) := by
  have hschema : pairsDatabase.tables.schemaOf plainRuntime.toLowercase "t" = some pairsSchema := by
    decide +kernel
  have hvalid : pairsSchema.validate = .ok () := by decide +kernel
  have hnames : NamesColumns pairsSchema ["B", "a"] := List.Perm.swap "a" "b" []
  have hreorder : reorder plainRuntime.toLowercase "t" ["B", "a"] [[.str "x", .i64 1]] pairsDatabase =
      .ok [[.i64 1, .str "x"]] := by decide +kernel
  obtain ⟨hrows, hstored⟩ := insert_columns_permute hschema hvalid ["B", "a"]
  have hsized : ∀ r ∈ [[Value.str "x", .i64 1]], r.length = 2 := by
    intro r hr
    rw [List.mem_singleton.mp hr]
    rfl
  refine ⟨hreorder, (hrows _ hsized).2.1 _ hreorder, ?_⟩
  refine hstored plainTexts .done _ _ _ _ _ _ hnames rfl rfl rfl rfl ?_ (List.Forall₂.cons ?_ .nil)
  · intro row hrow
    rw [List.mem_singleton.mp hrow]
    rfl
  · have hother : pairsSchema.keys[0]? ≠ (["B", "a"].map toAsciiLowercase)[0]? ∧
        pairsSchema.keys[1]? ≠ (["B", "a"].map toAsciiLowercase)[1]? := by decide +kernel
    refine ⟨rfl, fun i j k hi hj => ?_⟩
    rcases i with _ | _ | i
    · rcases j with _ | _ | j
      · exact absurd (hi.trans hj.symm) hother.1
      · rfl
      · cases hj
    · rcases j with _ | _ | j
      · rfl
      · exact absurd (hi.trans hj.symm) hother.2
      · cases hj
    · cases hi

end Stored

end Veldb
