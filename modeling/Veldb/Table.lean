import Mathlib.Data.List.Forall2
import Veldb.TextColumn

/-! Schema and table. A table only grows: a row is checked as a whole before
any column takes its part of it. -/

namespace Veldb

structure Field where
  name : String
  ty : DataType
  deriving DecidableEq, Repr

structure Schema where
  fields : List Field
  deriving DecidableEq, Repr

def eqIgnoreAsciiCase (a b : String) : Bool :=
  a.toList.map Char.toLower == b.toList.map Char.toLower

namespace Schema

def indexOf (s : Schema) (name : String) : Option Nat :=
  s.fields.findIdx? (fun f => eqIgnoreAsciiCase f.name name)

def len (s : Schema) : Nat :=
  s.fields.length

/-- The loop of `validate`; `seen` holds the fields already passed. -/
def validateFrom (seen : List Field) : List Field → Exec Unit
  | [] => .ok ()
  | f :: fs =>
    if f.name = "" then bail "пустое имя колонки"
    else if seen.any (fun p => eqIgnoreAsciiCase p.name f.name) then
      bail s!"колонка '{f.name}' объявлена дважды"
    else if f.ty = .vector 0 then bail s!"колонка '{f.name}': VECTOR(0) бессмысленна"
    else validateFrom (seen ++ [f]) fs

def validate (s : Schema) : Exec Unit :=
  if s.fields = [] then bail "схема без колонок" else validateFrom [] s.fields

theorem validateFrom_vector {seen fs : List Field} (h : validateFrom seen fs = .ok ()) :
    ∀ f ∈ fs, f.ty ≠ .vector 0 := by
  induction fs generalizing seen with
  | nil => simp
  | cons f fs ih =>
    unfold validateFrom at h
    split at h
    · cases h
    · split at h
      · cases h
      · split at h
        · cases h
        · next hv =>
          intro g hg
          rcases List.mem_cons.mp hg with rfl | hg
          · exact hv
          · exact ih h g hg

theorem validate_vector {s : Schema} (h : s.validate = .ok ()) : ∀ f ∈ s.fields, f.ty ≠ .vector 0 := by
  unfold validate at h
  split at h
  · cases h
  · exact validateFrom_vector h

theorem validate_ne_nil {s : Schema} (h : s.validate = .ok ()) : s.fields ≠ [] := by
  intro he
  simp [validate, he, bail] at h

end Schema

@[ext] structure Table where
  name : String
  schema : Schema
  columns : List Column
  nrows : Nat
  deriving DecidableEq, Repr

namespace Table

def new (name : String) (schema : Schema) : Exec Table := do
  schema.validate
  return ⟨name, schema, schema.fields.map (fun f => Column.empty f.ty), 0⟩

def accepts (want got : DataType) : Bool :=
  want == got || (want == .f64 && got == .i64)

def checkRow : List Field → List Value → Exec Unit
  | _, [] => .ok ()
  | [], _ :: _ => crash "Table::insert schema index"
  | f :: fs, v :: vs =>
    if accepts f.ty v.typeOf then checkRow fs vs
    else bail s!"колонка '{f.name}': ожидался {f.ty.name}, получен {v.typeOf.name}"

/-- Pushes a row column by column; a failing push leaves the earlier columns
longer than the later ones. -/
def pushRow : List Column → List Value → Exec Unit × List Column
  | c :: cs, v :: vs =>
    match c.push v with
    | .ok c' => ((pushRow cs vs).1, c' :: (pushRow cs vs).2)
    | .error e => (.error e, c :: cs)
  | cs, _ => (.ok (), cs)

def insert (t : Table) (row : List Value) : Exec Unit × Table :=
  if row.length ≠ t.columns.length then
    (bail s!"строка из {row.length} значений, в таблице {t.columns.length} колонок", t)
  else
    match checkRow t.schema.fields row with
    | .error e => (.error e, t)
    | .ok () =>
      match pushRow t.columns row with
      | (.error e, cs) => (.error e, { t with columns := cs })
      | (.ok (), cs) => (.ok (), { t with columns := cs, nrows := t.nrows + 1 })

/-- The loop of `insert_many`: rows before the first rejected one stay. -/
def insertEach : Table → List (List Value) → Exec Unit × Table
  | t, [] => (.ok (), t)
  | t, r :: rs =>
    match t.insert r with
    | (.ok (), t') => insertEach t' rs
    | (.error e, t') => (.error e, t')

/-- Every column makes room for the batch before a row is looked at. -/
def reserve (t : Table) (extra : Nat) : Exec Unit :=
  t.columns.forM (Column.reserve extra)

def insertMany (t : Table) (rows : List (List Value)) : Exec Nat × Table :=
  match t.reserve rows.length with
  | .error e => (.error e, t)
  | .ok () =>
    match t.insertEach rows with
    | (.ok (), t') => (.ok rows.length, t')
    | (.error e, t') => (.error e, t')

def row (t : Table) (i : Nat) : Exec (List Value) :=
  t.columns.mapM (Column.get i)

def bytesUsed (t : Table) : Nat :=
  (t.columns.map Column.bytesUsed).sum

def checkColumns (nrows : Nat) : List Column → List Field → Exec Unit
  | c :: cs, f :: fs =>
    if c.dataType ≠ f.ty then bail s!"колонка '{f.name}': тип {c.dataType.name} != {f.ty.name}"
    else if c.len ≠ nrows then bail s!"колонка '{f.name}': {c.len} строк, ожидалось {nrows}"
    else checkColumns nrows cs fs
  | _, _ => .ok ()

def fromColumns (name : String) (schema : Schema) (columns : List Column) : Exec Table := do
  schema.validate
  if columns.length ≠ schema.fields.length then
    bail s!"колонок {columns.length}, полей в схеме {schema.fields.length}"
  let nrows := (columns.head?.map Column.len).getD 0
  checkColumns nrows columns schema.fields
  return ⟨name, schema, columns, nrows⟩

/-- What holds of a table after `new` and any inserts: one column for each
field, of its type, and every column as long as the table. -/
structure Shape (t : Table) : Prop where
  valid : t.schema.validate = .ok ()
  typed : List.Forall₂ (fun c f => c.dataType = f.ty) t.columns t.schema.fields
  full : ∀ c ∈ t.columns, c.len = t.nrows
  columns : ∀ c ∈ t.columns, c.Shape

theorem new_ok {name : String} {schema : Schema} {t : Table} (h : new name schema = .ok t) :
    schema.validate = .ok () ∧
      t = ⟨name, schema, schema.fields.map (fun f => Column.empty f.ty), 0⟩ := by
  cases hv : schema.validate with
  | error e => simp [new, hv, bind, Except.bind] at h
  | ok u =>
    simp only [new, hv, bind, Except.bind, pure, Except.pure, Except.ok.injEq] at h
    exact ⟨rfl, h.symm⟩

theorem new_shape {name : String} {schema : Schema} {t : Table} (h : new name schema = .ok t) :
    t.Shape := by
  obtain ⟨hv, rfl⟩ := new_ok h
  refine ⟨hv, ?_, ?_, ?_⟩
  · exact List.forall₂_map_left_iff.mpr (List.forall₂_same.mpr (fun f _ => Column.dataType_empty f.ty))
  · simp
  · intro c hc
    obtain ⟨f, hf, rfl⟩ := List.mem_map.mp hc
    exact Column.shape_empty (Schema.validate_vector hv f hf)

theorem accepts_push {c : Column} {v : Value} (h : accepts c.dataType v.typeOf = true) :
    ∃ c', c.push v = .ok c' := by
  cases c with
  | vector dim data =>
    cases v with
    | vector x =>
      have hd : dim = UInt64.ofNat x.length := by
        simpa [accepts, Column.dataType, Value.typeOf] using h
      exact ⟨.vector dim (data ++ x), by simp [Column.push, hd]⟩
    | _ => simp [accepts, Column.dataType, Value.typeOf] at h
  | _ => cases v <;> simp_all [accepts, Column.dataType, Value.typeOf, Column.push]

/-- No column outgrows what a vector may hold with so many more rows. -/
def Reserves (t : Table) (extra : Nat) : Prop :=
  ∀ c ∈ t.columns, c.room extra ≤ isizeMax

instance decidableReserves (t : Table) (extra : Nat) : Decidable (t.Reserves extra) := by
  unfold Reserves
  infer_instance

theorem reserve_eq (t : Table) (extra : Nat) : (t.Reserves extra ∧ t.reserve extra = .ok ()) ∨
    ¬ t.Reserves extra ∧ ∃ place, t.reserve extra = crash place := by
  unfold Reserves reserve
  induction t.columns with
  | nil => exact Or.inl ⟨by simp, rfl⟩
  | cons c cs ih =>
    have hcons : (c :: cs).forM (Column.reserve extra) =
        (c.reserve extra >>= fun _ => cs.forM (Column.reserve extra)) := rfl
    rw [List.forall_mem_cons, hcons]
    rcases c.reserve_eq extra with ⟨hc, heq⟩ | ⟨hc, place, heq⟩
    · rw [heq]
      rcases ih with ⟨hcs, h⟩ | ⟨hcs, place, h⟩
      · exact Or.inl ⟨⟨hc, hcs⟩, h⟩
      · exact Or.inr ⟨fun hall => hcs hall.2, place, h⟩
    · rw [heq]
      exact Or.inr ⟨fun hall => hc hall.1, place, rfl⟩

variable {t t' : Table} {rows : List (List Value)}

theorem reserve_ok {extra : Nat} (h : t.Reserves extra) : t.reserve extra = .ok () := by
  rcases t.reserve_eq extra with ⟨-, heq⟩ | ⟨hnot, -⟩
  · exact heq
  · exact absurd h hnot

theorem insertMany_ok (h : t.Reserves rows.length) (hi : t.insertEach rows = (.ok (), t')) :
    t.insertMany rows = (.ok rows.length, t') := by
  rw [insertMany, reserve_ok h]
  simp only [hi]

theorem insertMany_error {e : Fault} (h : t.Reserves rows.length)
    (hi : t.insertEach rows = (.error e, t')) : t.insertMany rows = (.error e, t') := by
  rw [insertMany, reserve_ok h]
  simp only [hi]

/-- The batch is not looked at where there is no room for it. -/
theorem insertMany_unreserved (h : ¬ t.Reserves rows.length) :
    ∃ place, t.insertMany rows = (crash place, t) := by
  rcases t.reserve_eq rows.length with ⟨hall, -⟩ | ⟨-, place, heq⟩
  · exact absurd hall h
  · refine ⟨place, ?_⟩
    rw [insertMany, heq]
    rfl

end Table

end Veldb
