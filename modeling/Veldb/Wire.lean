import Veldb.QueryTypes
import Veldb.Relations

/-! Values on their way to clients and back: in JSON, as REST sends them, and in the messages of
gRPC. Both are read for the type of the column they go to. -/

namespace Veldb

open Attempts

/-- `serde_json::Number` -/
inductive JsonNumber where
  | posInt (n : UInt64)
  | negInt (n : Int64)
  | float (x : F64)
  deriving DecidableEq, Repr

/-- A number as it stands in the text: an integer for its digits, any other by itself. -/
inductive JsonNumeral where
  | integer (n : Int)
  | decimal (text : String)
  deriving DecidableEq, Repr

/-- JSON with its numbers as they are written or as they are read. -/
inductive Json (ν : Type) where
  | null
  | bool (b : Bool)
  | number (n : ν)
  | string (s : String)
  | array (v : List (Json ν))
  | object (entries : List (String × Json ν))

/-- What is taken from the printer and the parser of JSON. -/
structure JsonTexts where
  displayNumber : JsonNumber → String
  display : Json JsonNumber → String
  /-- The shortest text that stands for the float. -/
  printF64 : F64 → String
  printF32 : F32 → String
  /-- The double taken for a number that is no integer of 64 bits, which need not be the nearest;
  none where it is too large. -/
  readF64 : JsonNumeral → Option F64

/-- `as f64` of an integer of any width. -/
def F64.ofInt (n : Int) : F64 :=
  let sign := if n < 0 then 2 ^ 63 else 0
  ⟨UInt64.ofNat (sign + bitsOfNat n.natAbs)⟩

def F64.isFinite (x : F64) : Bool :=
  x.magnitude < 0x7FF0000000000000

def F32.isFinite (x : F32) : Bool :=
  x.bits.toNat % 2 ^ 31 < 0x7F800000

namespace JsonNumber

def asI64 : JsonNumber → Option Int64
  | posInt n => if n.toNat < 2 ^ 63 then some (Int64.ofNat n.toNat) else none
  | negInt n => some n
  | float _ => none

def asF64 : JsonNumber → Option F64
  | posInt n => some (F64.ofInt n.toNat)
  | negInt n => some (F64.ofInt n.toInt)
  | float x => some x

def read (jt : JsonTexts) : JsonNumeral → Option JsonNumber
  | .integer n =>
    if 0 ≤ n ∧ n < 2 ^ 64 then some (posInt (UInt64.ofNat n.toNat))
    else if -2 ^ 63 ≤ n ∧ n < 0 then some (negInt (Int64.ofInt n))
    else (jt.readF64 (.integer n)).map float
  | .decimal text => (jt.readF64 (.decimal text)).map float

end JsonNumber

namespace Json

def asF64 : Json JsonNumber → Option F64
  | number n => n.asF64
  | _ => none

mutual

/-- What the parser makes of a text. -/
def read (jt : JsonTexts) : Json JsonNumeral → Option (Json JsonNumber)
  | null => some null
  | bool b => some (bool b)
  | number n => (JsonNumber.read jt n).map number
  | string s => some (string s)
  | array v => (readElements jt v).map array
  | object entries => (readEntries jt entries).map object

def readElements (jt : JsonTexts) : List (Json JsonNumeral) → Option (List (Json JsonNumber))
  | [] => some []
  | j :: rest => do
    let x ← read jt j
    return x :: (← readElements jt rest)

def readEntries (jt : JsonTexts) :
    List (String × Json JsonNumeral) → Option (List (String × Json JsonNumber))
  | [] => some []
  | (name, j) :: rest => do
    let x ← read jt j
    return (name, x) :: (← readEntries jt rest)

end

end Json

namespace Value

/-- `Serialize for Value`: a double that JSON has no number for is sent as a string, an element of a
vector as `null`. -/
def toJson (rt : Runtime) (jt : JsonTexts) : Value → Json JsonNumeral
  | .i64 v => .number (.integer v.toInt)
  | .f64 v => if v.isFinite then .number (.decimal (jt.printF64 v)) else .string (rt.showF64 v)
  | .bool v => .bool v
  | .str v => .string v
  | .vector v =>
    .array (v.map (fun x => if x.isFinite then .number (.decimal (jt.printF32 x)) else .null))

def fromJson (tx : Texts) (jt : JsonTexts) : DataType → Json JsonNumber → Exec Value
  | .i64, .number n => do return .i64 (← orBail s!"{jt.displayNumber n} не целое" n.asI64)
  | .f64, .number n => do return .f64 (← orBail s!"{jt.displayNumber n} не число" n.asF64)
  | .bool, .bool b => .ok (.bool b)
  | .str, .string s => .ok (.str s)
  | .vector dim, .array a =>
    if a.length ≠ dim.toNat then bail s!"вектор длины {a.length} в колонку VECTOR({dim.toNat})"
    else do
      let v ← a.mapM (fun x => do return tx.toF32 (← orBail "элемент вектора не число" x.asF64))
      return .vector v
  | ty, other => bail s!"значение {jt.display other} не подходит колонке {ty.name}"

end Value

namespace Pb

inductive Kind where
  | i (x : Int64)
  | f (x : F64)
  | b (x : Bool)
  | s (x : String)
  | v (values : List F32)
  deriving DecidableEq, Repr

structure Value where
  kind : Option Kind
  deriving DecidableEq, Repr

end Pb

def toPb (v : Value) : Pb.Value :=
  ⟨some (match v with
    | .i64 x => .i x
    | .f64 x => .f x
    | .bool x => .b x
    | .str x => .s x
    | .vector x => .v x)⟩

def fromPb (ty : DataType) (v : Pb.Value) : Exec Value := do
  let kind ← orBail "пустое значение" v.kind
  match ty, kind with
  | .i64, .i x => return .i64 x
  | .f64, .f x => return .f64 x
  | .f64, .i x => return .f64 (F64.ofI64 x)
  | .bool, .b x => return .bool x
  | .str, .s x => return .str x
  | .vector dim, .v x =>
    if x.length ≠ dim.toNat then bail s!"вектор длины {x.length} в колонку VECTOR({dim.toNat})"
    else return .vector x
  | ty, _ => bail s!"значение не подходит колонке {ty.name}"

section Rows

variable {α : Type}

/-- Row `i` of a batch; `read` is how the protocol reads a value for a type. -/
def readRow (read : DataType → α → Exec Value) (schema : Schema) (i : Nat) (row : List α) :
    Exec (List Value) :=
  if row.length ≠ schema.len then bail s!"строка {i}: {row.length} значений при {schema.len} колонках"
  else (row.zip schema.fields).mapM (fun p =>
    withContext s!"строка {i}, колонка '{p.2.name}'" (read p.2.ty p.1))

def readRows (read : DataType → α → Exec Value) (schema : Schema) (rows : List (List α)) :
    Exec (List (List Value)) :=
  rows.zipIdx.mapM (fun p => readRow read schema p.2 p.1)

end Rows

/-- The rows of a batch as they come out of the parser. -/
def parseRows (jt : JsonTexts) (rows : List (List (Json JsonNumeral))) :
    Option (List (List (Json JsonNumber))) :=
  rows.mapM (fun row => row.mapM (Json.read jt))

/-- What a client has sent for a column, in whatever protocol. -/
inductive Cell where
  | int (n : Int)
  | float (x : F64)
  | bool (b : Bool)
  | text (s : String)
  | vector (x : List F32)
  | other

namespace Cell

/-- The value that a column of the type takes a cell for. -/
def read : DataType → Cell → Option Value
  | .i64, int n => if -2 ^ 63 ≤ n ∧ n < 2 ^ 63 then some (.i64 (Int64.ofInt n)) else none
  | .f64, int n => some (.f64 (F64.ofInt n))
  | .f64, float x => some (.f64 x)
  | .bool, bool b => some (.bool b)
  | .str, text s => some (.str s)
  | .vector dim, vector x => if x.length = dim.toNat then some (.vector x) else none
  | _, _ => none

end Cell

def JsonNumber.cell : JsonNumber → Cell
  | posInt n => .int n.toNat
  | negInt n => .int n.toInt
  | float x => .float x

def Json.cell (tx : Texts) : Json JsonNumber → Cell
  | number n => n.cell
  | bool b => .bool b
  | string s => .text s
  | array a => ((a.mapM Json.asF64).map (fun v => Cell.vector (v.map tx.toF32))).getD .other
  | _ => .other

def Pb.Value.cell (v : Pb.Value) : Cell :=
  match v.kind with
  | some (.i x) => .int x.toInt
  | some (.f x) => .float x
  | some (.b x) => .bool x
  | some (.s x) => .text x
  | some (.v x) => .vector x
  | none => .other

namespace Schema

/-- The rows of a batch, if each has a value for every column. -/
def readCells (s : Schema) (rows : List (List Cell)) : Option (List (List Value)) :=
  rows.mapM (fun row =>
    if row.length = s.len then (row.zip s.types).mapM (fun p => p.1.read p.2) else none)

end Schema

section Cells

variable {tx : Texts} {jt : JsonTexts}

theorem read_typed {ty : DataType} {c : Cell} {v : Value} (h : c.read ty = some v) : v.typeOf = ty := by
  cases ty with
  | vector dim =>
    cases c with
    | vector x =>
      by_cases hlen : x.length = dim.toNat
      · rw [Cell.read, if_pos hlen] at h
        obtain rfl := Option.some.inj h
        simp [Value.typeOf, hlen]
      · rw [Cell.read, if_neg hlen] at h
        cases h
    | _ => cases h
  | i64 =>
    cases c with
    | int n =>
      by_cases hn : -2 ^ 63 ≤ n ∧ n < 2 ^ 63
      · rw [Cell.read, if_pos hn] at h
        obtain rfl := Option.some.inj h
        rfl
      · rw [Cell.read, if_neg hn] at h
        cases h
    | _ => cases h
  | f64 =>
    cases c with
    | int n =>
      obtain rfl := Option.some.inj h
      rfl
    | float x =>
      obtain rfl := Option.some.inj h
      rfl
    | _ => cases h
  | bool =>
    cases c with
    | bool b =>
      obtain rfl := Option.some.inj h
      rfl
    | _ => cases h
  | str =>
    cases c with
    | text s =>
      obtain rfl := Option.some.inj h
      rfl
    | _ => cases h

theorem int64_in_range (x : Int64) : -2 ^ 63 ≤ x.toInt ∧ x.toInt < 2 ^ 63 :=
  ⟨x.le_toInt, x.toInt_lt⟩

theorem asI64_cell (n : JsonNumber) : n.asI64.map Value.i64 = n.cell.read .i64 := by
  cases n with
  | posInt n =>
    have hn : (-2 ^ 63 : Int) ≤ (n.toNat : Int) := by omega
    by_cases h : n.toNat < 2 ^ 63
    · have h' : (n.toNat : Int) < 2 ^ 63 := by omega
      rw [JsonNumber.asI64, if_pos h, JsonNumber.cell, Cell.read, if_pos ⟨hn, h'⟩]
      rfl
    · have h' : ¬ (n.toNat : Int) < 2 ^ 63 := by omega
      rw [JsonNumber.asI64, if_neg h, JsonNumber.cell, Cell.read, if_neg fun hc => h' hc.2]
      rfl
  | negInt n =>
    rw [JsonNumber.asI64, JsonNumber.cell, Cell.read, if_pos (int64_in_range n), Int64.ofInt_toInt]
    rfl
  | float x => rfl

theorem asF64_cell (n : JsonNumber) : n.asF64.map Value.f64 = n.cell.read .f64 := by
  cases n <;> rfl

theorem toOption_orBail {α β : Type} (msg : String) (o : Option α) (g : α → β) :
    (orBail msg o >>= fun a => Except.ok (g a)).toOption = o.map g := by
  cases o <;> rfl

theorem mapM_map {α β γ : Type} (f : α → Option β) (g : β → γ) (l : List α) :
    l.mapM (fun a => (f a).map g) = (l.mapM f).map (List.map g) := by
  induction l with
  | nil => rfl
  | cons a l ih =>
    rw [List.mapM_cons, List.mapM_cons, ih]
    cases f a with
    | none => rfl
    | some b => cases l.mapM f <;> rfl

theorem elements_cell (a : List (Json JsonNumber)) :
    (a.mapM (fun x => do return tx.toF32 (← orBail "элемент вектора не число" x.asF64) :
      Json JsonNumber → Exec F32)).toOption = (a.mapM Json.asF64).map (List.map tx.toF32) := by
  rw [← mapM_map]
  refine (toOption_mapM fun x _ => ?_).trans (congrArg (List.mapM _) (List.map_id a))
  exact toOption_orBail _ _ _

theorem fromJson_cell (ty : DataType) (j : Json JsonNumber) :
    (Value.fromJson tx jt ty j).toOption = (j.cell tx).read ty := by
  cases j with
  | number n =>
    cases ty with
    | i64 => exact (toOption_orBail _ _ _).trans (asI64_cell n)
    | f64 => exact (toOption_orBail _ _ _).trans (asF64_cell n)
    | _ => cases n <;> rfl
  | array a =>
    have hcell : Json.cell tx (.array a) =
        ((a.mapM Json.asF64).map (fun v => Cell.vector (v.map tx.toF32))).getD .other := rfl
    rw [hcell]
    cases ty with
    | vector dim =>
      by_cases hlen : a.length = dim.toNat
      · rw [Value.fromJson, if_neg (not_not.mpr hlen), toOption_bind, elements_cell]
        cases hv : a.mapM Json.asF64 with
        | none => rfl
        | some v =>
          have hl : (v.map tx.toF32).length = dim.toNat := by
            rw [List.length_map, ← (mapM_eq_some.mp hv).length_eq, hlen]
          exact (if_pos hl).symm
      · rw [Value.fromJson, if_pos hlen]
        cases hv : a.mapM Json.asF64 with
        | none => rfl
        | some v =>
          have hl : ¬ (v.map tx.toF32).length = dim.toNat := by
            rw [List.length_map, ← (mapM_eq_some.mp hv).length_eq]
            exact hlen
          exact (if_neg hl).symm
    | _ => cases a.mapM Json.asF64 <;> rfl
  | _ => cases ty <;> rfl

theorem fromPb_cell (ty : DataType) (v : Pb.Value) : (fromPb ty v).toOption = v.cell.read ty := by
  rcases v with ⟨_ | k⟩
  · cases ty <;> rfl
  · cases ty with
    | i64 =>
      cases k with
      | i x =>
        have hcell : (Pb.Value.cell ⟨some (.i x)⟩).read .i64 = some (.i64 (Int64.ofInt x.toInt)) :=
          if_pos (int64_in_range x)
        rw [hcell, Int64.ofInt_toInt]
        rfl
      | _ => rfl
    | vector dim =>
      cases k with
      | v x =>
        by_cases hlen : x.length = dim.toNat
        · have hread : fromPb (.vector dim) ⟨some (.v x)⟩ = .ok (.vector x) := if_neg (not_not.mpr hlen)
          rw [hread]
          exact (if_pos hlen).symm
        · have hread : fromPb (.vector dim) ⟨some (.v x)⟩ =
              bail s!"вектор длины {x.length} в колонку VECTOR({dim.toNat})" := if_pos hlen
          rw [hread]
          exact (if_neg hlen).symm
      | _ => rfl
    | _ => cases k <;> rfl

theorem toOption_withContext {α : Type} (what : String) (x : Exec α) :
    (withContext what x).toOption = x.toOption := by
  rcases x with ⟨_ | _⟩ | _ <;> rfl

/-- A batch is taken for its cells, and the protocol does not matter. -/
theorem readRows_cells {α : Type} {read : DataType → α → Exec Value} {cell : α → Cell}
    (hread : ∀ ty a, (read ty a).toOption = (cell a).read ty) (schema : Schema) (rows : List (List α)) :
    (readRows read schema rows).toOption = schema.readCells (rows.map (List.map cell)) := by
  have hrow : ∀ p : List α × Nat, (readRow read schema p.2 p.1).toOption =
      if (p.1.map cell).length = schema.len then
        ((p.1.map cell).zip schema.types).mapM (fun c => c.1.read c.2) else none := by
    intro ⟨row, i⟩
    rw [List.length_map]
    by_cases hlen : row.length = schema.len
    · rw [readRow, if_neg (not_not.mpr hlen), if_pos hlen, Schema.types, List.zip_map]
      exact toOption_mapM fun p _ => (toOption_withContext _ _).trans (hread _ _)
    · rw [readRow, if_pos hlen, if_neg hlen]
      rfl
  have hrows : rows.zipIdx.map (fun p => p.1.map cell) = rows.map (List.map cell) := by
    conv_rhs => rw [← List.zipIdx_map_fst 0 rows, List.map_map]
    rfl
  rw [Schema.readCells, ← hrows]
  exact toOption_mapM fun p _ => hrow p

theorem cells_typed {types : List DataType} {cells : List Cell} {row : List Value}
    (hlen : cells.length = types.length)
    (h : (cells.zip types).mapM (fun p => p.1.read p.2) = some row) : row.map Value.typeOf = types := by
  have hrow : (cells.zip types).map Prod.snd = row.map Value.typeOf := by
    refine List.forall₂_eq_eq_eq ▸ List.forall₂_map_left_iff.mpr (List.forall₂_map_right_iff.mpr ?_)
    exact (mapM_eq_some.mp h).imp fun p v hv => (read_typed hv).symm
  rw [← hrow, List.map_snd_zip hlen.ge]

theorem readCells_typed {schema : Schema} {rows : List (List Cell)} {values : List (List Value)}
    (h : schema.readCells rows = some values) :
    ∀ row ∈ values, row.map Value.typeOf = schema.types := by
  have hrows := mapM_eq_some.mp h
  clear h
  induction hrows with
  | nil => simp
  | @cons cells row _ _ hrow _ ih =>
    refine List.forall_mem_cons.mpr ⟨?_, ih⟩
    by_cases hlen : cells.length = schema.len
    · rw [if_pos hlen] at hrow
      exact cells_typed (hlen.trans (List.length_map _).symm) hrow
    · rw [if_neg hlen] at hrow
      cases hrow

end Cells

/-- Every number of the value comes back when it is printed and read. -/
def Value.Printable (tx : Texts) (jt : JsonTexts) : Value → Prop
  | .f64 v => v.isFinite = true ∧ jt.readF64 (.decimal (jt.printF64 v)) = some v
  | .vector v => ∀ x ∈ v, x.isFinite = true ∧
    (jt.readF64 (.decimal (jt.printF32 x))).map tx.toF32 = some x
  | _ => True

section Reloading

variable {α : Type} {read : DataType → α → Exec Value} {send : Value → α} {schema : Schema}

theorem readRow_sent {row : List Value} (hrow : row.map Value.typeOf = schema.types) (i : Nat) :
    readRow read schema i (row.map send) = .ok row ↔ ∀ v ∈ row, read v.typeOf (send v) = .ok v := by
  have hlen : (row.map send).length = schema.len := by
    rw [List.length_map, ← List.length_map Value.typeOf, hrow, Schema.types, List.length_map]
    rfl
  rw [readRow, if_neg (not_not.mpr hlen), mapM_eq_ok]
  simp only [withContext_eq_ok]
  unfold Schema.types at hrow
  clear hlen
  generalize schema.fields = fields at hrow
  induction row generalizing fields with
  | nil => simp
  | cons v row ih =>
    cases fields with
    | nil => cases hrow
    | cons f fields =>
      obtain ⟨hv, hrow⟩ := List.cons.inj hrow
      rw [List.map_cons, List.zip_cons_cons, List.forall₂_cons, List.forall_mem_cons, hv]
      exact and_congr_right fun _ => ih fields hrow

/-- Rows sent out are read back where each value is. -/
theorem readRows_sent {rows : List (List Value)}
    (hrows : ∀ row ∈ rows, row.map Value.typeOf = schema.types) :
    readRows read schema (rows.map (List.map send)) = .ok rows ↔
      ∀ row ∈ rows, ∀ v ∈ row, read v.typeOf (send v) = .ok v := by
  rw [readRows, mapM_eq_ok]
  generalize 0 = n
  induction rows generalizing n with
  | nil => simp
  | cons row rows ih =>
    obtain ⟨hrow, hrows⟩ := List.forall_mem_cons.mp hrows
    rw [List.map_cons, List.zipIdx_cons, List.forall₂_cons, List.forall_mem_cons]
    exact and_congr (readRow_sent hrow n) (ih hrows (n + 1))

theorem vector_dim {x : List F32} (h : (Value.vector x).Fits) :
    x.length = (UInt64.ofNat x.length).toNat := by
  have hfits : x.length * 4 < 2 ^ 64 := h
  rw [UInt64.toNat_ofNat', Nat.mod_eq_of_lt (by omega)]

theorem fromPb_toPb {v : Value} (hv : v.Fits) : fromPb v.typeOf (toPb v) = .ok v := by
  cases v with
  | vector x => exact if_neg (not_not.mpr (vector_dim hv))
  | _ => rfl

theorem read_integer {jt : JsonTexts} (x : Int64) :
    ∃ n, JsonNumber.read jt (.integer x.toInt) = some n ∧ n.asI64 = some x := by
  have hlt := x.toInt_lt
  by_cases hneg : x.toInt < 0
  · refine ⟨.negInt x, ?_, rfl⟩
    rw [JsonNumber.read, if_neg (by omega), if_pos ⟨x.le_toInt, hneg⟩, Int64.ofInt_toInt]
  · have hnat : (UInt64.ofNat x.toInt.toNat).toNat = x.toInt.toNat := by
      rw [UInt64.toNat_ofNat', Nat.mod_eq_of_lt (by omega)]
    refine ⟨.posInt (UInt64.ofNat x.toInt.toNat), if_pos (by omega), ?_⟩
    rw [JsonNumber.asI64, hnat, if_pos (by omega)]
    refine congrArg some (Int64.toInt_inj.mp ?_)
    rw [Int64.toInt_ofNat_of_lt (by omega)]
    omega

theorem readElements_eq (jt : JsonTexts) (v : List (Json JsonNumeral)) :
    Json.readElements jt v = v.mapM (Json.read jt) := by
  induction v with
  | nil => rfl
  | cons j v ih => rw [Json.readElements, ih, List.mapM_cons]

/-- The element of a vector that is sent for a float. -/
def element (jt : JsonTexts) (y : F32) : Json JsonNumeral :=
  if y.isFinite then .number (.decimal (jt.printF32 y)) else .null

theorem element_sent {tx : Texts} {jt : JsonTexts} (y : F32) :
    (∃ j, Json.read jt (element jt y) = some j ∧
      (do return tx.toF32 (← orBail "элемент вектора не число" j.asF64) : Exec F32) = .ok y) ↔
      y.isFinite = true ∧ (jt.readF64 (.decimal (jt.printF32 y))).map tx.toF32 = some y := by
  unfold element
  by_cases hfinite : y.isFinite = true
  · rw [if_pos hfinite]
    simp only [Json.read, JsonNumber.read, hfinite, true_and]
    cases jt.readF64 (.decimal (jt.printF32 y)) with
    | none => simp
    | some x => simp [Json.asF64, JsonNumber.asF64, orBail, bind, Except.bind, pure, Except.pure]
  · rw [if_neg hfinite]
    refine iff_of_false ?_ fun h => hfinite h.1
    rintro ⟨j, hj, h⟩
    obtain rfl := Option.some.inj hj
    cases h

/-- What the parser makes of what is sent, where it makes anything. -/
def parsed (jt : JsonTexts) (j : Json JsonNumeral) : Json JsonNumber :=
  (Json.read jt j).getD .null

theorem parsed_eq {jt : JsonTexts} {j : Json JsonNumeral} {x : Json JsonNumber}
    (h : Json.read jt j = some x) : parsed jt j = x := by
  rw [parsed, h]
  rfl

theorem exists_read {jt : JsonTexts} {j : Json JsonNumeral} {p : Json JsonNumber → Prop} :
    (∃ x, Json.read jt j = some x ∧ p x) ↔
      Json.read jt j = some (parsed jt j) ∧ p (parsed jt j) := by
  refine ⟨?_, fun h => ⟨_, h⟩⟩
  rintro ⟨x, hx, hp⟩
  rw [parsed_eq hx]
  exact ⟨hx, hp⟩

/-- A list that is parsed and then taken element by element. -/
theorem vector_sent {tx : Texts} {jt : JsonTexts} (x : List F32) :
    (∃ js, (x.map (element jt)).mapM (Json.read jt) = some js ∧
      (js.mapM (fun j => do return tx.toF32 (← orBail "элемент вектора не число" j.asF64)) :
        Exec (List F32)) = .ok x) ↔ (Value.vector x).Printable tx jt := by
  have hparse : ∀ js, (x.map (element jt)).mapM (Json.read jt) = some js ↔
      (∀ y ∈ x, Json.read jt (element jt y) = some (parsed jt (element jt y))) ∧
        x.map (fun y => parsed jt (element jt y)) = js := by
    intro js
    rw [mapM_eq_some_map (g := parsed jt) fun _ _ => parsed_eq, List.map_map, List.forall_mem_map]
    rfl
  simp only [hparse, mapM_eq_ok]
  constructor
  · rintro ⟨js, ⟨hread, rfl⟩, htaken⟩ y hy
    rw [List.forall₂_map_left_iff, List.forall₂_same] at htaken
    exact (element_sent y).mp ⟨_, hread y hy, htaken y hy⟩
  · intro h
    have hsent : ∀ y ∈ x, Json.read jt (element jt y) = some (parsed jt (element jt y)) ∧
        (do return tx.toF32 (← orBail "элемент вектора не число" (parsed jt (element jt y)).asF64) :
          Exec F32) = .ok y :=
      fun y hy => exists_read.mp ((element_sent y).mpr (h y hy))
    refine ⟨_, ⟨fun y hy => (hsent y hy).1, rfl⟩, ?_⟩
    rw [List.forall₂_map_left_iff, List.forall₂_same]
    exact fun y hy => (hsent y hy).2

theorem fromJson_toJson {tx : Texts} {rt : Runtime} {jt : JsonTexts} {v : Value} (hv : v.Fits) :
    (∃ j, Json.read jt (v.toJson rt jt) = some j ∧ Value.fromJson tx jt v.typeOf j = .ok v) ↔
      v.Printable tx jt := by
  cases v with
  | i64 x =>
    obtain ⟨n, hn, hx⟩ := @read_integer jt x
    refine iff_of_true ⟨.number n, congrArg (Option.map Json.number) hn, ?_⟩ trivial
    rw [Value.typeOf, Value.fromJson, hx]
    rfl
  | f64 x =>
    by_cases hfinite : x.isFinite = true
    · rw [Value.toJson, if_pos hfinite]
      simp only [Json.read, JsonNumber.read, Value.Printable, hfinite, true_and, Value.typeOf]
      cases jt.readF64 (.decimal (jt.printF64 x)) with
      | none => simp
      | some y =>
        simp [Value.fromJson, JsonNumber.asF64, orBail, bind, Except.bind, pure, Except.pure]
    · rw [Value.toJson, if_neg hfinite]
      refine iff_of_false ?_ fun h => hfinite h.1
      rintro ⟨j, hj, h⟩
      obtain rfl := Option.some.inj hj
      cases h
  | vector x =>
    rw [← vector_sent]
    have hread : Json.read jt ((Value.vector x).toJson rt jt) =
        ((x.map (element jt)).mapM (Json.read jt)).map .array :=
      congrArg (Option.map Json.array) (readElements_eq jt _)
    have htake : ∀ js : List (Json JsonNumber), js.length = x.length →
        (Value.fromJson tx jt (.vector (UInt64.ofNat x.length)) (.array js) = .ok (.vector x) ↔
          (js.mapM (fun j => do return tx.toF32 (← orBail "элемент вектора не число" j.asF64)) :
            Exec (List F32)) = .ok x) := by
      intro js hjs
      rw [Value.fromJson, if_neg (not_not.mpr (hjs.trans (vector_dim hv))), bind_pure_eq_ok]
      refine ⟨?_, fun h => ⟨x, h, rfl⟩⟩
      rintro ⟨y, hy, heq⟩
      obtain rfl := Value.vector.inj heq
      exact hy
    have hjs : ∀ js, (x.map (element jt)).mapM (Json.read jt) = some js → js.length = x.length :=
      fun js h => (mapM_eq_some.mp h).length_eq.symm.trans (List.length_map _)
    rw [hread]
    constructor
    · rintro ⟨j, hj, h⟩
      obtain ⟨js, hsome, rfl⟩ := Option.map_eq_some_iff.mp hj
      exact ⟨js, hsome, (htake js (hjs js hsome)).mp h⟩
    · rintro ⟨js, hsome, h⟩
      exact ⟨.array js, congrArg _ hsome, (htake js (hjs js hsome)).mpr h⟩
  | _ => exact iff_of_true ⟨_, rfl, rfl⟩ trivial

/-- Rows sent as JSON are read back where each value is. -/
theorem parsedRows_sent {tx : Texts} {rt : Runtime} {jt : JsonTexts} {schema : Schema}
    {rows : List (List Value)} (hrows : ∀ row ∈ rows, row.map Value.typeOf = schema.types)
    (hfits : ∀ row ∈ rows, ∀ v ∈ row, v.Fits) :
    (∃ sent, parseRows jt (rows.map (List.map (Value.toJson rt jt))) = some sent ∧
      readRows (Value.fromJson tx jt) schema sent = .ok rows) ↔
      ∀ row ∈ rows, ∀ v ∈ row, v.Printable tx jt := by
  have hrow : ∀ (row : List (Json JsonNumeral)) sent, row.mapM (Json.read jt) = some sent →
      row.map (parsed jt) = sent := fun row sent h =>
    ((mapM_eq_some_map (g := parsed jt) fun _ _ => parsed_eq).mp h).2
  have hparse : ∀ sent, parseRows jt (rows.map (List.map (Value.toJson rt jt))) = some sent ↔
      (∀ row ∈ rows, ∀ v ∈ row, Json.read jt (v.toJson rt jt) = some (parsed jt (v.toJson rt jt))) ∧
        rows.map (List.map (fun v => parsed jt (v.toJson rt jt))) = sent := by
    intro sent
    rw [parseRows, mapM_eq_some_map (g := List.map (parsed jt)) hrow, List.map_map,
      List.forall_mem_map]
    refine and_congr (forall₂_congr fun row _ => ?_) ?_
    · rw [mapM_eq_some_map (g := parsed jt) fun _ _ => parsed_eq, List.forall_mem_map]
      exact and_iff_left rfl
    · simp [Function.comp_def]
  simp only [hparse]
  constructor
  · rintro ⟨sent, ⟨hread, rfl⟩, h⟩ row hr v hv
    have htaken := (@readRows_sent _ _ (fun v => parsed jt (v.toJson rt jt)) _ _ hrows).mp h
    exact (fromJson_toJson (hfits row hr v hv)).mp ⟨_, hread row hr v hv, htaken row hr v hv⟩
  · intro h
    have hsent : ∀ row ∈ rows, ∀ v ∈ row,
        Json.read jt (v.toJson rt jt) = some (parsed jt (v.toJson rt jt)) ∧
          Value.fromJson tx jt v.typeOf (parsed jt (v.toJson rt jt)) = .ok v :=
      fun row hr v hv => exists_read.mp ((fromJson_toJson (hfits row hr v hv)).mpr (h row hr v hv))
    refine ⟨_, ⟨fun row hr v hv => (hsent row hr v hv).1, rfl⟩, ?_⟩
    exact (readRows_sent hrows).mpr fun row hr v hv => (hsent row hr v hv).2

theorem accepts_typed {row : List Value} (h : row.map Value.typeOf = schema.types) :
    schema.Accepts row := by
  have heq : List.Forall₂ (· = ·) (schema.fields.map Field.ty) (row.map Value.typeOf) :=
    List.forall₂_eq_eq_eq ▸ h.symm
  have hrel := List.forall₂_map_left_iff.mp (List.forall₂_map_right_iff.mp heq)
  exact hrel.imp fun f v hv => by simp [hv, Table.accepts]

theorem stored_row {row : List Value} (h : row.map Value.typeOf = schema.types) :
    schema.stored row = row := by
  have hsame : ∀ x : Value, x.stored x.typeOf = x := fun x => by cases x <;> rfl
  rw [Schema.stored, ← h]
  clear h
  induction row with
  | nil => rfl
  | cons x row ih => rw [List.map_cons, List.zipWith_cons_cons, hsame, ih]

/-- Values of the very types of the columns are all taken, as they are. -/
theorem insert_typed {r : Relation} {rows : List (List Value)}
    (h : ∀ row ∈ rows, row.map Value.typeOf = r.schema.types) : (r.insert rows).rows = r.rows ++ rows := by
  have htaken : r.taken rows = rows := List.takeWhile_eq_self_iff.mpr fun row hrow => by
    simpa using accepts_typed (h row hrow)
  have hstored : rows.map r.schema.stored = rows := by
    conv_rhs => rw [← List.map_id rows]
    exact List.map_congr_left fun row hrow => stored_row (h row hrow)
  change r.rows ++ (r.taken rows).map r.schema.stored = _
  rw [htaken, hstored]

/-- The answer to a query can be inserted into a table of its types, and stands there as it was: by
gRPC always, by REST just when all its numbers come back from being printed and read. -/
theorem reload {tx : Texts} {rt : Runtime} {jt : JsonTexts} {plan : Select} {table : Option Table}
    {q : QueryResult} (h : runSelect rt plan table = .ok q)
    (hfits : ∀ row ∈ q.rows, ∀ v ∈ row, v.Fits) {r : Relation} (hr : r.schema.types = q.types) :
    readRows fromPb r.schema (q.rows.map (List.map toPb)) = .ok q.rows ∧
    ((∃ sent, parseRows jt (q.rows.map (List.map (Value.toJson rt jt))) = some sent ∧
        readRows (Value.fromJson tx jt) r.schema sent = .ok q.rows) ↔
      ∀ row ∈ q.rows, ∀ v ∈ row, v.Printable tx jt) ∧
    (r.insert q.rows).rows = r.rows ++ q.rows := by
  have hrows : ∀ row ∈ q.rows, row.map Value.typeOf = r.schema.types := fun row hrow =>
    ((runSelect_typed h).rows row hrow).trans hr.symm
  exact ⟨(readRows_sent hrows).mpr fun row hrow v hv => fromPb_toPb (hfits row hrow v hv),
    parsedRows_sent hrows hfits, insert_typed hrows⟩

end Reloading

/-- Only zero is printed and read. -/
def plainJson : JsonTexts where
  displayNumber _ := ""
  display _ := ""
  printF64 _ := "0.0"
  printF32 _ := "0.0"
  readF64
    | .decimal "0.0" => some F64.zero
    | _ => none

def sumsTable : Relation where
  name := "sums"
  schema := ⟨[⟨"b", .i64⟩, ⟨"sum", .i64⟩]⟩
  rows := [[.i64 7, .i64 0]]
  valid := by decide
  typed := by decide

theorem reload_sums :
    runSelect plainRuntime sumsByKeyPlan (some twoRows) =
      .ok ⟨["b", ""], [.i64, .i64], [[.i64 10, .i64 3]]⟩ ∧
    readRows fromPb sumsTable.schema ([[Value.i64 10, .i64 3]].map (List.map toPb)) =
      .ok [[.i64 10, .i64 3]] ∧
    (∃ sent, parseRows plainJson
        ([[Value.i64 10, .i64 3]].map (List.map (Value.toJson plainRuntime plainJson))) = some sent ∧
      readRows (Value.fromJson plainTexts plainJson) sumsTable.schema sent =
        .ok [[.i64 10, .i64 3]]) ∧
    (sumsTable.insert [[.i64 10, .i64 3]]).rows = sumsTable.rows ++ [[.i64 10, .i64 3]] := by
  have hrun : runSelect plainRuntime sumsByKeyPlan (some twoRows) =
      .ok ⟨["b", ""], [.i64, .i64], [[.i64 10, .i64 3]]⟩ := by decide +kernel
  have hfits : ∀ row ∈ [[Value.i64 10, .i64 3]], ∀ v ∈ row, v.Fits := by simp [Value.Fits]
  obtain ⟨hpb, hjson, hinsert⟩ := @reload plainTexts _ plainJson _ _ _ hrun hfits sumsTable rfl
  exact ⟨hrun, hpb, hjson.mpr (by simp [Value.Printable]), hinsert⟩

end Veldb
