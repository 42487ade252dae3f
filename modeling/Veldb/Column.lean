import Veldb.Machine

/-! Typed columns: dense arrays, and an arena with 32-bit offsets for text. -/

namespace Veldb

inductive DataType where
  | i64
  | f64
  | bool
  | str
  | vector (dim : UInt64)
  deriving DecidableEq, Repr

def DataType.name : DataType → String
  | .i64 => "INT"
  | .f64 => "DOUBLE"
  | .bool => "BOOL"
  | .str => "TEXT"
  | .vector d => s!"VECTOR({d.toNat})"

inductive Value where
  | i64 (x : Int64)
  | f64 (x : F64)
  | bool (x : Bool)
  | str (x : String)
  | vector (x : List F32)
  deriving DecidableEq, Repr

def Value.typeOf : Value → DataType
  | .i64 _ => .i64
  | .f64 _ => .f64
  | .bool _ => .bool
  | .str _ => .str
  | .vector v => .vector (UInt64.ofNat v.length)

def utf8 (s : String) : Bytes :=
  s.toByteArray.data.toList

/-- `String::from_utf8`. -/
def fromUtf8 (b : Bytes) : Option String :=
  String.fromUTF8? ⟨b.toArray⟩

@[simp] theorem fromUtf8_utf8 (s : String) : fromUtf8 (utf8 s) = some s := by
  have hb : (⟨(utf8 s).toArray⟩ : ByteArray) = s.toByteArray := by simp [utf8]
  rw [fromUtf8, hb, String.fromUTF8?, dif_pos s.isValidUTF8]
  rfl

theorem fromUtf8_eq_some {b : Bytes} {s : String} (h : fromUtf8 b = some s) : utf8 s = b := by
  rw [fromUtf8, String.fromUTF8?] at h
  split at h
  · cases h
    simp [utf8, String.fromUTF8]
  · cases h

@[simp] theorem utf8_empty : utf8 "" = [] := rfl

theorem utf8_append (s t : String) : utf8 (s ++ t) = utf8 s ++ utf8 t := by
  simp [utf8]

theorem utf8_ofList (cs : List Char) :
    utf8 (String.ofList cs) = cs.flatMap String.utf8EncodeChar := by
  simp [utf8, List.utf8Encode]

def Value.Fits : Value → Prop
  | .str s => (utf8 s).length < 2 ^ 64
  | .vector v => v.length * 4 < 2 ^ 64
  | _ => True

/-- One buffer for all strings; `offsets[i]..offsets[i+1]` are the bytes of string `i`. -/
structure StrColumn where
  buf : Bytes
  offsets : List UInt32
  deriving DecidableEq, Repr

namespace StrColumn

def new : StrColumn :=
  ⟨[], [0]⟩

/-- The offset is the buffer length cast to 32 bits. -/
def push (c : StrColumn) (s : String) : StrColumn :=
  let buf := c.buf ++ utf8 s
  ⟨buf, c.offsets ++ [UInt32.ofNat buf.length]⟩

def len (c : StrColumn) : Nat :=
  c.offsets.length - 1

def getBytes (c : StrColumn) (i : Nat) : Exec Bytes :=
  match c.offsets[i]?, c.offsets[i + 1]? with
  | some s, some e =>
    if s ≤ e ∧ e.toNat ≤ c.buf.length then .ok (slice c.buf s.toNat e.toNat)
    else crash "StrColumn::get_bytes slice"
  | _, _ => crash "StrColumn::get_bytes index"

def get (c : StrColumn) (i : Nat) : Exec String := do
  let b ← c.getBytes i
  match fromUtf8 b with
  | some s => .ok s
  | none => crash "StrColumn хранит только валидный UTF-8"

def bytesUsed (c : StrColumn) : Nat :=
  c.buf.length + c.offsets.length * 4

def fromParts (buf : Bytes) (offsets : List UInt32) : Exec StrColumn :=
  if offsets.head? ≠ some 0 ∨ offsets.getLast? ≠ some (UInt32.ofNat buf.length) then
    bail "StrColumn: офсеты не согласованы с буфером"
  else if (offsets.zip offsets.tail).any (fun w => w.1 > w.2) then
    bail "StrColumn: офсеты не монотонны"
  else if (fromUtf8 buf).isNone then
    bail "invalid utf-8 sequence"
  else .ok ⟨buf, offsets⟩

/-- Offsets run monotonically from 0 to the buffer length and cut the buffer
into UTF-8 strings. -/
@[mk_iff] structure Inv (c : StrColumn) : Prop where
  first : c.offsets.head? = some 0
  last : c.offsets.getLast?.map UInt32.toNat = some c.buf.length
  mono : c.offsets.IsChain (· ≤ ·)
  text : c.offsets.IsChain (fun s e => (fromUtf8 (slice c.buf s.toNat e.toNat)).isSome)

instance decidableInv (c : StrColumn) : Decidable c.Inv :=
  decidable_of_iff' _ (inv_iff c)

end StrColumn

/-- Row-major for vectors: row `i` is `data[i*dim..(i+1)*dim]`. -/
inductive Column where
  | i64 (v : List Int64)
  | f64 (v : List F64)
  | bool (v : List UInt8)
  | str (c : StrColumn)
  | vector (dim : UInt64) (data : List F32)
  deriving DecidableEq, Repr

namespace Column

def empty : DataType → Column
  | .i64 => .i64 []
  | .f64 => .f64 []
  | .bool => .bool []
  | .str => .str StrColumn.new
  | .vector dim => .vector dim []

def dataType : Column → DataType
  | .i64 _ => .i64
  | .f64 _ => .f64
  | .bool _ => .bool
  | .str _ => .str
  | .vector dim _ => .vector dim

def len : Column → Nat
  | .i64 v => v.length
  | .f64 v => v.length
  | .bool v => v.length
  | .str c => c.len
  | .vector dim data => if dim = 0 then 0 else data.length / dim.toNat

def push : Column → Value → Exec Column
  | .i64 c, .i64 x => .ok (.i64 (c ++ [x]))
  | .f64 c, .f64 x => .ok (.f64 (c ++ [x]))
  | .f64 c, .i64 x => .ok (.f64 (c ++ [F64.ofI64 x]))
  | .bool c, .bool x => .ok (.bool (c ++ [if x then 1 else 0]))
  | .str c, .str x => .ok (.str (c.push x))
  | .vector dim data, .vector x =>
    if UInt64.ofNat x.length ≠ dim then
      bail s!"размерность вектора {x.length} != {dim.toNat} у колонки"
    else .ok (.vector dim (data ++ x))
  | col, val => bail s!"тип значения {val.typeOf.name} не подходит колонке {col.dataType.name}"

/-- `Vec::reserve` checks the size of the array with the rows to come. -/
def reserve (extra : Nat) : Column → Exec Unit
  | .i64 v => withCapacity 8 (v.length + extra)
  | .f64 v => withCapacity 8 (v.length + extra)
  | .bool v => withCapacity 1 (v.length + extra)
  | .str _ => .ok ()
  | .vector dim data => do withCapacity 4 (data.length + (← mulUsize extra dim.toNat))

def vectorAt (i : Nat) : Column → Exec (Option (List F32))
  | .vector dim data =>
    if (i + 1) * dim.toNat ≤ data.length then
      .ok (some ((data.drop (i * dim.toNat)).take dim.toNat))
    else crash "Column::vector_at"
  | _ => .ok none

def get (i : Nat) : Column → Exec Value
  | .i64 c => return .i64 (← index c i)
  | .f64 c => return .f64 (← index c i)
  | .bool c => return .bool ((← index c i) != 0)
  | .str c => return .str (← c.get i)
  | .vector dim data =>
    if (i + 1) * dim.toNat ≤ data.length then
      .ok (.vector ((data.drop (i * dim.toNat)).take dim.toNat))
    else crash "Column::get"

def bytesUsed : Column → Nat
  | .i64 v => v.length * 8
  | .f64 v => v.length * 8
  | .bool v => v.length
  | .str c => c.bytesUsed
  | .vector _ data => data.length * 4

/-- What every column reached by `empty` and `push` satisfies. The offsets of a
text column are only meant while its buffer fits them. -/
def Shape : Column → Prop
  | .str c => c.offsets ≠ [] ∧ (c.buf.length < 2 ^ 32 → c.Inv)
  | .vector dim data => dim ≠ 0 ∧ dim.toNat ∣ data.length
  | _ => True

/-- The bytes of the dense array with so many more rows. -/
def room (extra : Nat) : Column → Nat
  | .i64 v => (v.length + extra) * 8
  | .f64 v => (v.length + extra) * 8
  | .bool v => v.length + extra
  | .str _ => 0
  | .vector dim data => (data.length + extra * dim.toNat) * 4

theorem reserve_eq (extra : Nat) (c : Column) :
    (c.room extra ≤ isizeMax ∧ c.reserve extra = .ok ()) ∨
      ¬ c.room extra ≤ isizeMax ∧ ∃ place, c.reserve extra = crash place := by
  have harray : ∀ size n, (n * size ≤ isizeMax ∧ withCapacity size n = .ok ()) ∨
      ¬ n * size ≤ isizeMax ∧ ∃ place, withCapacity size n = crash place := by
    intro size n
    by_cases h : n * size ≤ isizeMax
    · exact Or.inl ⟨h, withCapacity_eq_ok.mpr h⟩
    · exact Or.inr ⟨h, _, withCapacity_error h⟩
  cases c with
  | i64 v => exact harray 8 _
  | f64 v => exact harray 8 _
  | bool v =>
    have h := harray 1 (v.length + extra)
    rwa [Nat.mul_one] at h
  | str c => exact Or.inl ⟨Nat.zero_le _, rfl⟩
  | vector dim data =>
    by_cases hmul : extra * dim.toNat < usizeRange
    · have hcheck : mulUsize extra dim.toNat = .ok (extra * dim.toNat) := if_pos hmul
      rw [reserve, hcheck]
      exact harray 4 _
    · have hcheck : mulUsize extra dim.toNat = crash "attempt to multiply with overflow" := if_neg hmul
      rw [reserve, hcheck]
      refine Or.inr ⟨?_, _, rfl⟩
      change ¬ (data.length + extra * dim.toNat) * 4 ≤ isizeMax
      unfold usizeRange at hmul
      unfold isizeMax
      omega

/-- The bytes a value takes in a dense array. -/
def entryBytes : Value → Nat
  | .i64 _ => 8
  | .f64 _ => 8
  | .bool _ => 1
  | .str _ => 0
  | .vector x => x.length * 4

theorem room_push {c c' : Column} {v : Value} (h : c.push v = .ok c') (extra : Nat) :
    c'.room extra = c.room extra + entryBytes v := by
  unfold push at h
  split at h
  case h_6 =>
    split at h
    · cases h
    · cases h
      simp only [room, entryBytes, List.length_append]
      omega
  case h_7 => cases h
  all_goals
    cases h
    simp only [room, entryBytes, List.length_append, List.length_singleton]
    try omega

theorem room_pushes {c c' : Column} {vs : List Value} (h : vs.foldlM push c = .ok c')
    (extra : Nat) : c'.room extra = c.room extra + (vs.map entryBytes).sum := by
  induction vs generalizing c with
  | nil =>
    obtain rfl := Except.ok.inj h
    rfl
  | cons v vs ih =>
    rw [List.foldlM_cons] at h
    cases hv : c.push v with
    | error e =>
      rw [hv] at h
      cases h
    | ok d =>
      rw [hv] at h
      rw [ih h, room_push hv, List.map_cons, List.sum_cons, Nat.add_assoc]

@[simp] theorem dataType_empty (ty : DataType) : (empty ty).dataType = ty := by
  cases ty <;> rfl

@[simp] theorem len_empty (ty : DataType) : (empty ty).len = 0 := by
  cases ty <;> simp [empty, len, StrColumn.len, StrColumn.new]

end Column

end Veldb
