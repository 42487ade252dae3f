import Veldb.RowLocal
import Veldb.SortedRows

/-! What the parts of a `SELECT` mean, row by row: the rows that a condition holds of, in the order
of the keys with ties as they stand, a page of them, and the select list of each. A row is evaluated
as the only row of its table. -/

namespace Veldb

open Attempts Arr StableSort

/-- The column of a single value. -/
def Column.single : Value → Column
  | .i64 x => .i64 [x]
  | .f64 x => .f64 [x]
  | .bool x => .bool [boolByte x]
  | .str x => .str (StrColumn.new.push x)
  | .vector x => .vector (UInt64.ofNat x.length) x

def rowFrame (row : List Value) : Frame :=
  ⟨row.map Column.single⟩

/-- The value of an expression on one row, as an array of length 1. -/
def cell (rt : Runtime) (row : List Value) (e : Expr) : Exec Arr :=
  eval rt (rowFrame row) (.all 1) e

/-- Two cells of one key. -/
def ordCell : Arr → Arr → Ordering
  | .i64 v, .i64 w => compare v[0]? w[0]?
  | .f64 v, .f64 w => compare (v[0]?.map F64.rank) (w[0]?.map F64.rank)
  | .bool v, .bool w => compare v[0]? w[0]?
  | .str v, .str w => compare v[0]? w[0]?
  | _, _ => .eq

/-- Two rows by their keys, the second where the first ones tie. -/
def ordCells : List (Arr × Bool) → List (Arr × Bool) → Ordering
  | k :: keys, l :: rest =>
    (if k.2 then ordCell k.1 l.1 else ordCell l.1 k.1).then (ordCells keys rest)
  | _, _ => .eq

/-- The entries beside a mark. -/
def marked {α : Type} (xs : List α) (marks : List Bool) : List α :=
  ((xs.zip marks).filter (·.2)).map (·.1)

section Items

-- `sem` is what an expression gives for one of the things a query ranges over: a row or a group
variable {ι : Type} (sem : ι → Expr → Exec Arr)

def holds (cond : Option Expr) (x : ι) : Exec Bool :=
  match cond with
  | none => .ok true
  | some e => do return (← (← sem x e).asBool).any (· ≠ 0)

/-- Those of which the condition holds, in their order. -/
def chosen (cond : Option Expr) (xs : List ι) : Exec (List ι) := do
  return marked xs (← xs.mapM (holds sem cond))

def keyCells (order : List OrderKey) (x : ι) : Exec (List (Arr × Bool)) :=
  order.mapM (fun k => do return (← sem x k.expr, k.asc))

/-- In the order of the keys, ties as they stood. -/
def ordered (order : List OrderKey) (xs : List ι) : Exec (List ι) := do
  let keys ← xs.mapM (keyCells sem order)
  return (stable (fun a b => ordCells a.1 b.1) (keys.zip xs)).map (·.2)

def project (projection : List Projection) (x : ι) : Exec (List Value) :=
  projection.mapM (fun p => do (← sem x p.expr).value 0)

/-- The order, a page, and the select list. -/
def Select.page (plan : Select) (xs : List ι) : Exec (List (List Value)) := do
  (kept plan.limit plan.offset (← ordered sem plan.orderBy xs)).mapM (project sem plan.projection)

end Items

section Frames

variable {rt : Runtime} {f f' : Frame} {s s' : Sel}

/-- The two columns give the same over the two selections. -/
structure Column.Reads (c c' : Column) (s s' : Sel) : Prop where
  gather : Veldb.gather c s = Veldb.gather c' s'
  distances : ∀ rt metric q, Veldb.distances rt c s metric q = Veldb.distances rt c' s' metric q

theorem reads_getElem? (h : List.Forall₂ (fun c c' => c.Reads c' s s') f.cols f'.cols) (i : Nat) :
    (f.cols[i]? = none ∧ f'.cols[i]? = none) ∨
      ∃ c c', f.cols[i]? = some c ∧ f'.cols[i]? = some c' ∧ c.Reads c' s s' := by
  by_cases hi : i < f.cols.length
  · have hi' : i < f'.cols.length := h.length_eq ▸ hi
    exact Or.inr ⟨_, _, List.getElem?_eq_getElem hi, List.getElem?_eq_getElem hi', h.get hi hi'⟩
  · have hi' : ¬ i < f'.cols.length := h.length_eq ▸ hi
    exact Or.inl ⟨List.getElem?_eq_none (not_lt.mp hi), List.getElem?_eq_none (not_lt.mp hi')⟩

/-- An expression sees of a frame only what the selection reads of its columns. -/
theorem eval_reads (h : List.Forall₂ (fun c c' => c.Reads c' s s') f.cols f'.cols)
    (hlen : s.len = s'.len) (e : Expr) : eval rt f s e = eval rt f' s' e := by
  induction e using Expr.induct with
  | col i =>
    rw [eval_col, eval_col, hlen]
    rcases reads_getElem? h i with ⟨hc, hc'⟩ | ⟨c, c', hc, hc', hreads⟩
    · rw [hc, hc']
      rfl
    · rw [hc, hc', Option.elim_some, Option.elim_some, hreads.gather]
  | lit v => rw [eval_lit, eval_lit, hlen]
  | binary op l r hl hr => rw [eval_binary, eval_binary, hl, hr, hlen]
  | unary op e he => rw [eval_unary, eval_unary, he, hlen]
  | like e pattern negated ci he => rw [eval_like, eval_like, he, hlen]
  | inList e list negated he => rw [eval_inList, eval_inList, he, hlen]
  | between e low high negated he hlow hhigh =>
    rw [eval_between, eval_between, he, hlow, hhigh, hlen]
  | func f args ih => rw [eval_func, eval_func, evalArgs_eq_mapM, evalArgs_eq_mapM, mapM_congr ih, hlen]
  | distance metric c query =>
    rw [eval_distance, eval_distance, hlen]
    rcases reads_getElem? h c with ⟨hc, hc'⟩ | ⟨col, col', hc, hc', hreads⟩
    · rw [hc, hc']
      rfl
    · rw [hc, hc', Option.elim_some, Option.elim_some, hreads.distances]
  | agg func arg distinct => rfl
  | cast e ty he => rw [eval_cast, eval_cast, he, hlen]

/-- The column holds `v` in row `i`, and the expressions that read it find it there. -/
def Column.Holds (c : Column) (i : Nat) (v : Value) : Prop :=
  c.Reads (Column.single v) (.ids [i]) (.all 1)

/-- The row as the columns hold it. -/
def Frame.HoldsRow (f : Frame) (i : Nat) (row : List Value) : Prop :=
  List.Forall₂ (fun c v => c.Holds i v) f.cols row

theorem eval_row {i : Nat} {row : List Value} (h : f.HoldsRow i row) (e : Expr) :
    eval rt f (.ids [i]) e = cell rt row e :=
  eval_reads (List.forall₂_map_right_iff.mpr h) rfl e

end Frames

section Holding

variable {i : Nat}

theorem vectors_one {β : Type} {data v : List F32} {s : Sel} (g : List F32 → β) (hs : s.len = 1)
    (hi : s.row 0 = .ok i) (h : (Column.vector dim data).vectorAt i = .ok (some v)) :
    (List.range s.len).mapM (fun k => do
      match ← (Column.vector dim data).vectorAt (← s.row k) with
      | some v => return g v
      | none => (crash "Option::unwrap" : Exec β)) = .ok [g v] := by
  rw [hs]
  refine mapM_singleton ?_
  rw [hi, ok_bind, h, ok_bind]
  rfl

/-- Both selections read one vector, and the same. -/
theorem reads_vector {dim : UInt64} {data data' v : List F32} {j : Nat} (s s' : Sel)
    (hs : s.len = 1) (hs' : s'.len = 1) (hi : s.row 0 = .ok i) (hj : s'.row 0 = .ok j)
    (h : (Column.vector dim data).vectorAt i = .ok (some v))
    (h' : (Column.vector dim data').vectorAt j = .ok (some v)) :
    (Column.vector dim data).Reads (.vector dim data') s s' := by
  constructor
  · have hl := vectors_one id hs hi h
    have hr := vectors_one id hs' hj h'
    exact congrArg (· >>= fun rows => pure (Arr.vector dim rows)) (hl.trans hr.symm)
  · intro rt metric q
    change (if dim.toNat ≠ q.length then _ else _) = (if dim.toNat ≠ q.length then _ else _)
    by_cases hdim : dim.toNat ≠ q.length
    · rw [if_pos hdim, if_pos hdim]
    · rw [if_neg hdim, if_neg hdim]
      have hl := vectors_one (distanceOf rt metric · q) hs hi h
      exact hl.trans (vectors_one (distanceOf rt metric · q) hs' hj h').symm

/-- A column that answers with `v`, of bytes that are 0 or 1 where it is a column of them. -/
theorem holds_of_get {c : Column} {v : Value} (hty : v.typeOf = c.dataType)
    (hbytes : ∀ w, c = .bool w → ∀ b ∈ w, b = 0 ∨ b = 1) (h : c.get i = .ok v) : c.Holds i v := by
  cases c with
  | i64 w =>
    obtain ⟨x, hx, rfl⟩ := bind_pure_eq_ok.mp h
    refine ⟨?_, fun _ _ _ => rfl⟩
    exact bind_pure_eq_ok.mpr ⟨[x], mapM_singleton hx, rfl⟩
  | f64 w =>
    obtain ⟨x, hx, rfl⟩ := bind_pure_eq_ok.mp h
    refine ⟨?_, fun _ _ _ => rfl⟩
    exact bind_pure_eq_ok.mpr ⟨[x], mapM_singleton hx, rfl⟩
  | bool w =>
    obtain ⟨x, hx, rfl⟩ := bind_pure_eq_ok.mp h
    refine ⟨?_, fun _ _ _ => rfl⟩
    have hbyte : x = boolByte (x != 0) := by
      rcases hbytes w rfl x (List.mem_of_getElem? (index_eq_ok.mp hx)) with rfl | rfl <;> rfl
    change gather _ _ = .ok (Arr.bool [boolByte (x != 0)])
    rw [← hbyte]
    exact bind_pure_eq_ok.mpr ⟨[x], mapM_singleton hx, rfl⟩
  | str t =>
    obtain ⟨x, hx, rfl⟩ := bind_pure_eq_ok.mp h
    obtain ⟨a, b, -, -, -, -, hslice⟩ := StrColumn.get_eq_ok.mp hx
    have hshort : StrColumn.textBytes [x] < 2 ^ 32 := by
      have hlen := congrArg List.length hslice
      have hb := b.toNat_lt
      simp only [slice, List.length_drop, List.length_take] at hlen
      simp only [StrColumn.textBytes, List.map_cons, List.map_nil, List.sum_cons, List.sum_nil]
      omega
    have hone := (StrColumn.get_pushed_iff [x]).mpr hshort 0 x rfl
    refine ⟨?_, fun _ _ _ => rfl⟩
    have hl : gather (.str t) (.ids [i]) = .ok (.str [x]) :=
      bind_pure_eq_ok.mpr ⟨[x], mapM_singleton hx, rfl⟩
    exact hl.trans (bind_pure_eq_ok.mpr ⟨[x], mapM_singleton hone, rfl⟩).symm
  | vector dim data =>
    simp only [Column.get] at h
    by_cases hfits : (i + 1) * dim.toNat ≤ data.length
    · rw [if_pos hfits] at h
      obtain rfl := Except.ok.inj h
      let x := (data.drop (i * dim.toNat)).take dim.toNat
      have hlen : x.length = dim.toNat := by
        rw [List.length_take, List.length_drop]
        rw [Nat.add_mul] at hfits
        omega
      have hdim : UInt64.ofNat x.length = dim := DataType.vector.inj hty
      have hwhole : x = (x.drop (0 * dim.toNat)).take dim.toNat := by
        rw [Nat.zero_mul, List.drop_zero, List.take_of_length_le hlen.le]
      have hone : (Column.vector dim x).vectorAt 0 = .ok (some x) := by
        simp only [Column.vectorAt]
        rw [if_pos (by omega), ← hwhole]
      have hreads := reads_vector (.ids [i]) (.all 1) rfl rfl rfl rfl (if_pos hfits) hone
      change (Column.vector dim data).Reads (.vector (UInt64.ofNat x.length) x) (.ids [i]) (.all 1)
      rwa [hdim]
    · rw [if_neg hfits] at h
      cases h

end Holding

end Veldb
