import Veldb.Library.Attempts
import Veldb.Eval

/-! Taking one row out of an array commutes with the operations of evaluation. -/

namespace Veldb

open Attempts

variable {rt : Runtime} {α β γ : Type} {n N i j : Nat}

theorem pick_const {v : List α} (hv : v.length = 1) (i j : Nat) : pick v i = pick v j := by
  unfold pick
  rw [if_pos hv, if_pos hv]

theorem pick_map {v : List α} {x : α} (g : α → β) (h : pick v i = .ok x) :
    pick (v.map g) i = .ok (g x) := by
  unfold pick at *
  rw [index_eq_ok] at *
  simp [h]

theorem pick_exists {v : List α} (hi : i < n) (hv : v.length = n ∨ v.length = 1) :
    ∃ x, pick v i = .ok x := by
  unfold pick
  by_cases h1 : v.length = 1
  · rw [if_pos h1]
    exact ⟨_, index_eq_ok.mpr (List.getElem?_eq_getElem (by omega))⟩
  · rw [if_neg h1]
    exact ⟨_, index_eq_ok.mpr (List.getElem?_eq_getElem (by omega))⟩

/-- A loop over the rows gives at row `i` what its body gives there, a loop of one
turn being broadcast. -/
theorem pick_range {g : Nat → Exec γ} {w : List γ} (h : (List.range n).mapM g = .ok w)
    (hi : i < N) (hn : n = N ∨ n = 1) (hconst : n = 1 → g 0 = g i) :
    ∃ z, g i = .ok z ∧ pick w i = .ok z := by
  have hlen := mapM_range_length h
  unfold pick
  by_cases h1 : n = 1
  · obtain ⟨z, hz, hw⟩ := mapM_range_getElem h (i := 0) (by omega)
    exact ⟨z, (hconst h1) ▸ hz, by rw [if_pos (hlen.trans h1), index_eq_ok, hw]⟩
  · obtain ⟨z, hz, hw⟩ := mapM_range_getElem h (i := i) (by omega)
    exact ⟨z, hz, by rw [if_neg (hlen ▸ h1), index_eq_ok, hw]⟩

theorem pick_mapM {g : α → Exec β} {v : List α} {w : List β} {x : α} (h : v.mapM g = .ok w)
    (hx : pick v i = .ok x) : ∃ y, g x = .ok y ∧ pick w i = .ok y := by
  have hlen := mapM_length h
  unfold pick at *
  rw [index_eq_ok] at hx
  rw [hlen]
  obtain ⟨hj, rfl⟩ := List.getElem?_eq_some_iff.mp hx
  obtain ⟨y, hy, hw⟩ := mapM_getElem h hj
  exact ⟨y, hy, index_eq_ok.mpr hw⟩

theorem pairLen_eq_ok {l r : Nat} (h : pairLen l r = .ok n) :
    (l = r ∧ n = l) ∨ (l = 1 ∧ n = r) ∨ (r = 1 ∧ n = l) := by
  rw [pairLen_source] at h
  by_cases hlr : l = r
  · rw [if_pos hlr] at h
    exact Or.inl ⟨hlr, (Except.ok.inj h).symm⟩
  rw [if_neg hlr] at h
  by_cases hl : l = 1
  · rw [if_pos hl] at h
    exact Or.inr (Or.inl ⟨hl, (Except.ok.inj h).symm⟩)
  rw [if_neg hl] at h
  by_cases hr : r = 1
  · rw [if_pos hr] at h
    exact Or.inr (Or.inr ⟨hr, (Except.ok.inj h).symm⟩)
  · rw [if_neg hr] at h
    cases h

theorem zipMap_length {l : List α} {r : List β} {f : α → β → Exec γ} {w : List γ}
    (h : zipMap n l r f = .ok w) : w.length = n :=
  mapM_range_length h

theorem zipMap_pick {l : List α} {r : List β} {f : α → β → Exec γ} {w : List γ} {x : α} {y : β}
    (hn : pairLen l.length r.length = .ok n) (hl : l.length = N ∨ l.length = 1)
    (hr : r.length = N ∨ r.length = 1) (hi : i < N) (h : zipMap n l r f = .ok w)
    (hx : pick l i = .ok x) (hy : pick r i = .ok y) :
    ∃ z, pick w i = .ok z ∧ zipMap 1 [x] [y] f = .ok [z] := by
  have hlen := pairLen_eq_ok hn
  have hone : n = 1 → l.length = 1 ∧ r.length = 1 := by omega
  obtain ⟨z, hz, hw⟩ := pick_range h hi (by omega) (fun h1 => by
    rw [pick_const (hone h1).1 0 i, pick_const (hone h1).2 0 i])
  rw [hx, hy] at hz
  exact ⟨z, hw, mapM_singleton hz⟩

namespace Arr

def row (a : Arr) (i : Nat) : Exec Arr :=
  match a with
  | .i64 v => return .i64 [← pick v i]
  | .f64 v => return .f64 [← pick v i]
  | .bool v => return .bool [← pick v i]
  | .str v => return .str [← pick v i]
  | .vector dim rows => return .vector dim [← pick rows i]

def Sized (n : Nat) (a : Arr) : Prop := a.len = n ∨ a.len = 1

variable {a b : Arr}

theorem row_i64 {v : List Int64} :
    (i64 v).row i = .ok b ↔ ∃ x, pick v i = .ok x ∧ i64 [x] = b :=
  bind_pure_eq_ok

theorem row_f64 {v : List F64} :
    (f64 v).row i = .ok b ↔ ∃ x, pick v i = .ok x ∧ f64 [x] = b :=
  bind_pure_eq_ok

theorem row_bool {v : List UInt8} :
    (bool v).row i = .ok b ↔ ∃ x, pick v i = .ok x ∧ bool [x] = b :=
  bind_pure_eq_ok

theorem row_str {v : List String} :
    (str v).row i = .ok b ↔ ∃ x, pick v i = .ok x ∧ str [x] = b :=
  bind_pure_eq_ok

theorem row_vector {dim : UInt64} {rows : List (List F32)} :
    (vector dim rows).row i = .ok b ↔ ∃ x, pick rows i = .ok x ∧ vector dim [x] = b :=
  bind_pure_eq_ok

theorem row_len (h : a.row i = .ok b) : b.len = 1 := by
  cases a with
  | i64 v => obtain ⟨x, -, rfl⟩ := row_i64.mp h; rfl
  | f64 v => obtain ⟨x, -, rfl⟩ := row_f64.mp h; rfl
  | bool v => obtain ⟨x, -, rfl⟩ := row_bool.mp h; rfl
  | str v => obtain ⟨x, -, rfl⟩ := row_str.mp h; rfl
  | vector dim rows => obtain ⟨x, -, rfl⟩ := row_vector.mp h; rfl

theorem row_value (h : a.row i = .ok b) (j : Nat) : ∃ v, a.value i = .ok v ∧ b.value j = .ok v := by
  cases a with
  | i64 v =>
    obtain ⟨x, hx, rfl⟩ := row_i64.mp h
    exact ⟨.i64 x, by simp [value, hx, ok_bind, pure, Except.pure], rfl⟩
  | f64 v =>
    obtain ⟨x, hx, rfl⟩ := row_f64.mp h
    exact ⟨.f64 x, by simp [value, hx, ok_bind, pure, Except.pure], rfl⟩
  | bool v =>
    obtain ⟨x, hx, rfl⟩ := row_bool.mp h
    exact ⟨.bool (x != 0), by simp [value, hx, ok_bind, pure, Except.pure], rfl⟩
  | str v =>
    obtain ⟨x, hx, rfl⟩ := row_str.mp h
    exact ⟨.str x, by simp [value, hx, ok_bind, pure, Except.pure], rfl⟩
  | vector dim rows =>
    obtain ⟨x, hx, rfl⟩ := row_vector.mp h
    exact ⟨.vector x, by simp [value, hx, ok_bind, pure, Except.pure], rfl⟩

theorem row_exists (ha : a.Sized N) (hi : i < N) : ∃ b, a.row i = .ok b := by
  cases a with
  | i64 v => obtain ⟨x, hx⟩ := pick_exists hi ha; exact ⟨_, row_i64.mpr ⟨x, hx, rfl⟩⟩
  | f64 v => obtain ⟨x, hx⟩ := pick_exists hi ha; exact ⟨_, row_f64.mpr ⟨x, hx, rfl⟩⟩
  | bool v => obtain ⟨x, hx⟩ := pick_exists hi ha; exact ⟨_, row_bool.mpr ⟨x, hx, rfl⟩⟩
  | str v => obtain ⟨x, hx⟩ := pick_exists hi ha; exact ⟨_, row_str.mpr ⟨x, hx, rfl⟩⟩
  | vector dim rows => obtain ⟨x, hx⟩ := pick_exists hi ha; exact ⟨_, row_vector.mpr ⟨x, hx, rfl⟩⟩

theorem asBool_row {v : List UInt8} (h : a.asBool = .ok v) (hb : a.row i = .ok b) :
    a = bool v ∧ ∃ x, pick v i = .ok x ∧ bool [x] = b := by
  cases a with
  | bool w =>
    obtain rfl := Except.ok.inj h
    exact ⟨rfl, row_bool.mp hb⟩
  | _ => cases h

theorem toF64_row {v : List F64} (h : a.toF64 = .ok v) (hb : a.row i = .ok b) :
    v.length = a.len ∧ ∃ x, pick v i = .ok x ∧ b.toF64 = .ok [x] := by
  cases a with
  | f64 w =>
    obtain rfl := Except.ok.inj h
    obtain ⟨x, hx, rfl⟩ := row_f64.mp hb
    exact ⟨rfl, x, hx, rfl⟩
  | i64 w =>
    obtain rfl := Except.ok.inj h
    obtain ⟨x, hx, rfl⟩ := row_i64.mp hb
    exact ⟨List.length_map _, _, pick_map _ hx, rfl⟩
  | bool w =>
    obtain rfl := Except.ok.inj h
    obtain ⟨x, hx, rfl⟩ := row_bool.mp hb
    exact ⟨List.length_map _, _, pick_map _ hx, rfl⟩
  | _ => cases h

theorem row_dataType (h : a.row i = .ok b) : b.dataType = a.dataType := by
  cases a with
  | i64 v => obtain ⟨x, -, rfl⟩ := row_i64.mp h; rfl
  | f64 v => obtain ⟨x, -, rfl⟩ := row_f64.mp h; rfl
  | bool v => obtain ⟨x, -, rfl⟩ := row_bool.mp h; rfl
  | str v => obtain ⟨x, -, rfl⟩ := row_str.mp h; rfl
  | vector dim rows => obtain ⟨x, -, rfl⟩ := row_vector.mp h; rfl

end Arr

open Arr

section Binary

variable {op : BinOp} {l r l' r' a : Arr}

theorem zipMap_row {mk : List γ → Arr} {ls : List α} {rs : List β} {f : α → β → Exec γ} {x : α}
    {y : β} (hmk : ∀ {w i b}, (mk w).row i = .ok b ↔ ∃ x, pick w i = .ok x ∧ mk [x] = b)
    (hlen : ∀ w, (mk w).len = w.length) (hn : pairLen ls.length rs.length = .ok n)
    (hl : ls.length = N ∨ ls.length = 1) (hr : rs.length = N ∨ rs.length = 1) (hi : i < N)
    (hx : pick ls i = .ok x) (hy : pick rs i = .ok y)
    (h : (do return mk (← zipMap n ls rs f)) = .ok a) :
    a.len = n ∧ ∃ a', a.row i = .ok a' ∧ (do return mk (← zipMap 1 [x] [y] f)) = .ok a' := by
  obtain ⟨w, hw, rfl⟩ := bind_pure_eq_ok.mp h
  obtain ⟨z, hz, hz'⟩ := zipMap_pick hn hl hr hi hw hx hy
  refine ⟨(hlen w).trans (zipMap_length hw), mk [z], hmk.mpr ⟨z, hz, rfl⟩, ?_⟩
  exact bind_pure_eq_ok.mpr ⟨[z], hz', rfl⟩

theorem evalFloats_row (hn : pairLen l.len r.len = .ok n) (hl : l.Sized N) (hr : r.Sized N)
    (hi : i < N) (h : evalFloats rt op n l r = .ok a) (hl' : l.row i = .ok l')
    (hr' : r.row i = .ok r') :
    a.len = n ∧ ∃ a', a.row i = .ok a' ∧ evalFloats rt op 1 l' r' = .ok a' := by
  unfold evalFloats at h ⊢
  obtain ⟨lf, hlf, h⟩ := bind_eq_ok.mp h
  obtain ⟨rf, hrf, h⟩ := bind_eq_ok.mp h
  obtain ⟨hllen, x, hx, hx'⟩ := toF64_row hlf hl'
  obtain ⟨hrlen, y, hy, hy'⟩ := toF64_row hrf hr'
  have hn' : pairLen lf.length rf.length = .ok n := by rw [hllen, hrlen, hn]
  have hls : lf.length = N ∨ lf.length = 1 := hllen ▸ hl
  have hrs : rf.length = N ∨ rf.length = 1 := hrlen ▸ hr
  rw [hx', hy', ok_bind, ok_bind]
  by_cases hcmp : op.isCmp = true
  · rw [if_pos hcmp] at h ⊢
    exact zipMap_row row_bool (fun _ => rfl) hn' hls hrs hi hx hy h
  · rw [if_neg hcmp] at h ⊢
    exact zipMap_row row_f64 (fun _ => rfl) hn' hls hrs hi hx hy h

theorem evalBinary_eq_floats (hop : ¬ (op = .and ∨ op = .or)) (hls : l.dataType ≠ .str)
    (hrs : r.dataType ≠ .str)
    (hint : l.dataType = .i64 → r.dataType = .i64 → op.isCmp = false ∧ op = .div) :
    evalBinary rt op l r = pairLen l.len r.len >>= fun n => evalFloats rt op n l r := by
  rw [evalBinary_eq_at]
  unfold binaryAt
  cases l <;> cases r <;> simp_all [dataType, BinOp.isCmp]

theorem evalBinary_row (hl : l.Sized N) (hr : r.Sized N) (hi : i < N)
    (h : evalBinary rt op l r = .ok a) (hl' : l.row i = .ok l') (hr' : r.row i = .ok r') :
    pairLen l.len r.len = .ok a.len ∧
      ∃ a', a.row i = .ok a' ∧ evalBinary rt op l' r' = .ok a' := by
  have hpair : pairLen l'.len r'.len = .ok 1 := by
    rw [row_len hl', row_len hr']
    rfl
  by_cases hfloat : ¬ (op = .and ∨ op = .or) ∧ l.dataType ≠ .str ∧ r.dataType ≠ .str ∧
      (l.dataType = .i64 → r.dataType = .i64 → op.isCmp = false ∧ op = .div)
  · obtain ⟨hop, hls, hrs, hint⟩ := hfloat
    rw [evalBinary_eq_floats hop hls hrs hint] at h
    obtain ⟨n, hn, h⟩ := bind_eq_ok.mp h
    obtain ⟨hlen, a', ha, ha'⟩ := evalFloats_row hn hl hr hi h hl' hr'
    rw [← row_dataType hl', ← row_dataType hr'] at *
    rw [evalBinary_eq_floats hop hls hrs hint, hpair]
    exact ⟨hlen ▸ hn, a', ha, ha'⟩
  rw [evalBinary_eq_at] at h ⊢
  unfold binaryAt at h ⊢
  obtain ⟨n, hn, h⟩ := bind_eq_ok.mp h
  rw [hpair, ok_bind, hn, Except.ok.injEq, @eq_comm _ n]
  by_cases hop : op = .and ∨ op = .or
  · rw [if_pos hop] at h ⊢
    obtain ⟨lb, hlb, h⟩ := bind_eq_ok.mp h
    obtain ⟨rb, hrb, h⟩ := bind_eq_ok.mp h
    obtain ⟨rfl, x, hx, rfl⟩ := asBool_row hlb hl'
    obtain ⟨rfl, y, hy, rfl⟩ := asBool_row hrb hr'
    exact zipMap_row row_bool (fun _ => rfl) hn hl hr hi hx hy h
  rw [if_neg hop] at h ⊢
  cases l with
  | str ls =>
    cases r with
    | str rs =>
      obtain ⟨x, hx, rfl⟩ := row_str.mp hl'
      obtain ⟨y, hy, rfl⟩ := row_str.mp hr'
      simp only at h ⊢
      by_cases hcmp : op.isCmp = true
      · rw [if_pos hcmp] at h ⊢
        exact zipMap_row row_bool (fun _ => rfl) hn hl hr hi hx hy h
      · rw [if_neg hcmp] at h
        cases h
    | _ => cases h
  | i64 ls =>
    cases r with
    | i64 rs =>
      obtain ⟨x, hx, rfl⟩ := row_i64.mp hl'
      obtain ⟨y, hy, rfl⟩ := row_i64.mp hr'
      simp only at h ⊢
      by_cases hcmp : op.isCmp = true
      · rw [if_pos hcmp] at h ⊢
        exact zipMap_row row_bool (fun _ => rfl) hn hl hr hi hx hy h
      rw [if_neg hcmp] at h ⊢
      by_cases hdiv : op ≠ .div
      · rw [if_pos hdiv] at h ⊢
        exact zipMap_row row_i64 (fun _ => rfl) hn hl hr hi hx hy h
      · simp_all [dataType]
    | str rs => cases h
    | _ => simp_all [dataType]
  | _ =>
    cases r with
    | str rs => cases h
    | _ => simp_all [dataType]

theorem Arr.Sized.of_pairLen (hl : l.Sized N) (hr : r.Sized N) (h : pairLen l.len r.len = .ok a.len) :
    a.Sized N := by
  have := pairLen_eq_ok h
  unfold Sized at *
  omega

end Binary

variable {v v' a : Arr}

theorem toF64_map_row {mk : List β → Arr} {g : F64 → β}
    (hmk : ∀ {w i b}, (mk w).row i = .ok b ↔ ∃ x, pick w i = .ok x ∧ mk [x] = b)
    (h : (do return mk ((← v.toF64).map g) : Exec Arr) = .ok a) (hv' : v.row i = .ok v') :
    ∃ a', a.row i = .ok a' ∧ (do return mk ((← v'.toF64).map g) : Exec Arr) = .ok a' := by
  obtain ⟨w, hw, rfl⟩ := bind_pure_eq_ok.mp h
  obtain ⟨-, x, hx, hx'⟩ := toF64_row hw hv'
  exact ⟨_, hmk.mpr ⟨_, pick_map _ hx, rfl⟩, bind_pure_eq_ok.mpr ⟨_, hx', rfl⟩⟩

theorem evalUnary_row {op : UnOp} (h : evalUnary op v = .ok a) (hv' : v.row i = .ok v') :
    ∃ a', a.row i = .ok a' ∧ evalUnary op v' = .ok a' := by
  cases op with
  | not =>
    obtain ⟨w, hw, rfl⟩ := bind_pure_eq_ok.mp h
    obtain ⟨rfl, x, hx, rfl⟩ := asBool_row hw hv'
    exact ⟨_, row_bool.mpr ⟨_, pick_map _ hx, rfl⟩, rfl⟩
  | neg =>
    cases v with
    | i64 w =>
      obtain ⟨x, hx, rfl⟩ := row_i64.mp hv'
      obtain rfl := Except.ok.inj h
      exact ⟨_, row_i64.mpr ⟨_, pick_map _ hx, rfl⟩, rfl⟩
    | f64 w =>
      obtain ⟨x, hx, rfl⟩ := row_f64.mp hv'
      exact toF64_map_row row_f64 h hv'
    | bool w =>
      obtain ⟨x, hx, rfl⟩ := row_bool.mp hv'
      exact toF64_map_row row_f64 h hv'
    | str w => cases h
    | vector dim rows => cases h

theorem evalLike_row {pattern : String} {negated ci : Bool}
    (h : evalLike rt v pattern negated ci = .ok a) (hv' : v.row i = .ok v') :
    ∃ a', a.row i = .ok a' ∧ evalLike rt v' pattern negated ci = .ok a' := by
  cases v with
  | str w =>
    obtain ⟨x, hx, rfl⟩ := row_str.mp hv'
    obtain rfl := Except.ok.inj h
    exact ⟨_, row_bool.mpr ⟨_, pick_map _ hx, rfl⟩, rfl⟩
  | _ => cases h

theorem checkLen_eq_ok {b : Arr} (h : checkLen n a = .ok b) : b = a ∧ a.Sized n := by
  rw [checkLen_source] at h
  by_cases hs : a.len = n ∨ a.len = 1
  · rw [if_pos hs] at h
    exact ⟨(Except.ok.inj h).symm, hs⟩
  · rw [if_neg hs] at h
    cases h

theorem checkLen_one (h : a.len = 1) (n : Nat) : checkLen n a = .ok a :=
  if_pos (Or.inr h)

theorem evalLit_len {lit : Value} (h : evalLit lit = .ok a) : a.len = 1 := by
  cases lit with
  | vector x => cases h
  | _ => obtain rfl := Except.ok.inj h; rfl

theorem row_of_len_one (h : a.len = 1) (i : Nat) : a.row i = .ok a := by
  cases a with
  | i64 v => obtain ⟨x, rfl⟩ := List.length_eq_one_iff.mp h; rfl
  | f64 v => obtain ⟨x, rfl⟩ := List.length_eq_one_iff.mp h; rfl
  | bool v => obtain ⟨x, rfl⟩ := List.length_eq_one_iff.mp h; rfl
  | str v => obtain ⟨x, rfl⟩ := List.length_eq_one_iff.mp h; rfl
  | vector dim rows => obtain ⟨x, rfl⟩ := List.length_eq_one_iff.mp h; rfl

theorem orMask_getElem? (m b : List UInt8) (hlen : m.length = b.length) (i : Nat) {x y : UInt8}
    (hx : m[i]? = some x) (hy : b[i]? = some y) : (orMask m b)[i]? = some (x ||| y) := by
  induction m generalizing b i with
  | nil => cases hx
  | cons c m ih =>
    obtain ⟨d, b, rfl⟩ := List.exists_cons_of_length_pos (l := b) (by simp at hlen; omega)
    cases i with
    | zero =>
      obtain rfl := Option.some.inj hx
      obtain rfl := Option.some.inj hy
      rfl
    | succ i => exact ih b (by simpa using hlen) i hx hy

theorem orMask_length (m b : List UInt8) : (orMask m b).length = m.length := by
  induction m generalizing b with
  | nil => rfl
  | cons c m ih =>
    cases b with
    | nil => rfl
    | cons d b => simp [orMask, ih]

theorem orMask_pick {m b : List UInt8} {x y : UInt8} (hlen : m.length = b.length)
    (hx : pick m i = .ok x) (hy : pick b i = .ok y) : pick (orMask m b) i = .ok (x ||| y) := by
  unfold pick at *
  rw [index_eq_ok] at *
  rw [orMask_length]
  exact orMask_getElem? m b hlen _ hx (hlen ▸ hy)

theorem inListStep_row {mask w : List UInt8} {lit : Value} {x : UInt8} (hv : v.Sized N)
    (hi : i < N) (hv' : v.row i = .ok v') (hlen : mask.length = v.len) (hx : pick mask i = .ok x)
    (h : inListStep rt n v mask lit = .ok w) :
    w.length = v.len ∧ ∃ y, pick w i = .ok y ∧ inListStep rt 1 v' [x] lit = .ok [y] := by
  rw [inListStep_source] at h ⊢
  obtain ⟨c, hc, h⟩ := bind_eq_ok.mp h
  obtain ⟨c', hcheck, h⟩ := bind_eq_ok.mp h
  obtain ⟨cmp, hcmp, h⟩ := bind_eq_ok.mp h
  obtain ⟨mb, hmb, rfl⟩ := bind_pure_eq_ok.mp h
  obtain ⟨rfl, -⟩ := checkLen_eq_ok hcheck
  have hc1 := evalLit_len hc
  obtain ⟨hpair, cmp', hrow, heval⟩ :=
    evalBinary_row hv (Or.inr hc1) hi hcmp hv' (row_of_len_one hc1 i)
  obtain ⟨rfl, y, hy, rfl⟩ := asBool_row hmb hrow
  have hmblen : mask.length = mb.length := by
    have := pairLen_eq_ok hpair
    simp only [len] at this hc1 hlen ⊢
    omega
  refine ⟨(orMask_length _ _).trans hlen, _, orMask_pick hmblen hx hy, ?_⟩
  rw [hc, ok_bind, checkLen_one hc1, ok_bind, heval]
  rfl

theorem inListFold_row {list : List Value} {mask w : List UInt8} {x : UInt8} (hv : v.Sized N)
    (hi : i < N) (hv' : v.row i = .ok v') (hlen : mask.length = v.len) (hx : pick mask i = .ok x)
    (h : list.foldlM (inListStep rt n v) mask = .ok w) :
    ∃ y, pick w i = .ok y ∧ list.foldlM (inListStep rt 1 v') [x] = .ok [y] := by
  induction list generalizing mask x with
  | nil =>
    obtain rfl := pure_eq_ok.mp h
    exact ⟨x, hx, rfl⟩
  | cons lit list ih =>
    rw [List.foldlM_cons] at h ⊢
    obtain ⟨mask', hstep, h⟩ := bind_eq_ok.mp h
    obtain ⟨hlen', y, hy, hstep'⟩ := inListStep_row hv hi hv' hlen hx hstep
    rw [hstep', ok_bind]
    exact ih hlen' hy h

theorem evalInList_row {list : List Value} {negated : Bool} (hv : v.Sized N) (hi : i < N)
    (h : evalInList rt n v list negated = .ok a) (hv' : v.row i = .ok v') :
    ∃ a', a.row i = .ok a' ∧ evalInList rt 1 v' list negated = .ok a' := by
  rw [evalInList_source] at h ⊢
  obtain ⟨w, hw, rfl⟩ := bind_pure_eq_ok.mp h
  have hzero : ∃ x, pick (List.replicate v.len (0 : UInt8)) i = .ok x :=
    pick_exists hi (by simpa [Sized] using hv)
  obtain ⟨x, hx⟩ := hzero
  have hx0 : x = 0 := by
    unfold pick at hx
    rw [index_eq_ok] at hx
    exact List.eq_of_mem_replicate (List.mem_of_getElem? hx)
  subst hx0
  obtain ⟨y, hy, hfold⟩ := inListFold_row hv hi hv' (by simp) hx hw
  have hrep : List.replicate v'.len (0 : UInt8) = [0] := by rw [row_len hv']; rfl
  rw [hrep, hfold]
  cases negated with
  | false => exact ⟨_, row_bool.mpr ⟨y, hy, rfl⟩, rfl⟩
  | true => exact ⟨_, row_bool.mpr ⟨_, pick_map _ hy, rfl⟩, rfl⟩

theorem negateMask_row (negated : Bool) (h : v.row i = .ok v') :
    (negateMask negated v).row i = .ok (negateMask negated v') := by
  cases v with
  | bool b =>
    obtain ⟨y, hy, rfl⟩ := row_bool.mp h
    cases negated with
    | false => exact row_bool.mpr ⟨y, hy, rfl⟩
    | true => exact row_bool.mpr ⟨_, pick_map _ hy, rfl⟩
  | i64 b => obtain ⟨y, hy, rfl⟩ := row_i64.mp h; exact h
  | f64 b => obtain ⟨y, hy, rfl⟩ := row_f64.mp h; exact h
  | str b => obtain ⟨y, hy, rfl⟩ := row_str.mp h; exact h
  | vector dim b => obtain ⟨y, hy, rfl⟩ := row_vector.mp h; exact h

theorem evalBetween_row {low high low' high' : Arr} {negated : Bool} (hv : v.Sized N)
    (hl : low.Sized N) (hh : high.Sized N) (hi : i < N)
    (h : evalBetween rt v low (.ok high) negated = .ok a) (hv' : v.row i = .ok v')
    (hl' : low.row i = .ok low') (hh' : high.row i = .ok high') :
    ∃ a', a.row i = .ok a' ∧ evalBetween rt v' low' (.ok high') negated = .ok a' := by
  rw [evalBetween_source] at h ⊢
  obtain ⟨lo, hlo, h⟩ := bind_eq_ok.mp h
  obtain ⟨hg, hhg, h⟩ := bind_eq_ok.mp h
  obtain rfl := Except.ok.inj hhg
  obtain ⟨up, hup, h⟩ := bind_eq_ok.mp h
  obtain ⟨m, hm, rfl⟩ := bind_pure_eq_ok.mp h
  obtain ⟨hlop, lo', hlo', hloe⟩ := evalBinary_row hv hl hi hlo hv' hl'
  obtain ⟨hupp, up', hup', hupe⟩ := evalBinary_row hv hh hi hup hv' hh'
  obtain ⟨-, m', hm', hme⟩ := evalBinary_row (hv.of_pairLen hl hlop) (hv.of_pairLen hh hupp) hi hm
    hlo' hup'
  refine ⟨_, negateMask_row negated hm', ?_⟩
  rw [hloe, ok_bind, ok_bind, hupe, ok_bind, hme]
  rfl

end Veldb
