import Veldb.Rows

/-! Calls, casts and columns row by row. Two calls read an argument of the whole
selection at its first row. -/

namespace Veldb

open Attempts Arr

variable {rt : Runtime} {α β γ : Type} {n N i : Nat} {v v' a : Arr}

theorem cast_row {ty : DataType} (hv : v.Sized N) (hi : i < N) (h : cast rt v ty = .ok a)
    (hv' : v.row i = .ok v') : ∃ a', a.row i = .ok a' ∧ cast rt v' ty = .ok a' := by
  cases ty with
  | i64 =>
    cases v with
    | str w =>
      obtain ⟨x, hx, rfl⟩ := row_str.mp hv'
      obtain rfl := Except.ok.inj h
      exact ⟨_, row_i64.mpr ⟨_, pick_map _ hx, rfl⟩, rfl⟩
    | i64 w => obtain ⟨x, hx, rfl⟩ := row_i64.mp hv'; exact toF64_map_row row_i64 h hv'
    | f64 w => obtain ⟨x, hx, rfl⟩ := row_f64.mp hv'; exact toF64_map_row row_i64 h hv'
    | bool w => obtain ⟨x, hx, rfl⟩ := row_bool.mp hv'; exact toF64_map_row row_i64 h hv'
    | vector dim w => cases h
  | f64 =>
    have hfloat : (do return .f64 (← v.toF64) : Exec Arr) = .ok a → ∃ a', a.row i = .ok a' ∧
        (do return .f64 (← v'.toF64) : Exec Arr) = .ok a' := by
      intro h
      obtain ⟨w, hw, rfl⟩ := bind_pure_eq_ok.mp h
      obtain ⟨-, x, hx, hx'⟩ := toF64_row hw hv'
      exact ⟨_, row_f64.mpr ⟨_, hx, rfl⟩, bind_pure_eq_ok.mpr ⟨_, hx', rfl⟩⟩
    cases v with
    | str w =>
      obtain ⟨x, hx, rfl⟩ := row_str.mp hv'
      obtain rfl := Except.ok.inj h
      exact ⟨_, row_f64.mpr ⟨_, pick_map _ hx, rfl⟩, rfl⟩
    | i64 w => obtain ⟨x, hx, rfl⟩ := row_i64.mp hv'; exact hfloat h
    | f64 w => obtain ⟨x, hx, rfl⟩ := row_f64.mp hv'; exact hfloat h
    | bool w => obtain ⟨x, hx, rfl⟩ := row_bool.mp hv'; exact hfloat h
    | vector dim w => cases h
  | bool => exact toF64_map_row row_bool h hv'
  | str =>
    obtain ⟨w, hw, rfl⟩ := bind_pure_eq_ok.mp h
    obtain ⟨x, hx, hx'⟩ := row_value hv' 0
    obtain ⟨z, hz, hpick⟩ := pick_range hw hi hv (fun h1 => by
      obtain ⟨y, hy, hy'⟩ := row_value (row_of_len_one h1 0) i
      rw [hy, hy'])
    rw [hx] at hz
    refine ⟨_, row_str.mpr ⟨z, hpick, rfl⟩, ?_⟩
    have hone : (List.range v'.len).mapM (fun j => do return render rt (← v'.value j)) =
        (.ok [z] : Exec (List String)) := by
      rw [row_len hv']
      refine mapM_singleton ?_
      rw [hx']
      exact hz
    exact bind_pure_eq_ok.mpr ⟨_, hone, rfl⟩
  | vector dim => cases h

theorem Sel.row_exists {sel : Sel} (hi : i < sel.len) : ∃ r, sel.row i = .ok r := by
  cases sel with
  | all n => exact ⟨i, rfl⟩
  | ids v => exact ⟨_, index_eq_ok.mpr (List.getElem?_eq_getElem hi)⟩

/-- A selection of all rows covers every column. -/
def Sel.Covers (sel : Sel) (f : Frame) : Prop :=
  ∀ n, sel = .all n → ∀ c ∈ f.cols, c.len = n

theorem pick_of_index {w : List α} {x : α} (hw : w.length = N) (hi : i < N)
    (hx : index w i = .ok x) : pick w i = .ok x := by
  unfold pick
  by_cases h1 : w.length = 1
  · obtain rfl : i = 0 := by omega
    rwa [if_pos h1]
  · rwa [if_neg h1]

theorem pick_selected {sel : Sel} {r : Nat} {g : Nat → Exec γ} {w : List γ}
    (h : (List.range sel.len).mapM (fun i => do g (← sel.row i)) = .ok w) (hi : i < sel.len)
    (hr : sel.row i = .ok r) :
    ∃ z, pick w i = .ok z ∧
      (List.range (Sel.ids [r]).len).mapM (fun i => do g (← (Sel.ids [r]).row i)) = .ok [z] := by
  obtain ⟨z, hz, hpick⟩ := pick_range h hi (Or.inl rfl) (fun h1 => by
    obtain rfl : i = 0 := by omega
    rfl)
  rw [hr] at hz
  exact ⟨z, hpick, mapM_singleton hz⟩

theorem pick_gathered {ids : List Nat} {w u : List α} {r : Nat} (h : ids.mapM (index w) = .ok u)
    (hr : index ids i = .ok r) :
    ∃ x, pick u i = .ok x ∧ [r].mapM (index w) = .ok [x] := by
  have hlen := mapM_length h
  rw [index_eq_ok] at hr
  obtain ⟨hi, rfl⟩ := List.getElem?_eq_some_iff.mp hr
  obtain ⟨x, hx, hu⟩ := mapM_getElem h hi
  exact ⟨x, pick_of_index hlen hi (index_eq_ok.mpr hu), mapM_singleton hx⟩

theorem gatherDense_row {mk : List β → Arr} {w : List β} {sel : Sel} {r : Nat}
    (hmk : ∀ {w i b}, (mk w).row i = .ok b ↔ ∃ x, pick w i = .ok x ∧ mk [x] = b)
    (hcov : ∀ n, sel = .all n → w.length = n) (hi : i < sel.len) (hr : sel.row i = .ok r)
    (h : gatherDense mk w sel = .ok a) :
    ∃ a', a.row i = .ok a' ∧ gatherDense mk w (.ids [r]) = .ok a' := by
  have hx : ∃ u x, mk u = a ∧ pick u i = .ok x ∧ [r].mapM (index w) = .ok [x] := by
    cases sel with
    | all n =>
      have hw := hcov n rfl
      have hx : index w i = .ok (w.get ⟨i, hw ▸ hi⟩) := index_eq_ok.mpr (List.getElem?_eq_getElem _)
      obtain rfl := Except.ok.inj hr
      exact ⟨w, _, Except.ok.inj h, pick_of_index hw hi hx, mapM_singleton hx⟩
    | ids v =>
      obtain ⟨u, hu, ha⟩ := bind_pure_eq_ok.mp h
      obtain ⟨x, hx, hx'⟩ := pick_gathered hu hr
      exact ⟨u, x, ha, hx, hx'⟩
  obtain ⟨u, x, rfl, hpick, hone⟩ := hx
  exact ⟨_, hmk.mpr ⟨x, hpick, rfl⟩, bind_pure_eq_ok.mpr ⟨_, hone, rfl⟩⟩

theorem gather_row {c : Column} {sel : Sel} {r : Nat} (hcov : ∀ n, sel = .all n → c.len = n)
    (hi : i < sel.len) (hr : sel.row i = .ok r) (h : gather c sel = .ok a) :
    ∃ a', a.row i = .ok a' ∧ gather c (.ids [r]) = .ok a' := by
  cases c with
  | i64 w => exact gatherDense_row row_i64 hcov hi hr h
  | f64 w => exact gatherDense_row row_f64 hcov hi hr h
  | bool w => exact gatherDense_row row_bool hcov hi hr h
  | str s =>
    obtain ⟨u, hu, rfl⟩ := bind_pure_eq_ok.mp h
    obtain ⟨x, hx, hx'⟩ := pick_selected hu hi hr
    exact ⟨_, row_str.mpr ⟨x, hx, rfl⟩, bind_pure_eq_ok.mpr ⟨_, hx', rfl⟩⟩
  | vector dim data =>
    obtain ⟨u, hu, rfl⟩ := bind_pure_eq_ok.mp h
    obtain ⟨x, hx, hx'⟩ := pick_selected hu hi hr
    exact ⟨_, row_vector.mpr ⟨x, hx, rfl⟩, bind_pure_eq_ok.mpr ⟨_, hx', rfl⟩⟩

theorem distances_row {c : Column} {sel : Sel} {r : Nat} {metric : Metric} {q : List F32}
    {w : List F64} (hi : i < sel.len) (hr : sel.row i = .ok r)
    (h : distances rt c sel metric q = .ok w) :
    ∃ x, pick w i = .ok x ∧ distances rt c (.ids [r]) metric q = .ok [x] := by
  cases c with
  | vector dim data =>
    unfold distances at h ⊢
    simp only at h ⊢
    by_cases hd : dim.toNat ≠ q.length
    · rw [if_pos hd] at h
      cases h
    · rw [if_neg hd] at h ⊢
      exact pick_selected h hi hr
  | _ => cases h

/-- `args'` are row `i` of the arguments `args` of a call over `N` rows. -/
def ArgsRow (N i : Nat) (args args' : List Arr) : Prop :=
  List.Forall₂ (fun a a' => a.Sized N ∧ a.row i = .ok a') args args'

section Calls

variable {args args' : List Arr}

theorem ArgsRow.at_index {k : Nat} (h : ArgsRow N i args args') (ha : index args k = .ok a) :
    ∃ a', index args' k = .ok a' ∧ a.Sized N ∧ a.row i = .ok a' := by
  rw [index_eq_ok] at ha
  obtain ⟨hk, rfl⟩ := List.getElem?_eq_some_iff.mp ha
  have hk' : k < args'.length := h.length_eq ▸ hk
  obtain ⟨hs, hr⟩ := h.get hk hk'
  exact ⟨args'[k], index_eq_ok.mpr (List.getElem?_eq_getElem hk'), hs, hr⟩

theorem ArgsRow.getElem?_none {k : Nat} (h : ArgsRow N i args args') (ha : args[k]? = none) :
    args'[k]? = none := by
  rw [List.getElem?_eq_none_iff] at *
  exact h.length_eq ▸ ha

theorem callLen_one (h : callLen args = 1) : ∀ a ∈ args, a.len = 1 := by
  unfold callLen at h
  cases hfind : (args.map Arr.len).find? (· != 1) with
  | none => simpa using hfind
  | some l =>
    have hl := List.find?_some hfind
    rw [hfind] at h
    simp_all

theorem callLen_index {k : Nat} (h : callLen args = 1) (ha : index args k = .ok a) : a.len = 1 :=
  callLen_one h _ (List.mem_of_getElem? (index_eq_ok.mp ha))

theorem callLen_cases (args : List Arr) : callLen args = 1 ∨ ∃ a ∈ args, a.len = callLen args := by
  unfold callLen
  cases hfind : (args.map Arr.len).find? (· != 1) with
  | none => exact Or.inl rfl
  | some l =>
    obtain ⟨a, ha, hl⟩ := List.mem_map.mp (List.mem_of_find?_eq_some hfind)
    exact Or.inr ⟨a, ha, hl⟩

theorem ArgsRow.callLen_sized (h : ArgsRow N i args args') :
    callLen args = N ∨ callLen args = 1 := by
  rcases callLen_cases args with h1 | ⟨a, ha, hl⟩
  · exact Or.inr h1
  · obtain ⟨k, hk, rfl⟩ := List.mem_iff_getElem.mp ha
    exact hl ▸ (h.get hk (h.length_eq ▸ hk)).1

theorem ArgsRow.callLen_row (h : ArgsRow N i args args') : callLen args' = 1 := by
  rcases callLen_cases args' with h1 | ⟨a, ha, hl⟩
  · exact h1
  · obtain ⟨k, hk, rfl⟩ := List.mem_iff_getElem.mp ha
    exact hl.symm.trans (row_len (h.get (h.length_eq ▸ hk) hk).2)

theorem floatCall_row {g : F64 → F64} (hA : ArgsRow N i args args')
    (h : floatCall g args = .ok a) : ∃ a', a.row i = .ok a' ∧ floatCall g args' = .ok a' := by
  obtain ⟨v, hv, h⟩ := bind_eq_ok.mp h
  obtain ⟨v', hv', -, hrow⟩ := hA.at_index hv
  obtain ⟨a', ha, ha'⟩ := toF64_map_row row_f64 h hrow
  exact ⟨a', ha, bind_eq_ok.mpr ⟨v', hv', ha'⟩⟩

theorem extractCall_row {func : ScalarFunc} (hA : ArgsRow N i args args')
    (h : extractCall func args = .ok a) :
    ∃ a', a.row i = .ok a' ∧ extractCall func args' = .ok a' := by
  obtain ⟨v, hv, h⟩ := bind_eq_ok.mp h
  obtain ⟨v', hv', -, hrow⟩ := hA.at_index hv
  obtain ⟨a', ha, ha'⟩ := toF64_map_row row_i64 h hrow
  exact ⟨a', ha, bind_eq_ok.mpr ⟨v', hv', ha'⟩⟩

theorem caseCall_row {g : String → String} (hA : ArgsRow N i args args')
    (h : caseCall g args = .ok a) : ∃ a', a.row i = .ok a' ∧ caseCall g args' = .ok a' := by
  obtain ⟨v, hv, h⟩ := bind_eq_ok.mp h
  obtain ⟨v', hv', -, hrow⟩ := hA.at_index hv
  cases v with
  | str s =>
    obtain ⟨x, hx, rfl⟩ := row_str.mp hrow
    obtain rfl := Except.ok.inj h
    exact ⟨_, row_str.mpr ⟨_, pick_map _ hx, rfl⟩, bind_eq_ok.mpr ⟨_, hv', rfl⟩⟩
  | _ => cases h

theorem ifPick_row {cond : List UInt8} {x y w : List α} {c : UInt8} {p q : α}
    (hn : n = N ∨ n = 1) (hi : i < N)
    (hone : n = 1 → cond.length = 1 ∧ x.length = 1 ∧ y.length = 1)
    (h : ifPick n cond x y = .ok w) (hc : pick cond i = .ok c) (hp : pick x i = .ok p)
    (hq : pick y i = .ok q) :
    ∃ z, pick w i = .ok z ∧ ifPick 1 [c] [p] [q] = .ok [z] := by
  obtain ⟨z, hz, hw⟩ := pick_range h hi hn (fun h1 => by
    obtain ⟨hc1, hx1, hy1⟩ := hone h1
    rw [pick_const hc1 0 i, pick_const hx1 0 i, pick_const hy1 0 i])
  rw [hc, hp, hq] at hz
  exact ⟨z, hw, mapM_singleton hz⟩

theorem ifBranches_eq_floats {cond : List UInt8} {x y : Arr}
    (h : ¬ (x.dataType = .str ∧ y.dataType = .str)) :
    ifBranches n cond x y = (do return .f64 (← ifPick n cond (← x.toF64) (← y.toF64))) := by
  cases x <;> cases y <;> first | rfl | exact absurd ⟨rfl, rfl⟩ h

theorem ifBranches_row {cond : List UInt8} {c : UInt8} {x y x' y' : Arr} (hn : n = N ∨ n = 1)
    (hi : i < N) (hone : n = 1 → cond.length = 1 ∧ x.len = 1 ∧ y.len = 1)
    (h : ifBranches n cond x y = .ok a) (hc : pick cond i = .ok c) (hx : x.row i = .ok x')
    (hy : y.row i = .ok y') : ∃ a', a.row i = .ok a' ∧ ifBranches 1 [c] x' y' = .ok a' := by
  by_cases hstr : x.dataType = .str ∧ y.dataType = .str
  · cases x with
    | str xs =>
      cases y with
      | str ys =>
        obtain ⟨p, hp, rfl⟩ := row_str.mp hx
        obtain ⟨q, hq, rfl⟩ := row_str.mp hy
        obtain ⟨w, hw, rfl⟩ := bind_pure_eq_ok.mp h
        obtain ⟨z, hz, hz'⟩ := ifPick_row hn hi hone hw hc hp hq
        exact ⟨_, row_str.mpr ⟨z, hz, rfl⟩, bind_pure_eq_ok.mpr ⟨_, hz', rfl⟩⟩
      | _ => cases hstr.2
    | _ => cases hstr.1
  · rw [ifBranches_eq_floats hstr] at h
    rw [← row_dataType hx, ← row_dataType hy] at hstr
    rw [ifBranches_eq_floats hstr]
    obtain ⟨xs, hxf, h⟩ := bind_eq_ok.mp h
    obtain ⟨ys, hyf, h⟩ := bind_eq_ok.mp h
    obtain ⟨w, hw, rfl⟩ := bind_pure_eq_ok.mp h
    obtain ⟨hxl, p, hp, hp'⟩ := toF64_row hxf hx
    obtain ⟨hyl, q, hq, hq'⟩ := toF64_row hyf hy
    obtain ⟨z, hz, hz'⟩ := ifPick_row hn hi (by rwa [hxl, hyl]) hw hc hp hq
    refine ⟨_, row_f64.mpr ⟨z, hz, rfl⟩, ?_⟩
    rw [hp', ok_bind, hq', ok_bind, hz']
    rfl

theorem ifCall_row (hA : ArgsRow N i args args') (hi : i < N) (h : ifCall args = .ok a) :
    ∃ a', a.row i = .ok a' ∧ ifCall args' = .ok a' := by
  unfold ifCall at h ⊢
  obtain ⟨c, hc, h⟩ := bind_eq_ok.mp h
  obtain ⟨cond, hcond, h⟩ := bind_eq_ok.mp h
  obtain ⟨x, hx, h⟩ := bind_eq_ok.mp h
  obtain ⟨y, hy, hend⟩ := bind_eq_ok.mp h
  obtain ⟨c', hc', -, hcr⟩ := hA.at_index hc
  obtain ⟨x', hx', -, hxr⟩ := hA.at_index hx
  obtain ⟨y', hy', -, hyr⟩ := hA.at_index hy
  obtain ⟨rfl, b, hb, rfl⟩ := asBool_row hcond hcr
  obtain ⟨a', ha, ha'⟩ := ifBranches_row hA.callLen_sized hi
    (fun h1 => ⟨callLen_index h1 hc, callLen_index h1 hx, callLen_index h1 hy⟩) hend hb hxr hyr
  refine ⟨a', ha, ?_⟩
  rw [hc', ok_bind, hx', hA.callLen_row]
  simp only [asBool, ok_bind, hy']
  exact ha'

theorem substringCall_row (hA : ArgsRow N i args args') (hi : i < N)
    (h : substringCall rt args = .ok a) :
    ∃ a', a.row i = .ok a' ∧ substringCall rt args' = .ok a' := by
  unfold substringCall at h ⊢
  obtain ⟨s, hs, h⟩ := bind_eq_ok.mp h
  obtain ⟨s', hs', -, hsr⟩ := hA.at_index hs
  cases s with
  | str src =>
    obtain ⟨p, hp, rfl⟩ := row_str.mp hsr
    obtain ⟨t, ht, h⟩ := bind_eq_ok.mp h
    obtain ⟨start, hstart, h⟩ := bind_eq_ok.mp h
    obtain ⟨count, hcount, h⟩ := bind_eq_ok.mp h
    obtain ⟨w, hw, rfl⟩ := bind_pure_eq_ok.mp h
    obtain ⟨t', ht', -, htr⟩ := hA.at_index ht
    obtain ⟨htl, q, hq, hq'⟩ := toF64_row hstart htr
    have hc : ∃ k, count.mapM (fun c => pick c i) = .ok k ∧
        args'[2]?.mapM Arr.toF64 = .ok (k.map (fun x => [x])) ∧
        (callLen args = 1 → count.mapM (fun c => pick c 0) = count.mapM (fun c => pick c i)) := by
      cases ha2 : args[2]? with
      | none =>
        rw [ha2] at hcount
        obtain rfl := Except.ok.inj hcount
        exact ⟨none, rfl, by rw [hA.getElem?_none ha2]; rfl, fun _ => rfl⟩
      | some u =>
        obtain ⟨u', hu', -, hur⟩ := hA.at_index (index_eq_ok.mpr ha2)
        rw [ha2] at hcount
        obtain ⟨cs, hcs, rfl⟩ := map_eq_ok.mp hcount
        obtain ⟨hul, k, hk, hk'⟩ := toF64_row hcs hur
        refine ⟨some k, map_eq_ok.mpr ⟨k, hk, rfl⟩, ?_, ?_⟩
        · rw [index_eq_ok.mp hu']
          exact map_eq_ok.mpr ⟨[k], hk', rfl⟩
        · intro h1
          have hl := callLen_index h1 (index_eq_ok.mpr ha2)
          simp only [Option.mapM_some, pick_const (hul.trans hl) 0 i]
    obtain ⟨k, hk, hk', hk0⟩ := hc
    obtain ⟨z, hz, hpick⟩ := pick_range hw hi hA.callLen_sized (fun h1 => by
      rw [pick_const (callLen_index h1 hs) 0 i,
        pick_const (htl.trans (callLen_index h1 ht)) 0 i, hk0 h1])
    rw [hp, hq, hk] at hz
    refine ⟨_, row_str.mpr ⟨z, hpick, rfl⟩, ?_⟩
    rw [hs', ok_bind]
    simp only [ht', ok_bind, hq', hk', hA.callLen_row]
    refine bind_pure_eq_ok.mpr ⟨_, mapM_singleton ?_, rfl⟩
    cases k with
    | none => exact hz
    | some x => exact hz
  | _ => cases h

/-- The argument a call reads at the first row for all rows. -/
def sharedArg : ScalarFunc → Option Nat
  | .round => some 1
  | .dateTrunc => some 0
  | _ => none

/-- The arguments of a row, the shared one taken from the first row. -/
def withShared (func : ScalarFunc) (first own : List Arr) : List Arr :=
  match sharedArg func with
  | none => own
  | some k =>
    match first[k]? with
    | some a => own.set k a
    | none => own

theorem withShared_absent {func : ScalarFunc} {first own : List Arr} {k : Nat}
    (hk : sharedArg func = some k) (ha : first[k]? = none) : withShared func first own = own := by
  simp [withShared, hk, ha]

theorem withShared_present {func : ScalarFunc} {first own : List Arr} {k : Nat}
    (hk : sharedArg func = some k) (ha : first[k]? = some a) :
    withShared func first own = own.set k a := by
  simp [withShared, hk, ha]

theorem pick_zero {v : List α} {x : α} (h : pick v 0 = .ok x) : ∃ vs, v = x :: vs := by
  unfold pick at h
  rw [ite_self, index_eq_ok] at h
  cases v with
  | nil => cases h
  | cons y vs => exact ⟨vs, by rw [Option.some.inj h]⟩

theorem roundDigits_row {d d' : Arr} {k : Int32} (h : roundDigits (some d) = .ok k)
    (hd' : d.row 0 = .ok d') : roundDigits (some d') = .ok k := by
  obtain ⟨v, hv, rfl⟩ := bind_pure_eq_ok.mp h
  obtain ⟨-, x, hx, hx'⟩ := toF64_row hv hd'
  obtain ⟨vs, rfl⟩ := pick_zero hx
  exact bind_pure_eq_ok.mpr ⟨_, hx', rfl⟩

theorem roundCall_row {first : List Arr} (hA : ArgsRow N i args args')
    (h0 : ArgsRow N 0 args first) (h : roundCall rt args = .ok a) :
    ∃ a', a.row i = .ok a' ∧ roundCall rt (withShared .round first args') = .ok a' := by
  unfold roundCall at h ⊢
  obtain ⟨x, hx, h⟩ := bind_eq_ok.mp h
  obtain ⟨v, hv, h⟩ := bind_eq_ok.mp h
  obtain ⟨k, hk, rfl⟩ := bind_pure_eq_ok.mp h
  obtain ⟨x', hx', -, hxr⟩ := hA.at_index hx
  obtain ⟨-, p, hp, hp'⟩ := toF64_row hv hxr
  have hshare : index (withShared .round first args') 0 = .ok x' ∧
      roundDigits (withShared .round first args')[1]? = .ok k := by
    cases hd : args[1]? with
    | none =>
      rw [withShared_absent rfl (h0.getElem?_none hd), hA.getElem?_none hd]
      exact ⟨hx', by rwa [hd] at hk⟩
    | some d =>
      obtain ⟨d', hd', -, hdr⟩ := h0.at_index (index_eq_ok.mpr hd)
      obtain ⟨own, hown, -, -⟩ := hA.at_index (index_eq_ok.mpr hd)
      rw [hd] at hk
      rw [index_eq_ok] at hd' hown hx' ⊢
      have hlen := (List.getElem?_eq_some_iff.mp hown).1
      rw [withShared_present rfl hd']
      exact ⟨by simp [hx'], by simpa [hlen] using roundDigits_row hk hdr⟩
  refine ⟨_, row_f64.mpr ⟨_, pick_map _ hp, rfl⟩, ?_⟩
  rw [hshare.1, ok_bind, hp', ok_bind, hshare.2]
  rfl

theorem dateTruncCall_row {first : List Arr} (hA : ArgsRow N i args args')
    (h0 : ArgsRow N 0 args first) (h : dateTruncCall rt args = .ok a) :
    ∃ a', a.row i = .ok a' ∧ dateTruncCall rt (withShared .dateTrunc first args') = .ok a' := by
  unfold dateTruncCall at h ⊢
  obtain ⟨u, hu, h⟩ := bind_eq_ok.mp h
  obtain ⟨u', hu', -, hur⟩ := h0.at_index hu
  cases u with
  | str unit =>
    obtain ⟨p, hp, rfl⟩ := row_str.mp hur
    obtain ⟨vs, rfl⟩ := pick_zero hp
    obtain ⟨s, hs, h⟩ := bind_eq_ok.mp h
    obtain ⟨secs, hsecs, h⟩ := bind_eq_ok.mp h
    obtain ⟨first', hfirst, h⟩ := bind_eq_ok.mp h
    obtain ⟨step, hstep, h⟩ := bind_eq_ok.mp h
    obtain ⟨w, hw, rfl⟩ := bind_pure_eq_ok.mp h
    obtain rfl := Except.ok.inj hfirst
    obtain ⟨own, hown, -, -⟩ := hA.at_index hu
    obtain ⟨s', hs', -, hsr⟩ := hA.at_index hs
    obtain ⟨-, q, hq, hq'⟩ := toF64_row hsecs hsr
    obtain ⟨z, hz, hpick⟩ := pick_mapM hw hq
    have hshare : index (withShared .dateTrunc first args') 0 = .ok (.str [p]) ∧
        index (withShared .dateTrunc first args') 1 = .ok s' := by
      rw [index_eq_ok] at hu' hown hs'
      have hlen := (List.getElem?_eq_some_iff.mp hown).1
      rw [withShared_present rfl hu', index_eq_ok, index_eq_ok]
      exact ⟨by simp [hlen], by simpa using hs'⟩
    refine ⟨_, row_i64.mpr ⟨z, hpick, rfl⟩, ?_⟩
    rw [hshare.1, ok_bind]
    simp only [hshare.2, ok_bind, hq']
    refine bind_eq_ok.mpr ⟨p, rfl, bind_eq_ok.mpr ⟨step, hstep, ?_⟩⟩
    exact bind_pure_eq_ok.mpr ⟨_, mapM_singleton hz, rfl⟩
  | _ => cases h

/-- A call gives at row `i` what it gives on the arguments of that row alone, up to
the argument it shares. -/
theorem scalarFunc_row {func : ScalarFunc} {first : List Arr} (hA : ArgsRow N i args args')
    (h0 : ArgsRow N 0 args first) (hi : i < N) (h : scalarFunc rt func args = .ok a) :
    ∃ a', a.row i = .ok a' ∧ scalarFunc rt func (withShared func first args') = .ok a' := by
  cases func with
  | length =>
    obtain ⟨v, hv, h⟩ := bind_eq_ok.mp h
    obtain ⟨v', hv', -, hrow⟩ := hA.at_index hv
    cases v with
    | str s =>
      obtain ⟨x, hx, rfl⟩ := row_str.mp hrow
      obtain rfl := Except.ok.inj h
      exact ⟨_, row_i64.mpr ⟨_, pick_map _ hx, rfl⟩, bind_eq_ok.mpr ⟨_, hv', rfl⟩⟩
    | _ => cases h
  | lower => exact caseCall_row hA h
  | upper => exact caseCall_row hA h
  | abs =>
    obtain ⟨v, hv, h⟩ := bind_eq_ok.mp h
    obtain ⟨v', hv', -, hrow⟩ := hA.at_index hv
    cases v with
    | i64 s =>
      obtain ⟨x, hx, rfl⟩ := row_i64.mp hrow
      obtain rfl := Except.ok.inj h
      exact ⟨_, row_i64.mpr ⟨_, pick_map _ hx, rfl⟩, bind_eq_ok.mpr ⟨_, hv', rfl⟩⟩
    | f64 s =>
      obtain ⟨x, hx, rfl⟩ := row_f64.mp hrow
      obtain ⟨a', ha, ha'⟩ := toF64_map_row row_f64 h hrow
      exact ⟨a', ha, bind_eq_ok.mpr ⟨_, hv', ha'⟩⟩
    | bool s =>
      obtain ⟨x, hx, rfl⟩ := row_bool.mp hrow
      obtain ⟨a', ha, ha'⟩ := toF64_map_row row_f64 h hrow
      exact ⟨a', ha, bind_eq_ok.mpr ⟨_, hv', ha'⟩⟩
    | str s => cases h
    | vector dim s => cases h
  | floor => exact floatCall_row hA h
  | ceil => exact floatCall_row hA h
  | sqrt => exact floatCall_row hA h
  | round => exact roundCall_row hA h0 h
  | substring => exact substringCall_row hA hi h
  | extractHour => exact extractCall_row hA h
  | extractMinute => exact extractCall_row hA h
  | extractDay => exact extractCall_row hA h
  | extractMonth => exact extractCall_row hA h
  | extractYear => exact extractCall_row hA h
  | coalesce =>
    obtain ⟨v', hv', -, hrow⟩ := hA.at_index h
    exact ⟨v', hrow, hv'⟩
  | ifThen => exact ifCall_row hA hi h
  | dateTrunc => exact dateTruncCall_row hA h0 h

end Calls

end Veldb
