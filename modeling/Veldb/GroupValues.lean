import Veldb.Library.Buckets
import Veldb.GroupedFrame

/-! The value an aggregate and a key have in one group, and the column of the intermediate
frame that holds these values for all groups. -/

namespace Veldb

open Attempts Arr Buckets

/-- The positions of the selection that fall into the group. -/
def members (groupOf : List Nat) (g : Nat) : List Nat :=
  (List.range groupOf.length).filter (fun i => groupOf[i]? == some g)

def Arr.select (v : Arr) (is : List Nat) : Exec Arr :=
  match v with
  | .i64 x => return .i64 (← is.mapM (pick x))
  | .f64 x => return .f64 (← is.mapM (pick x))
  | .bool x => return .bool (← is.mapM (pick x))
  | .str x => return .str (← is.mapM (pick x))
  | .vector dim x => return .vector dim (← is.mapM (pick x))

def Arr.append : Arr → Arr → Exec Arr
  | .i64 x, .i64 y => .ok (.i64 (x ++ y))
  | .f64 x, .f64 y => .ok (.f64 (x ++ y))
  | .bool x, .bool y => .ok (.bool (x ++ y))
  | .str x, .str y => .ok (.str (x ++ y))
  | .vector dim x, .vector _ y => .ok (.vector dim (x ++ y))
  | _, _ => crash "arrays of different types"

/-- The argument of an aggregate in each of the rows, computed on that row alone. Where there
is no row, the selection, which is then empty, only gives the type. -/
def argOf (rt : Runtime) (f : Frame) (sel : Sel) (is : List Nat) (a : Expr) : Exec Arr := do
  match ← is.mapM (fun i => do eval rt f (.ids [← sel.row i]) a) with
  | [] => (← eval rt f sel a).select []
  | x :: xs => xs.foldlM Arr.append x

def sumOf (rt : Runtime) : Arr → Exec Arr
  | .i64 x => .ok (.i64 [x.foldl (fun a x => saturatingI64 (a.toInt + x.toInt)) 0])
  | other => do return .f64 [(← other.toF64).foldl rt.add F64.zero]

def avgOf (rt : Runtime) (v : Arr) : Exec Arr := do
  let x ← v.toF64
  let count := x.foldl (fun c _ => rt.add c F64.one) F64.zero
  return .f64 [if count.eq F64.zero then F64.zero else rt.div (x.foldl rt.add F64.zero) count]

def extremeOf (rt : Runtime) (isMin : Bool) : Arr → Exec Arr
  | .str x => .ok (.str [(x.foldl (fun acc s =>
      better (fun cur s => if decide (s < cur) == isMin then s else cur) s acc) none).getD ""])
  | .i64 x => .ok (.i64 [(x.foldl (fun acc v =>
      better (fun cur v => if isMin then min cur v else max cur v) v acc) none).getD 0])
  | other => do
    return .f64 [((← other.toF64).foldl (fun acc v =>
      better (fun cur v => if isMin then rt.min cur v else rt.max cur v) v acc) none).getD F64.zero]

/-- Values are told apart by their 64-bit keys. -/
def distinctOf (rt : Runtime) (m : Nat) (v : Arr) : Exec Arr := do
  let ks ← (List.range m).mapM (valueKey rt v)
  return .i64 [Int64.ofNat ks.toFinset.card]

def countOf (m : Nat) : Arr :=
  .i64 [Int64.ofNat m]

/-- An aggregate over the rows of one group, as an array of one value. -/
def aggOf (rt : Runtime) (f : Frame) (sel : Sel) (is : List Nat) : Expr → Exec Arr
  | .agg _ none _ => .ok (countOf is.length)
  | .agg func (some a) distinct => do
    let v ← argOf rt f sel is a
    if distinct then distinctOf rt is.length v
    else
      match func with
      | .count => return countOf is.length
      | .sum => sumOf rt v
      | .avg => avgOf rt v
      | .min => extremeOf rt true v
      | .max => extremeOf rt false v
  | _ => bail "run_agg вызван не на агрегате"

variable {rt : Runtime} {α β γ : Type} {n ngroups g : Nat} {groupOf : List Nat}

theorem bump_eq {acc acc' : List α} {f : α → α} (h : bump acc g f = .ok acc') :
    acc' = acc.modify g f := by
  obtain ⟨a, ha, rfl⟩ := bind_pure_eq_ok.mp h
  rw [index_eq_ok] at ha
  obtain ⟨hlt, rfl⟩ := List.getElem?_eq_some_iff.mp ha
  refine List.ext_getElem? fun i => ?_
  rw [List.getElem?_modify, List.getElem?_set]
  by_cases hi : g = i
  · subst hi
    simp [hlt]
  · simp [hi]

theorem bumps_eq {f : β → α → α} {entries : List (Nat × β)} {acc acc' : List α}
    (h : entries.foldlM (fun acc p => bump acc p.1 (f p.2)) acc = .ok acc') :
    acc' = updates f acc entries := by
  induction entries generalizing acc with
  | nil => exact (pure_eq_ok.mp h).symm
  | cons p entries ih =>
    rw [List.foldlM_cons] at h
    obtain ⟨acc₁, hstep, h⟩ := bind_eq_ok.mp h
    rw [ih h, bump_eq hstep]
    rfl

theorem under_members {v : Nat → Exec β} {is gs : List Nat} {xs : List β}
    (hgs : is.mapM (index groupOf) = .ok gs) (hxs : is.mapM v = .ok xs) :
    (is.filter (fun i => groupOf[i]? == some g)).mapM v = .ok (under (gs.zip xs) g) := by
  induction is generalizing gs xs with
  | nil =>
    obtain rfl := pure_eq_ok.mp hgs
    rfl
  | cons i is ih =>
    rw [List.mapM_cons] at hgs hxs
    obtain ⟨g₁, hg₁, hgs⟩ := bind_eq_ok.mp hgs
    obtain ⟨gs₁, hgs₁, rfl⟩ := bind_pure_eq_ok.mp hgs
    obtain ⟨x, hx, hxs⟩ := bind_eq_ok.mp hxs
    obtain ⟨xs₁, hxs₁, rfl⟩ := bind_pure_eq_ok.mp hxs
    have ih := ih hgs₁ hxs₁
    rw [index_eq_ok] at hg₁
    rw [List.zip_cons_cons, under_cons]
    by_cases hg : g₁ = g
    · rw [if_pos hg, List.filter_cons_of_pos (by simp [hg₁, hg]), List.mapM_cons, hx, ok_bind, ih]
      rfl
    · rw [if_neg hg, List.filter_cons_of_neg (by simp [hg₁, hg]), ih]

theorem range_mapM_index (l : List α) : (List.range l.length).mapM (index l) = .ok l := by
  obtain ⟨r, hr⟩ := mapM_total (f := index l) (l := List.range l.length) fun i hi =>
    ⟨_, index_eq_ok.mpr (List.getElem?_eq_getElem (List.mem_range.mp hi))⟩
  have heq : r = l := by
    refine List.ext_getElem? fun i => ?_
    by_cases hi : i < l.length
    · obtain ⟨x, hx, hri⟩ := mapM_range_getElem hr hi
      rw [hri, index_eq_ok.mp hx]
    · have hlen := mapM_range_length hr
      rw [List.getElem?_eq_none (by omega), List.getElem?_eq_none (by omega)]
  rw [hr, heq]

theorem foldGroups_at {v : Nat → Exec β} {f : β → α → α} {acc acc' : List α}
    (hlen : groupOf.length = n) (h : foldGroups n groupOf v f acc = .ok acc') (g : Nat) :
    ∃ xs, (members groupOf g).mapM v = .ok xs ∧
      acc'[g]? = acc[g]?.map (fun a => xs.foldl (fun a x => f x a) a) := by
  have hloop : ∀ (is : List Nat) (acc : List α),
      is.foldlM (fun acc i => do
        let g ← index groupOf i
        let x ← v i
        bump acc g (f x)) acc = .ok acc' →
      ∃ xs gs, is.mapM v = .ok xs ∧ is.mapM (index groupOf) = .ok gs ∧
        acc' = updates f acc (gs.zip xs) := by
    intro is
    induction is with
    | nil =>
      intro acc h
      exact ⟨[], [], rfl, rfl, (pure_eq_ok.mp h).symm⟩
    | cons i is ih =>
      intro acc h
      rw [List.foldlM_cons] at h
      obtain ⟨acc₁, hstep, h⟩ := bind_eq_ok.mp h
      obtain ⟨g, hg, hstep⟩ := bind_eq_ok.mp hstep
      obtain ⟨x, hx, hbump⟩ := bind_eq_ok.mp hstep
      obtain ⟨xs, gs, hxs, hgs, heq⟩ := ih acc₁ h
      refine ⟨x :: xs, g :: gs, ?_, ?_, ?_⟩
      · rw [List.mapM_cons, hx, ok_bind, hxs]
        rfl
      · rw [List.mapM_cons, hg, ok_bind, hgs]
        rfl
      · rw [heq, bump_eq hbump]
        rfl
  obtain ⟨xs, gs, hxs, hgs, rfl⟩ := hloop (List.range n) acc h
  refine ⟨_, ?_, getElem?_updates f acc (gs.zip xs) g⟩
  rw [members, hlen]
  exact under_members hgs hxs

theorem under_zip_length {xs : List β} (h : xs.length = groupOf.length) :
    (under (groupOf.zip xs) g).length = groupOf.count g := by
  induction groupOf generalizing xs with
  | nil => rfl
  | cons g₁ gs ih =>
    obtain ⟨x, xs, rfl⟩ := List.exists_cons_of_length_pos (l := xs) (by simp at h; omega)
    have ih : (under (gs.zip xs) g).length = gs.count g := ih (by simpa using h)
    rw [List.zip_cons_cons, under_cons, List.count_cons]
    by_cases hg : g₁ = g <;> simp [hg, ih]

theorem members_length (groupOf : List Nat) (g : Nat) :
    (members groupOf g).length = groupOf.count g := by
  have hself := range_mapM_index groupOf
  exact (mapM_length (under_members hself hself)).symm.trans (under_zip_length rfl)

theorem counts_at {gs acc acc' : List Nat}
    (h : gs.foldlM (fun counts g => bump counts g (· + 1)) acc = .ok acc') (g : Nat) :
    acc'[g]? = acc[g]?.map (· + gs.count g) := by
  induction gs generalizing acc with
  | nil =>
    obtain rfl := pure_eq_ok.mp h
    simp
  | cons g₁ gs ih =>
    rw [List.foldlM_cons] at h
    obtain ⟨acc₁, hstep, h⟩ := bind_eq_ok.mp h
    rw [ih h, bump_eq hstep, List.getElem?_modify, List.count_cons]
    by_cases hg : g₁ = g
    · simp [hg, Function.comp_def, Nat.add_comm, Nat.add_left_comm]
    · simp [hg]

theorem countRows_at {c : Column} (hlen : groupOf.length = n)
    (h : countRows n groupOf ngroups = .ok c) (hg : g < ngroups) :
    ∃ w, c = .i64 w ∧ w[g]? = some (Int64.ofNat (members groupOf g).length) := by
  obtain ⟨counts, hcounts, rfl⟩ := bind_pure_eq_ok.mp h
  rw [← hlen, List.take_length] at hcounts
  refine ⟨_, rfl, ?_⟩
  rw [List.getElem?_map, counts_at hcounts g, List.getElem?_replicate, if_pos hg, members_length]
  simp

theorem members_lt {i : Nat} (h : i ∈ members groupOf g) : i < groupOf.length :=
  List.mem_range.mp (List.mem_of_mem_filter h)

/-- The source row of a group's key is the first of the group. -/
theorem firsts_at {src : List (Option Nat)} {k : Nat → Nat}
    (h : (groupOf.zip (List.range groupOf.length)).foldlM (fun (src : List (Option Nat)) p =>
      bump src p.1 (fun s => s.orElse (fun _ => some (k p.2)))) (List.replicate ngroups none) =
        .ok src) (hg : g < ngroups) :
    src[g]? = some ((members groupOf g).head?.map k) := by
  have hunder : under (groupOf.zip (List.range groupOf.length)) g = members groupOf g := by
    have hok : ∀ l : List Nat, l.mapM (Except.ok : Nat → Exec Nat) = .ok l := fun l =>
      mapM_eq_ok.mpr (List.forall₂_same.mpr fun _ _ => rfl)
    have h := under_members (g := g) (range_mapM_index groupOf) (hok _)
    exact (Except.ok.inj ((hok _).symm.trans h)).symm
  have hfold : ∀ (l : List Nat) (s : Option Nat),
      l.foldl (fun s i => s.orElse (fun _ => some (k i))) s = s.orElse (fun _ => l.head?.map k) := by
    intro l
    induction l with
    | nil => intro s; cases s <;> rfl
    | cons i l ih =>
      intro s
      rw [List.foldl_cons, ih]
      cases s <;> rfl
  have hsrc : src = updates (fun i (s : Option Nat) => s.orElse (fun _ => some (k i)))
      (List.replicate ngroups none) (groupOf.zip (List.range groupOf.length)) := bumps_eq h
  rw [hsrc, getElem?_updates, hunder, List.getElem?_replicate, if_pos hg, Option.map_some, hfold]
  rfl

section Arguments

variable {f : Frame} {sel : Sel} {a : Expr} {v : Arr} {is : List Nat}

theorem pick_mapM_exists {x : List α} (hx : x.length = n ∨ x.length = 1) (his : ∀ i ∈ is, i < n) :
    ∃ w, is.mapM (pick x) = .ok w :=
  mapM_total fun i hi => pick_exists (his i hi) hx

theorem select_exists (hv : v.Sized n) (his : ∀ i ∈ is, i < n) : ∃ w, v.select is = .ok w := by
  cases v with
  | i64 x => exact (pick_mapM_exists hv his).imp' _ fun _ h => bind_pure_eq_ok.mpr ⟨_, h, rfl⟩
  | f64 x => exact (pick_mapM_exists hv his).imp' _ fun _ h => bind_pure_eq_ok.mpr ⟨_, h, rfl⟩
  | bool x => exact (pick_mapM_exists hv his).imp' _ fun _ h => bind_pure_eq_ok.mpr ⟨_, h, rfl⟩
  | str x => exact (pick_mapM_exists hv his).imp' _ fun _ h => bind_pure_eq_ok.mpr ⟨_, h, rfl⟩
  | vector dim x => exact (pick_mapM_exists hv his).imp' _ fun _ h => bind_pure_eq_ok.mpr ⟨_, h, rfl⟩

theorem append_singles {mk : List α → Arr} {x : List α} {b : Arr} {bs : List Arr}
    (happ : ∀ u w, Arr.append (mk u) (mk w) = .ok (mk (u ++ w)))
    (hrow : ∀ i b, (mk x).row i = .ok b ↔ ∃ y, pick x i = .ok y ∧ mk [y] = b)
    (hbs : is.mapM ((mk x).row) = .ok (b :: bs)) :
    bs.foldlM Arr.append b = (do return mk (← is.mapM (pick x))) := by
  have hfold : ∀ (js : List Nat) (cs : List Arr) (u : List α), js.mapM ((mk x).row) = .ok cs →
      cs.foldlM Arr.append (mk u) = (do return mk (u ++ (← js.mapM (pick x)))) := by
    intro js
    induction js with
    | nil =>
      intro cs u h
      obtain rfl := pure_eq_ok.mp h
      exact (congrArg (fun w => Except.ok (mk w)) (List.append_nil u)).symm
    | cons j js ih =>
      intro cs u h
      rw [List.mapM_cons] at h
      obtain ⟨c, hc, h⟩ := bind_eq_ok.mp h
      obtain ⟨cs, hcs, rfl⟩ := bind_pure_eq_ok.mp h
      obtain ⟨y, hy, rfl⟩ := (hrow j c).mp hc
      rw [List.foldlM_cons, happ, ok_bind, ih cs _ hcs, List.mapM_cons, hy, ok_bind]
      simp
  cases is with
  | nil => cases hbs
  | cons i is =>
    rw [List.mapM_cons] at hbs
    obtain ⟨c, hc, h⟩ := bind_eq_ok.mp hbs
    obtain ⟨cs, hcs, heq⟩ := bind_pure_eq_ok.mp h
    obtain ⟨rfl, rfl⟩ := List.cons.inj heq
    obtain ⟨y, hy, rfl⟩ := (hrow i c).mp hc
    rw [hfold is cs [y] hcs, List.mapM_cons, hy, ok_bind]
    simp

theorem append_rows {b : Arr} {bs : List Arr} (h : is.mapM v.row = .ok (b :: bs)) :
    bs.foldlM Arr.append b = v.select is := by
  cases v with
  | i64 x => exact append_singles (fun _ _ => rfl) (fun _ _ => row_i64) h
  | f64 x => exact append_singles (fun _ _ => rfl) (fun _ _ => row_f64) h
  | bool x => exact append_singles (fun _ _ => rfl) (fun _ _ => row_bool) h
  | str x => exact append_singles (fun _ _ => rfl) (fun _ _ => row_str) h
  | vector dim x => exact append_singles (fun _ _ => rfl) (fun _ _ => row_vector) h

/-- The rows' own values are the entries that the whole selection has for them. -/
theorem argOf_eq_select (hrow : Rowwise rt f sel a) (hv : eval rt f sel a = .ok v)
    (his : ∀ i ∈ is, i < sel.len) : argOf rt f sel is a = v.select is := by
  have hrows : is.mapM (fun i => do eval rt f (.ids [← sel.row i]) a) = is.mapM v.row := by
    refine mapM_congr fun i hi => ?_
    obtain ⟨r, b, hr, hb, heval⟩ := hrow v hv i (his i hi)
    rw [hr, ok_bind, heval, hb]
  have htotal : ∃ bs, is.mapM v.row = .ok bs :=
    mapM_total fun i hi => row_exists (eval_sized hv) (his i hi)
  obtain ⟨bs, hbs⟩ := htotal
  unfold argOf
  rw [hrows, hbs, ok_bind]
  cases bs with
  | nil =>
    obtain rfl : is = [] := List.length_eq_zero_iff.mp (mapM_length hbs).symm
    rw [hv]
    rfl
  | cons b bs => exact append_rows hbs

end Arguments

/-- The column was filled with these values, one for each group. A TEXT column need not give
back what was put into it. -/
inductive Stores (n : Nat) : Column → (Nat → Exec Arr) → Prop
  | text {texts : List String} {vals} (hlen : texts.length = n)
      (h : ∀ g s, texts[g]? = some s → vals g = .ok (.str [s])) :
      Stores n (.str (texts.foldl StrColumn.push StrColumn.new)) vals
  | entries {c : Column} {vals} (hty : c.dataType ≠ .str)
      (h : ∀ g, g < n → gather c (.ids [g]) = vals g) : Stores n c vals

theorem gather_entry {mk : List α → Arr} {w : List α} {x : α} (h : w[g]? = some x) :
    gatherDense mk w (.ids [g]) = .ok (mk [x]) :=
  bind_pure_eq_ok.mpr ⟨[x], mapM_singleton (index_eq_ok.mpr h), rfl⟩

theorem foldGroups_entry {v : Nat → Exec β} {k : β → α → α} {z : α} {w : List α}
    (hlen : groupOf.length = n)
    (h : foldGroups n groupOf v k (List.replicate ngroups z) = .ok w) (hg : g < ngroups) :
    ∃ xs, (members groupOf g).mapM v = .ok xs ∧
      w[g]? = some (xs.foldl (fun a x => k x a) z) := by
  obtain ⟨xs, hxs, hw⟩ := foldGroups_at hlen h g
  refine ⟨xs, hxs, ?_⟩
  rw [hw, List.getElem?_replicate, if_pos hg, Option.map_some]

section Aggregates

variable {v : Arr} {is : List Nat} {c : Column}

theorem pick_map_eq (x : List α) (k : α → β) (i : Nat) : pick (x.map k) i = k <$> pick x i := by
  unfold pick index
  rw [List.length_map, List.getElem?_map]
  cases x[if x.length = 1 then 0 else i]? <;> rfl

theorem mapM_pick_map {x : List α} {k : α → β} {ys : List β}
    (h : is.mapM (pick (x.map k)) = .ok ys) : ∃ xs, is.mapM (pick x) = .ok xs ∧ ys = xs.map k := by
  induction is generalizing ys with
  | nil =>
    obtain rfl := pure_eq_ok.mp h
    exact ⟨[], rfl, rfl⟩
  | cons i is ih =>
    rw [List.mapM_cons] at h
    obtain ⟨y, hy, h⟩ := bind_eq_ok.mp h
    obtain ⟨ys₁, hys, rfl⟩ := bind_pure_eq_ok.mp h
    rw [pick_map_eq] at hy
    obtain ⟨z, hz, rfl⟩ := map_eq_ok.mp hy
    obtain ⟨zs, hzs, rfl⟩ := ih hys
    exact ⟨z :: zs, by rw [List.mapM_cons, hz, ok_bind, hzs]; rfl, rfl⟩

theorem toF64_select {x xs : List F64} (hx : v.toF64 = .ok x)
    (hxs : is.mapM (pick x) = .ok xs) :
    ∃ w, v.select is = .ok w ∧ w.toF64 = .ok xs ∧ w.dataType = v.dataType := by
  cases v with
  | f64 y =>
    obtain rfl := Except.ok.inj hx
    exact ⟨_, bind_pure_eq_ok.mpr ⟨xs, hxs, rfl⟩, rfl, rfl⟩
  | i64 y =>
    obtain rfl := Except.ok.inj hx
    obtain ⟨ys, hys, rfl⟩ := mapM_pick_map hxs
    exact ⟨_, bind_pure_eq_ok.mpr ⟨ys, hys, rfl⟩, rfl, rfl⟩
  | bool y =>
    obtain rfl := Except.ok.inj hx
    obtain ⟨ys, hys, rfl⟩ := mapM_pick_map hxs
    exact ⟨_, bind_pure_eq_ok.mpr ⟨ys, hys, rfl⟩, rfl, rfl⟩
  | str y => cases hx
  | vector dim y => cases hx

theorem select_i64 {x xs : List Int64} (h : is.mapM (pick x) = .ok xs) :
    (Arr.i64 x).select is = .ok (.i64 xs) :=
  bind_pure_eq_ok.mpr ⟨xs, h, rfl⟩

theorem select_str {x xs : List String} (h : is.mapM (pick x) = .ok xs) :
    (Arr.str x).select is = .ok (.str xs) :=
  bind_pure_eq_ok.mpr ⟨xs, h, rfl⟩

theorem folds_store {x : List α} {k : α → γ → γ} {z : γ} {w : List γ} {vals : Nat → Exec Arr}
    {out : γ → Arr} (hlen : groupOf.length = n)
    (hw : foldGroups n groupOf (pick x) k (List.replicate ngroups z) = .ok w)
    (hty : c.dataType ≠ .str) (hgather : ∀ g b, w[g]? = some b → gather c (.ids [g]) = .ok (out b))
    (hvals : ∀ g xs, (members groupOf g).mapM (pick x) = .ok xs →
      vals g = .ok (out (xs.foldl (fun a x => k x a) z))) : Stores ngroups c vals := by
  refine .entries hty fun g hg => ?_
  obtain ⟨xs, hxs, hwg⟩ := foldGroups_entry hlen hw hg
  exact (hgather g _ hwg).trans (hvals g xs hxs).symm

theorem sumOf_floats {w : Arr} {xs : List F64} (hty : w.dataType ≠ .i64) (hw : w.toF64 = .ok xs) :
    sumOf rt w = .ok (.f64 [xs.foldl rt.add F64.zero]) := by
  cases w with
  | i64 y => exact absurd rfl hty
  | f64 y => obtain rfl := Except.ok.inj hw; rfl
  | bool y => obtain rfl := Except.ok.inj hw; rfl
  | _ => cases hw

theorem sumAgg_stores (hlen : groupOf.length = n) (h : sumAgg rt v n groupOf ngroups = .ok c) :
    Stores ngroups c (fun g => v.select (members groupOf g) >>= sumOf rt) := by
  have hfloats : ∀ x, v.dataType ≠ .i64 → v.toF64 = .ok x →
      (do return Column.f64 (← foldGroups n groupOf (pick x) (fun x a => rt.add a x)
        (List.replicate ngroups F64.zero)) : Exec Column) = .ok c →
      Stores ngroups c (fun g => v.select (members groupOf g) >>= sumOf rt) := by
    intro x hty hx h
    obtain ⟨w, hw, rfl⟩ := bind_pure_eq_ok.mp h
    refine folds_store hlen hw nofun (fun g b hb => gather_entry hb) fun g xs hxs => ?_
    obtain ⟨u, hu, huf, huty⟩ := toF64_select hx hxs
    rw [hu, ok_bind, sumOf_floats (huty ▸ hty) huf]
  cases v with
  | i64 x =>
    obtain ⟨w, hw, rfl⟩ := bind_pure_eq_ok.mp h
    refine folds_store hlen hw nofun (fun g b hb => gather_entry hb) fun g xs hxs => ?_
    rw [select_i64 hxs]
    rfl
  | f64 x => exact hfloats x nofun rfl h
  | bool x => exact hfloats _ nofun rfl h
  | str x => cases h
  | vector dim x => cases h

theorem foldl_pair (f : α → γ → α) (k : β → γ → β) (l : List γ) (a : α) (b : β) :
    l.foldl (fun p x => (f p.1 x, k p.2 x)) (a, b) = (l.foldl f a, l.foldl k b) := by
  induction l generalizing a b with
  | nil => rfl
  | cons x l ih => simp only [List.foldl_cons, ih]

theorem avgAgg_stores (hlen : groupOf.length = n) (h : avgAgg rt v n groupOf ngroups = .ok c) :
    Stores ngroups c (fun g => v.select (members groupOf g) >>= avgOf rt) := by
  obtain ⟨x, hx, h⟩ := bind_eq_ok.mp h
  obtain ⟨w, hw, rfl⟩ := bind_pure_eq_ok.mp h
  refine folds_store hlen hw nofun
    (fun g b hb => gather_entry (List.getElem?_map.trans (congrArg _ hb))) fun g xs hxs => ?_
  obtain ⟨u, hu, huf, -⟩ := toF64_select hx hxs
  rw [foldl_pair (fun s x => rt.add s x) (fun s _ => rt.add s F64.one), hu, ok_bind, avgOf, huf]
  rfl

theorem extremeOf_floats {w : Arr} {xs : List F64} {isMin : Bool} (hty : w.dataType ≠ .i64)
    (hw : w.toF64 = .ok xs) : extremeOf rt isMin w = .ok (.f64 [(xs.foldl (fun acc v =>
      better (fun cur v => if isMin then rt.min cur v else rt.max cur v) v acc) none).getD
        F64.zero]) := by
  cases w with
  | i64 y => exact absurd rfl hty
  | f64 y => obtain rfl := Except.ok.inj hw; rfl
  | bool y => obtain rfl := Except.ok.inj hw; rfl
  | _ => cases hw

theorem extremeAgg_stores {isMin : Bool} (hlen : groupOf.length = n)
    (h : extremeAgg rt isMin v n groupOf ngroups = .ok c) :
    Stores ngroups c (fun g => v.select (members groupOf g) >>= extremeOf rt isMin) := by
  have hfloats : ∀ x, v.dataType ≠ .i64 → v.toF64 = .ok x → (do
      let acc ← foldGroups n groupOf (pick x)
        (better (fun cur val => if isMin then rt.min cur val else rt.max cur val))
        (List.replicate ngroups none)
      return Column.f64 (acc.map (·.getD F64.zero)) : Exec Column) = .ok c →
      Stores ngroups c (fun g => v.select (members groupOf g) >>= extremeOf rt isMin) := by
    intro x hty hx h
    obtain ⟨w, hw, rfl⟩ := bind_pure_eq_ok.mp h
    refine folds_store hlen hw nofun
      (fun g b hb => gather_entry (List.getElem?_map.trans (congrArg _ hb))) fun g xs hxs => ?_
    obtain ⟨u, hu, huf, huty⟩ := toF64_select hx hxs
    rw [hu, ok_bind, extremeOf_floats (huty ▸ hty) huf]
  cases v with
  | i64 x =>
    obtain ⟨w, hw, rfl⟩ := bind_pure_eq_ok.mp h
    refine folds_store hlen hw nofun
      (fun g b hb => gather_entry (List.getElem?_map.trans (congrArg _ hb))) fun g xs hxs => ?_
    rw [select_i64 hxs]
    rfl
  | str x =>
    obtain ⟨w, hw, rfl⟩ := bind_pure_eq_ok.mp h
    have hwlen : w.length = ngroups := by simpa using foldGroups_length hw
    refine .text (by simpa using hwlen) fun g s hs => ?_
    have hg : g < ngroups := by
      obtain ⟨hlt, -⟩ := List.getElem?_eq_some_iff.mp hs
      simpa [hwlen] using hlt
    obtain ⟨xs, hxs, hwg⟩ := foldGroups_entry hlen hw hg
    rw [List.getElem?_map, hwg] at hs
    rw [select_str hxs, ← Option.some.inj hs]
    rfl
  | f64 x => exact hfloats x nofun rfl h
  | bool x => exact hfloats _ nofun rfl h
  | vector dim x => cases h

theorem range_mapM_pick (w : List α) : (List.range w.length).mapM (pick w) = .ok w := by
  rw [← range_mapM_index w]
  refine mapM_congr fun i hi => ?_
  have hi : i < w.length := List.mem_range.mp hi
  unfold pick
  by_cases h1 : w.length = 1
  · obtain rfl : i = 0 := by omega
    rw [if_pos h1]
  · rw [if_neg h1]

theorem mapM_pick_key {x : List α} {k : α → UInt64} {w : List α}
    (h : is.mapM (pick x) = .ok w) :
    is.mapM (fun i => do return k (← pick x i)) =
      (List.range is.length).mapM (fun i => do return k (← pick w i)) := by
  rw [mapM_then h, ← mapM_length h]
  exact (mapM_then (range_mapM_pick w)).symm

theorem valueKey_select {w : Arr} (h : v.select is = .ok w) :
    is.mapM (valueKey rt v) = (List.range is.length).mapM (valueKey rt w) := by
  cases v with
  | i64 x =>
    obtain ⟨u, hu, rfl⟩ := bind_pure_eq_ok.mp h
    exact mapM_pick_key hu
  | f64 x =>
    obtain ⟨u, hu, rfl⟩ := bind_pure_eq_ok.mp h
    exact mapM_pick_key hu
  | bool x =>
    obtain ⟨u, hu, rfl⟩ := bind_pure_eq_ok.mp h
    exact mapM_pick_key hu
  | str x =>
    obtain ⟨u, hu, rfl⟩ := bind_pure_eq_ok.mp h
    exact mapM_pick_key hu
  | vector dim x =>
    obtain ⟨u, hu, rfl⟩ := bind_pure_eq_ok.mp h
    have hzero : ∀ l : List Nat, l.mapM (fun _ => (.ok 0 : Exec UInt64)) =
        .ok (List.replicate l.length 0) := by
      intro l
      induction l with
      | nil => rfl
      | cons i l ih => rw [List.mapM_cons, ih]; rfl
    have hrange := hzero (List.range is.length)
    rw [List.length_range] at hrange
    exact (hzero is).trans hrange.symm

theorem foldl_insert (ks : List UInt64) (s : Finset UInt64) :
    ks.foldl (fun s k => insert k s) s = s ∪ ks.toFinset := by
  induction ks generalizing s with
  | nil => simp
  | cons k ks ih =>
    rw [List.foldl_cons, ih, List.toFinset_cons]
    ext x
    simp

theorem distinctAgg_stores (hlen : groupOf.length = n) (hv : v.Sized n)
    (h : distinctAgg rt v n groupOf ngroups = .ok c) :
    Stores ngroups c (fun g =>
      v.select (members groupOf g) >>= distinctOf rt (members groupOf g).length) := by
  obtain ⟨sets, hsets, rfl⟩ := bind_pure_eq_ok.mp h
  refine .entries nofun fun g hg => ?_
  obtain ⟨ks, hks, hwg⟩ := foldGroups_entry hlen hsets hg
  obtain ⟨w, hw⟩ : ∃ w, v.select (members groupOf g) = .ok w :=
    select_exists hv fun i hi => hlen ▸ members_lt hi
  refine (gather_entry (List.getElem?_map.trans (congrArg _ hwg))).trans ?_
  rw [hw, ok_bind, distinctOf, ← valueKey_select hw, hks, ok_bind, foldl_insert]
  simp
  rfl

theorem countRows_stores (hlen : groupOf.length = n)
    (h : countRows n groupOf ngroups = .ok c) :
    Stores ngroups c (fun g => .ok (countOf (members groupOf g).length)) := by
  obtain ⟨counts, hcounts, rfl⟩ := bind_pure_eq_ok.mp h
  refine .entries nofun fun g hg => ?_
  obtain ⟨w, hw, hwg⟩ := countRows_at hlen h hg
  obtain rfl := Column.i64.inj hw
  exact gather_entry hwg

theorem Stores.congr {vals vals' : Nat → Exec Arr} (h : Stores n c vals)
    (hvals : ∀ g, g < n → vals' g = vals g) : Stores n c vals' := by
  cases h with
  | text hlen h =>
    refine .text hlen fun g s hs => ?_
    obtain ⟨hg, -⟩ := List.getElem?_eq_some_iff.mp hs
    rw [hvals g (hlen ▸ hg), h g s hs]
  | entries hty h => exact .entries hty fun g hg => (h g hg).trans (hvals g hg).symm

theorem runAgg_stores {f : Frame} {sel : Sel} {p : Expr} (hlen : groupOf.length = sel.len)
    (hrow : ∀ a ∈ p.children, Rowwise rt f sel a)
    (h : runAgg rt p f sel groupOf ngroups = .ok c) :
    Stores ngroups c (fun g => aggOf rt f sel (members groupOf g) p) := by
  cases p with
  | agg func arg distinct =>
    cases arg with
    | none => exact countRows_stores hlen h
    | some a =>
      obtain ⟨v, hv, h⟩ := bind_eq_ok.mp h
      have hvs : v.Sized sel.len := eval_sized hv
      have harg : ∀ g, argOf rt f sel (members groupOf g) a = v.select (members groupOf g) :=
        fun g => argOf_eq_select (hrow a (by simp [Expr.children])) hv
          fun i hi => hlen ▸ members_lt hi
      cases distinct with
      | true =>
        refine (distinctAgg_stores hlen hvs h).congr fun g _ => ?_
        rw [aggOf, harg]
        rfl
      | false =>
        cases func with
        | count =>
          refine (countRows_stores hlen h).congr fun g _ => ?_
          obtain ⟨w, hw⟩ : ∃ w, v.select (members groupOf g) = .ok w :=
            select_exists hvs fun i hi => hlen ▸ members_lt hi
          rw [aggOf, harg, hw]
          rfl
        | sum => exact (sumAgg_stores hlen h).congr fun g _ => by rw [aggOf, harg]; rfl
        | avg => exact (avgAgg_stores hlen h).congr fun g _ => by rw [aggOf, harg]; rfl
        | min => exact (extremeAgg_stores hlen h).congr fun g _ => by rw [aggOf, harg]; rfl
        | max => exact (extremeAgg_stores hlen h).congr fun g _ => by rw [aggOf, harg]; rfl
  | _ => cases h

end Aggregates

/-- The key of a group is that of its first row; a key is the same in all of them. -/
def keyOf (key : Arr) (groupOf : List Nat) (g : Nat) : Exec Arr :=
  match (members groupOf g).head? with
  | some i => key.row i
  | none => crash "index out of bounds"

theorem picks_at {x w : List α} {src : List (Option Nat)} {k : Option Nat → Exec α}
    (hsome : ∀ i, k (some i) = index x i) (hnone : ∀ y, k none ≠ .ok y)
    (hfirst : ∀ g, g < ngroups → src[g]? = some ((members groupOf g).head?.map
      (fun i => if x.length = 1 then 0 else i)))
    (hw : src.mapM k = .ok w) (hg : g < ngroups) :
    ∃ i y, (members groupOf g).head? = some i ∧ pick x i = .ok y ∧ w[g]? = some y := by
  have hsrc := hfirst g hg
  obtain ⟨hlt, hget⟩ := List.getElem?_eq_some_iff.mp hsrc
  obtain ⟨y, hy, hwg⟩ := mapM_getElem hw hlt
  rw [hget] at hy
  cases hhead : (members groupOf g).head? with
  | none =>
    rw [hhead] at hy
    exact absurd hy (hnone y)
  | some i =>
    rw [hhead, Option.map_some, hsome] at hy
    exact ⟨i, y, rfl, hy, hwg⟩

theorem picks_store {key : Arr} {c : Column} {x w : List α} {src : List (Option Nat)}
    {k : Option Nat → Exec α} {mk : List α → Arr}
    (hfirst : ∀ g, g < ngroups → src[g]? = some ((members groupOf g).head?.map
      (fun i => if x.length = 1 then 0 else i)))
    (hw : src.mapM k = .ok w) (hsome : ∀ i, k (some i) = index x i) (hnone : ∀ y, k none ≠ .ok y)
    (hty : c.dataType ≠ .str) (hgather : ∀ g, gather c (.ids [g]) = gatherDense mk w (.ids [g]))
    (hrow : ∀ i, key.row i = (do return mk [← pick x i])) :
    Stores ngroups c (keyOf key groupOf) := by
  refine .entries hty fun g hg => ?_
  obtain ⟨i, y, hi, hy, hwg⟩ := picks_at hsome hnone hfirst hw hg
  have hkey : key.row i = .ok (mk [y]) := (hrow i).trans (bind_pure_eq_ok.mpr ⟨y, hy, rfl⟩)
  rw [hgather, gather_entry hwg, keyOf, hi]
  exact hkey.symm

theorem pickFirst_stores {key a : Arr} (hvec : ∀ dim rows, key = .vector dim rows → ngroups = 0)
    (h : pickFirstPerGroup key groupOf ngroups = .ok a) :
    Stores ngroups a.intoColumn (keyOf key groupOf) := by
  have hlen := (pickFirstPerGroup_len h).1
  obtain ⟨src, hsrc, hbody⟩ := bind_eq_ok.mp h
  have hfirst := fun g (hg : g < ngroups) => firsts_at hsrc hg
  cases key with
  | i64 x =>
    obtain ⟨w, hw, rfl⟩ := bind_pure_eq_ok.mp hbody
    exact picks_store hfirst hw (fun _ => rfl) nofun nofun (fun _ => rfl) fun _ => rfl
  | f64 x =>
    obtain ⟨w, hw, rfl⟩ := bind_pure_eq_ok.mp hbody
    exact picks_store hfirst hw (fun _ => rfl) nofun nofun (fun _ => rfl) fun _ => rfl
  | bool x =>
    obtain ⟨w, hw, rfl⟩ := bind_pure_eq_ok.mp hbody
    exact picks_store hfirst hw (fun _ => rfl) nofun nofun (fun _ => rfl) fun _ => rfl
  | str x =>
    obtain ⟨w, hw, rfl⟩ := bind_pure_eq_ok.mp hbody
    refine .text hlen fun g s hs => ?_
    have hg : g < ngroups := by
      obtain ⟨hlt, -⟩ := List.getElem?_eq_some_iff.mp hs
      exact lt_of_lt_of_eq hlt hlen
    obtain ⟨i, y, hi, hy, hwg⟩ := picks_at (fun _ => rfl) nofun hfirst hw hg
    obtain rfl := Option.some.inj (hwg.symm.trans hs)
    rw [keyOf, hi]
    exact row_str.mpr ⟨y, hy, rfl⟩
  | vector dim x =>
    obtain rfl := hvec dim x rfl
    obtain ⟨w, -, rfl⟩ := bind_pure_eq_ok.mp hbody
    exact .entries nofun nofun

end Veldb
