import Veldb.QueryTypes
import Veldb.RowSemantics

/-! A query over columns gives the answer over rows. Rows stay row numbers until the select list is
evaluated; each stage keeps the numbers of the rows that the answer has at that point. -/

namespace Veldb

open Attempts Arr Comparisons StableSort

/-- Row numbers that stand for what the query ranges over. -/
def Stands {ι : Type} (xs : List ι) (ids : List Nat) (picked : List ι) : Prop :=
  List.Forall₂ (fun i x => xs[i]? = some x) ids picked

/-- Calls take the argument they share from a literal. -/
def Expr.SharesLiterals (e : Expr) : Prop :=
  ∀ func args k d, .func func args ∈ e.subexprs → sharedArg func = some k →
    args[k]? = some d → ∃ v, d = .lit v

def Frame.HoldsRows (f : Frame) (rows : List (List Value)) : Prop :=
  ∀ (i : Nat) row, rows[i]? = some row → f.HoldsRow i row

/-- In each row of the frame `e'` has the value that `e` has for what the row stands for. -/
structure Frame.Gives {ι : Type} (rt : Runtime) (f : Frame) (sem : ι → Expr → Exec Arr)
    (xs : List ι) (e' e : Expr) : Prop where
  shares : e'.SharesLiterals
  value : ∀ (i : Nat) x, xs[i]? = some x → eval rt f (.ids [i]) e' = sem x e

section Stages

variable {ι : Type} {rt : Runtime} {f : Frame} {s s' : Sel} {n : Nat} {sem : ι → Expr → Exec Arr}
  {xs picked : List ι} {e e' : Expr} {cond cond' : Option Expr}

theorem stands_range (xs : List ι) : Stands xs (List.range xs.length) xs :=
  List.forall₂_iff_get.mpr ⟨List.length_range, fun i _ h => by simp⟩

theorem stands_row {i : Nat} {x : ι} (hat : Stands xs s.rows picked) (hi : picked[i]? = some x) :
    ∃ r, s.row i = .ok r ∧ i < s.len ∧ xs[r]? = some x := by
  obtain ⟨hlt, hrow⟩ := List.getElem?_eq_some_iff.mp hi
  have hlen : i < s.rows.length := hat.length_eq ▸ hlt
  refine ⟨s.rows[i], ?_, ?_, (hat.get hlen hlt).trans (congrArg some hrow)⟩
  · cases s with
    | all n => simp [Sel.row, Sel.rows]
    | ids v => exact index_eq_ok.mpr (List.getElem?_eq_getElem hlen)
  · cases s with
    | all n => simpa [Sel.rows, Sel.len] using hlen
    | ids v => exact hlen

theorem stands_length (hat : Stands xs s.rows picked) : picked.length = s.len := by
  rw [← hat.length_eq]
  cases s with
  | all n => exact List.length_range
  | ids v => rfl

/-- What an array has at a row number is the meaning for what the number stands for. -/
theorem eval_stands {a : Arr} {i : Nat} {x : ι} (hgives : f.Gives rt sem xs e' e)
    (hcov : s.Covers f) (hat : Stands xs s.rows picked) (ha : eval rt f s e' = .ok a)
    (hi : picked[i]? = some x) : ∃ v, a.row i = .ok v ∧ sem x e = .ok v := by
  obtain ⟨r, hread, hlt, hx⟩ := stands_row hat hi
  obtain ⟨v, hv, heval⟩ :=
    (rowwise_of_agrees hcov e' (agrees_of_literals e' hgives.shares)).at_row ha hlt hread
  exact ⟨v, hv, (hgives.value r x hx).symm.trans heval⟩

section Conditions

theorem marked_cons {α : Type} (x : α) (xs : List α) (b : Bool) (marks : List Bool) :
    marked (x :: xs) (b :: marks) = if b then x :: marked xs marks else marked xs marks := by
  unfold marked
  rw [List.zip_cons_cons, List.filter_cons]
  cases b <;> rfl

theorem marked_const (xs : List ι) (b : Bool) :
    marked xs (List.replicate xs.length b) = if b then xs else [] := by
  induction xs with
  | nil => cases b <;> rfl
  | cons x xs ih =>
    rw [List.length_cons, List.replicate_succ, marked_cons, ih]
    cases b <;> rfl

theorem chosen_marks {marks : List Bool} (hlen : picked.length = marks.length)
    (h : ∀ (i : Nat) x b, picked[i]? = some x → marks[i]? = some b → holds sem cond x = .ok b) :
    chosen sem cond picked = .ok (marked picked marks) := by
  have hmarks : picked.mapM (holds sem cond) = .ok marks := by
    refine mapM_eq_ok.mpr (List.forall₂_iff_get.mpr ⟨hlen, fun i hi hi' => ?_⟩)
    exact h i _ _ (List.getElem?_eq_getElem hi) (List.getElem?_eq_getElem hi')
  unfold chosen
  rw [hmarks]
  rfl

theorem chosen_const {b : Bool} (h : ∀ (i : Nat) x, picked[i]? = some x → holds sem cond x = .ok b) :
    chosen sem cond picked = .ok (if b then picked else []) := by
  rw [← marked_const]
  refine chosen_marks List.length_replicate.symm fun i x c hi hc => ?_
  rw [h i x hi, (List.mem_replicate.mp (List.mem_of_getElem? hc)).2]

theorem stands_marked {ids : List Nat} (hat : Stands xs ids picked) (marks : List Bool) :
    Stands xs (marked ids marks) (marked picked marks) := by
  induction hat generalizing marks with
  | nil => exact List.Forall₂.nil
  | @cons i x ids picked hix _ ih =>
    cases marks with
    | nil => exact List.Forall₂.nil
    | cons b marks =>
      rw [marked_cons, marked_cons]
      cases b with
      | true => exact List.Forall₂.cons hix (ih marks)
      | false => exact ih marks

/-- What a mask lets through. -/
def lets (mask : List UInt8) : List Bool :=
  mask.map (fun m => decide (m ≠ 0))

/-- The mask of a condition over a selection. -/
structure Masks (sem : ι → Expr → Exec Arr) (cond : Option Expr) (picked : List ι) (mask : List UInt8) :
    Prop where
  sized : mask.length = picked.length ∨ mask.length = 1
  marks : ∀ (i : Nat) x, picked[i]? = some x →
    ∃ m, pick mask i = .ok m ∧ holds sem cond x = .ok (decide (m ≠ 0))

theorem masks_of_eval {a : Arr} {mask : List UInt8} (hgives : f.Gives rt sem xs e' e)
    (hcov : s.Covers f) (hat : Stands xs s.rows picked) (ha : eval rt f s e' = .ok a)
    (hmask : a.asBool = .ok mask) : Masks sem (some e) picked mask := by
  refine ⟨?_, fun i x hi => ?_⟩
  · rw [stands_length hat]
    exact asBool_sized (eval_sized ha) hmask
  · obtain ⟨v, hv, hsem⟩ := eval_stands hgives hcov hat ha hi
    obtain ⟨-, m, hm, rfl⟩ := asBool_row hmask hv
    refine ⟨m, hm, ?_⟩
    simp only [holds, hsem, ok_bind]
    simp [asBool, pure, Except.pure, bind, Except.bind]

/-- A mask of one entry is for all. -/
theorem Masks.one {m : UInt8} (h : Masks sem cond picked [m]) :
    chosen sem cond picked = .ok (if m ≠ 0 then picked else []) := by
  have hchosen := chosen_const (b := decide (m ≠ 0)) fun i x hi => by
    obtain ⟨y, hy, hholds⟩ := h.marks i x hi
    obtain rfl : m = y := by simpa [pick, index] using hy
    exact hholds
  by_cases hm : m ≠ 0
  · simpa [hm] using hchosen
  · simpa [hm] using hchosen

theorem Masks.many {mask : List UInt8} {ids : List Nat} (h : Masks sem cond picked mask)
    (hlen : mask.length = picked.length) (hat : Stands xs ids picked) :
    ∃ kept, chosen sem cond picked = .ok kept ∧
      Stands xs (marked ids (lets mask)) kept := by
  refine ⟨_, chosen_marks (by rw [lets, List.length_map, hlen]) fun i x b hi hb => ?_,
    stands_marked hat (lets mask)⟩
  obtain ⟨m, hm, hholds⟩ := h.marks i x hi
  rw [lets, List.getElem?_map] at hb
  obtain ⟨y, hy, rfl⟩ := Option.map_eq_some_iff.mp hb
  have hlt := (List.getElem?_eq_some_iff.mp hy).1
  have hpick := pick_of_index rfl hlt (index_eq_ok.mpr hy)
  obtain rfl := Except.ok.inj (hm.symm.trans hpick)
  exact hholds

theorem filterMap_lets (mask : List UInt8) (ids : List Nat) :
    (mask.zip ids).filterMap (fun m => if m.1 ≠ 0 then some m.2 else none) = marked ids (lets mask) := by
  induction mask generalizing ids with
  | nil => rw [lets, List.map_nil, marked, List.zip_nil_right, List.zip_nil_left]; rfl
  | cons m mask ih =>
    cases ids with
    | nil => rfl
    | cons i ids =>
      have hrest := ih ids
      rw [lets] at hrest ⊢
      rw [List.map_cons, marked_cons, List.zip_cons_cons, List.filterMap_cons, ← hrest]
      by_cases hm : m = 0 <;> simp [hm]

/-- The row numbers that the loop of `WHERE` keeps. -/
theorem zipIdx_marked {mask : List UInt8} (hn : mask.length < 2 ^ 32) :
    (mask.zipIdx.filter (fun m => m.1 ≠ 0)).map (fun m => asU32 m.2) =
      marked (List.range mask.length) (lets mask) := by
  rw [List.zipIdx_eq_zip_range', ← List.range_eq_range', ← filterMap_lets, ← List.filterMap_eq_map,
    List.filterMap_filter]
  refine List.filterMap_congr fun m hm => ?_
  have hid : asU32 m.2 = m.2 :=
    Nat.mod_eq_of_lt (lt_trans (List.mem_range.mp (List.of_mem_zip hm).2) hn)
  by_cases h0 : m.1 = 0 <;> simp [h0, hid]

theorem chosen_of_runFilter (hlen : xs.length = n) (hn : n < 2 ^ 32) (hcov : (Sel.all n).Covers f)
    (hgives : ∀ e ∈ cond, f.Gives rt sem xs e e) (h : runFilter rt f n cond = .ok s) :
    ∃ picked, chosen sem cond xs = .ok picked ∧ Stands xs s.rows picked := by
  have hall : Stands xs (Sel.all n).rows xs := hlen ▸ stands_range xs
  cases cond with
  | none =>
    obtain rfl := pure_eq_ok.mp h
    exact ⟨xs, chosen_const (b := true) fun i x _ => rfl, hall⟩
  | some e =>
    obtain ⟨a, ha, h⟩ := bind_eq_ok.mp h
    obtain ⟨mask, hmask, h⟩ := bind_eq_ok.mp h
    have hmasks := masks_of_eval (hgives e rfl) hcov hall ha (withContext_eq_ok.mp hmask)
    have hmany : mask.length = n →
        s = .ids ((mask.zipIdx.filter (fun m => m.1 ≠ 0)).map (fun m => asU32 m.2)) →
        ∃ picked, chosen sem (some e) xs = .ok picked ∧ Stands xs s.rows picked := by
      rintro rfl rfl
      rw [zipIdx_marked hn]
      exact hmasks.many hlen.symm hall
    rcases mask with _ | ⟨m, _ | ⟨m', rest⟩⟩
    · obtain rfl := pure_eq_ok.mp h
      exact hmany (by simpa [hlen] using hmasks.sized) rfl
    · obtain rfl := pure_eq_ok.mp h
      refine ⟨_, hmasks.one, ?_⟩
      split_ifs
      · exact hall
      · exact List.Forall₂.nil
    · obtain rfl := pure_eq_ok.mp h
      exact hmany (by simpa [hlen] using hmasks.sized) rfl

/-- The numbers that the loop of `HAVING` keeps. -/
theorem having_marked {mask : List UInt8} {ids : List Nat} {v : List Nat}
    (hrow : ∀ i < ids.length, s.row i = index ids i) (hlen : mask.length = ids.length)
    (hshort : ∀ r ∈ ids, r < 2 ^ 32)
    (h : (List.range ids.length).filterMapM (fun i => do
      if (← index mask i) ≠ 0 then return some (asU32 (← s.row i)) else return none) = .ok v) :
    v = marked ids (lets mask) := by
  rw [filterMapM_eq_map] at h
  obtain ⟨os, hos, rfl⟩ := map_eq_ok.mp h
  have hmarks : os = (mask.zip ids).map (fun m => if m.1 ≠ 0 then some m.2 else none) := by
    refine List.ext_getElem? fun i => ?_
    by_cases hi : i < ids.length
    · obtain ⟨o, ho, hget⟩ := mapM_range_getElem hos hi
      have hmask : i < mask.length := hlen ▸ hi
      have hm := index_eq_ok.mpr (List.getElem?_eq_getElem hmask)
      have hr := index_eq_ok.mpr (List.getElem?_eq_getElem hi)
      have hzip : (mask.zip ids)[i]? = some (mask[i], ids[i]) :=
        List.getElem?_zip_eq_some.mpr ⟨List.getElem?_eq_getElem _, List.getElem?_eq_getElem hi⟩
      rw [hget, List.getElem?_map, hzip, Option.map_some]
      rw [hm, ok_bind, hrow i hi, hr] at ho
      have hid : asU32 ids[i] = ids[i] := Nat.mod_eq_of_lt (hshort _ (List.getElem_mem hi))
      split_ifs at ho ⊢
      · obtain rfl := Except.ok.inj ho
        rw [hid]
      · obtain rfl := Except.ok.inj ho
        rfl
    · rw [List.getElem?_eq_none (by rw [mapM_range_length hos]; omega), List.getElem?_eq_none (by
        rw [List.length_map, List.length_zip]
        omega)]
  rw [hmarks, ← filterMap_lets, List.filterMap_map]
  rfl

theorem chosen_of_runHaving (hcov : s.Covers f) (hids : ∀ r ∈ s.rows, r < 2 ^ 32)
    (hat : Stands xs s.rows picked) (hgives : Option.Rel (f.Gives rt sem xs) cond' cond)
    (h : runHaving rt f s cond' = .ok s') :
    ∃ kept, chosen sem cond picked = .ok kept ∧ Stands xs s'.rows kept := by
  cases hgives with
  | none =>
    obtain rfl := pure_eq_ok.mp h
    exact ⟨picked, chosen_const (b := true) fun i x _ => rfl, hat⟩
  | @some e' e hgives =>
    obtain ⟨a, ha, h⟩ := bind_eq_ok.mp h
    obtain ⟨mask, hmask, h⟩ := bind_eq_ok.mp h
    have hmasks := masks_of_eval hgives hcov hat ha (withContext_eq_ok.mp hmask)
    have hlen := stands_length hat
    have hrows : s.rows.length = s.len := hat.length_eq.trans hlen
    have hmany : mask.length = picked.length → (do
        let ids ← (List.range s.len).filterMapM (fun i => do
          if (← index mask i) ≠ 0 then return some (asU32 (← s.row i)) else return none)
        return Sel.ids ids : Exec Sel) = .ok s' →
        ∃ kept, chosen sem (some e) picked = .ok kept ∧ Stands xs s'.rows kept := by
      intro hmlen h
      obtain ⟨ids, hloop, rfl⟩ := bind_pure_eq_ok.mp h
      rw [← hrows] at hloop
      have hread : ∀ i < s.rows.length, s.row i = index s.rows i := by
        intro i hi
        obtain ⟨r, hr, -, -⟩ := stands_row hat (List.getElem?_eq_getElem (hat.length_eq ▸ hi))
        cases s with
        | all n => simp [Sel.row, Sel.rows, index, List.getElem?_range (by simpa [Sel.rows] using hi)]
        | ids v => rfl
      obtain rfl := having_marked hread (by omega) hids hloop
      exact hmasks.many hmlen hat
    rcases mask with _ | ⟨m, _ | ⟨m', rest⟩⟩
    · exact hmany (by simpa using hmasks.sized) h
    · obtain rfl := pure_eq_ok.mp h
      refine ⟨_, hmasks.one, ?_⟩
      split_ifs
      · exact hat
      · exact List.Forall₂.nil
    · exact hmany (by simpa using hmasks.sized) h

end Conditions

section Order

/-- The order of one key, whose rows tie where it is one value. -/
def ordPicked (arr : Arr) : Nat → Nat → Ordering :=
  if arr.IsOne then compareOn (fun _ => 0) else ordArr arr

instance transCmp_ordPicked (arr : Arr) : Std.TransCmp (ordPicked arr) := by
  unfold ordPicked
  split_ifs <;> infer_instance

def ordPickedKey (k : Arr × Bool) : Nat → Nat → Ordering :=
  if k.2 then ordPicked k.1 else fun a b => ordPicked k.1 b a

instance transCmp_ordPickedKey (k : Arr × Bool) : Std.TransCmp (ordPickedKey k) := by
  unfold ordPickedKey
  split_ifs <;> infer_instance

def byPicked : List (Arr × Bool) → Nat → Nat → Ordering
  | [] => compareOn (fun _ => 0)
  | k :: keys => compareLex (ordPickedKey k) (byPicked keys)

instance transCmp_byPicked (keys : List (Arr × Bool)) : Std.TransCmp (byPicked keys) := by
  induction keys with
  | nil => exact inferInstanceAs (Std.TransCmp (compareOn _))
  | cons k keys ih =>
    unfold byPicked
    infer_instance

variable {keys : List (Arr × Bool)} {limit : Option Nat} {offset : Nat}

/-- A key of one value answers for no two different rows. -/
theorem cmpArr_picked {arr : Arr} {a b : Nat} {o : Ordering} (h : cmpArr arr a b = .ok o) :
    o = ordPicked arr a b := by
  unfold ordPicked
  by_cases hone : arr.IsOne
  · rw [if_pos hone]
    by_cases hab : a = b
    · subst hab
      exact (cmpArr_follows h).trans (ordArr_self arr a)
    · exact absurd (crashes_cmpArr hone hab) (not_crashes_of_ok h)
  · rw [if_neg hone]
    exact cmpArr_follows h

theorem cmpKeys_picked (keys : List (Arr × Bool)) :
    Follows (cmpKeys keys) (compareLex (byPicked keys) compare) := by
  intro a b o h
  induction keys generalizing o with
  | nil => exact (Except.ok.inj h).symm
  | cons k keys ih =>
    obtain ⟨arr, up⟩ := k
    obtain ⟨o₁, ho₁, h⟩ := bind_eq_ok.mp h
    have hkey : ordPickedKey (arr, up) a b = if up then o₁ else o₁.swap := by
      rw [cmpArr_picked ho₁]
      cases up with
      | true => rfl
      | false => exact Std.OrientedCmp.eq_swap
    simp only [compareLex, byPicked] at ih ⊢
    rw [hkey]
    cases o₁ with
    | eq =>
      rw [ih o h]
      cases up <;> rfl
    | lt =>
      obtain rfl := pure_eq_ok.mp h
      cases up <;> rfl
    | gt =>
      obtain rfl := pure_eq_ok.mp h
      cases up <;> rfl

/-- Whichever way the rows are sorted, what comes back is the beginning of the stable sort. -/
theorem sortRows_stable (hsort : Sorts rt.sortUnstableBy) (hsel : Partitions rt.selectNthUnstableBy)
    (hn : n < 2 ^ 32) {need : Option Nat} {idx : List Nat}
    (h : sortRows rt keys n need = .ok idx) :
    idx = stable (byPicked keys) (List.range n) ∨
      ∃ k ∈ need, idx = (stable (byPicked keys) (List.range n)).take k := by
  have hall : asU32 n = n := Nat.mod_eq_of_lt hn
  unfold sortRows at h
  rw [hall] at h
  cases need with
  | none => exact Or.inl (sorted_eq_stable hsort (cmpKeys_picked keys) (ranked_range n) h)
  | some k =>
    by_cases hk : k * 4 < n
    · simp only [hk, if_true] at h
      obtain ⟨part, hpart, h⟩ := bind_eq_ok.mp h
      refine Or.inr ⟨k, rfl, ?_⟩
      exact front_eq_stable hsort hsel (cmpKeys_picked keys) (ranked_range n)
        (by rw [List.length_range]; omega) hpart h
    · simp only [hk, if_false] at h
      exact Or.inl (sorted_eq_stable hsort (cmpKeys_picked keys) (ranked_range n) h)

theorem byPicked_nil (n : Nat) : stable (byPicked []) (List.range n) = List.range n :=
  List.mergeSort_of_pairwise (List.pairwise_of_forall fun _ _ => rfl)

theorem orderAndLimit_stable (hsort : Sorts rt.sortUnstableBy)
    (hsel : Partitions rt.selectNthUnstableBy) (hn : s.len < 2 ^ 32)
    (hrows : ∀ r ∈ s.rows, r < 2 ^ 32) {order : List OrderKey}
    (hlimit : ∀ k ∈ limit, k < 2 ^ 63) (hoffset : offset < 2 ^ 63)
    (h : orderAndLimit rt f s order limit offset = .ok s') :
    ∃ keys, evalKeys rt f s order = .ok keys ∧
      (kept limit offset (stable (byPicked keys) (List.range s.len))).mapM s.row = .ok s'.rows := by
  have hstart : ∀ m, min offset m < 2 ^ 63 := fun m => by omega
  have hpermute : ∀ {keys : List (Arr × Bool)} {piece : List Nat},
      piece = kept limit offset (stable (byPicked keys) (List.range s.len)) →
      s.permute piece = .ok s' →
      (kept limit offset (stable (byPicked keys) (List.range s.len))).mapM s.row = .ok s'.rows := by
    rintro keys piece rfl h
    have hkept : ∀ i ∈ kept limit offset (stable (byPicked keys) (List.range s.len)), i < s.len :=
      fun i hi => List.mem_range.mp ((stable_perm _ _).mem_iff.mp (kept_subset hi))
    obtain ⟨s'', hs'', hmap⟩ := permute_rows hrows hkept
    obtain rfl := Except.ok.inj (hs''.symm.trans h)
    exact hmap
  cases order with
  | nil =>
    refine ⟨[], rfl, ?_⟩
    have hpiece := kept_eq limit offset (List.range s.len)
    rw [List.length_range] at hpiece
    obtain ⟨hlow, hhigh⟩ := endAt_bounds limit (Nat.min_le_right offset s.len)
    rw [orderAndLimit_nil, stopAt_eq (hstart s.len) hlimit, ok_bind] at h
    by_cases hwhole : min offset s.len = 0 ∧ endAt limit (min offset s.len) s.len = s.len
    · rw [if_pos hwhole] at h
      obtain rfl := pure_eq_ok.mp h
      rw [hwhole.2, hwhole.1, List.drop_zero, List.take_of_length_le (by rw [List.length_range])]
        at hpiece
      rw [byPicked_nil, ← hpiece]
      exact rows_all s
    · rw [if_neg hwhole, u32Range_eq hlow hhigh hn, hpiece] at h
      exact hpermute (by rw [byPicked_nil]) h
  | cons k order =>
    rw [orderAndLimit_cons] at h
    obtain ⟨keys, hkeys, h⟩ := bind_eq_ok.mp h
    rw [need_eq hoffset hlimit, ok_bind] at h
    obtain ⟨idx, hidx, h⟩ := bind_eq_ok.mp h
    rw [stopAt_eq (hstart idx.length) hlimit, ok_bind, kept_eq] at h
    refine ⟨keys, hkeys, hpermute ?_ h⟩
    rcases sortRows_stable hsort hsel hn hidx with rfl | ⟨m, hm, rfl⟩
    · rfl
    · obtain ⟨l, hl, rfl⟩ := Option.map_eq_some_iff.mp hm
      subst hl
      have htake := kept_take l offset (stable (byPicked keys) (List.range s.len))
      rwa [(stable_perm _ _).length_eq, List.length_range] at htake

theorem pick_entry {α : Type} {v : List α} {x : α} {i : Nat} (hv : v.length ≠ 1)
    (h : pick v i = .ok x) : v[i]? = some x := by
  unfold pick at h
  rw [if_neg hv] at h
  exact index_eq_ok.mp h

theorem pick_same {α : Type} {v : List α} {x y : α} {i j : Nat} (hv : v.length = 1)
    (hx : pick v i = .ok x) (hy : pick v j = .ok y) : x = y := by
  rw [pick_const hv i j] at hx
  exact Except.ok.inj (hx.symm.trans hy)

theorem row_same {arr x y : Arr} {p q : Nat} (hone : arr.IsOne) (hx : arr.row p = .ok x)
    (hy : arr.row q = .ok y) : x = y := by
  cases arr with
  | i64 v =>
    obtain ⟨u, hu, rfl⟩ := row_i64.mp hx
    obtain ⟨w, hw, rfl⟩ := row_i64.mp hy
    rw [pick_same hone hu hw]
  | f64 v =>
    obtain ⟨u, hu, rfl⟩ := row_f64.mp hx
    obtain ⟨w, hw, rfl⟩ := row_f64.mp hy
    rw [pick_same hone hu hw]
  | bool v =>
    obtain ⟨u, hu, rfl⟩ := row_bool.mp hx
    obtain ⟨w, hw, rfl⟩ := row_bool.mp hy
    rw [pick_same hone hu hw]
  | str v =>
    obtain ⟨u, hu, rfl⟩ := row_str.mp hx
    obtain ⟨w, hw, rfl⟩ := row_str.mp hy
    rw [pick_same hone hu hw]
  | vector dim rows => exact hone.elim

theorem ordCell_self (x : Arr) : ordCell x x = .eq := by
  cases x with
  | vector dim rows => rfl
  | _ => simp only [ordCell, Std.ReflCmp.compare_self]

theorem ordArr_cells {arr x y : Arr} {p q : Nat} (hone : ¬ arr.IsOne) (hx : arr.row p = .ok x)
    (hy : arr.row q = .ok y) : ordArr arr p q = ordCell x y := by
  cases arr with
  | i64 v =>
    obtain ⟨u, hu, rfl⟩ := row_i64.mp hx
    obtain ⟨w, hw, rfl⟩ := row_i64.mp hy
    simp [ordArr, compareOn, ordCell, pick_entry hone hu, pick_entry hone hw]
  | f64 v =>
    obtain ⟨u, hu, rfl⟩ := row_f64.mp hx
    obtain ⟨w, hw, rfl⟩ := row_f64.mp hy
    simp [ordArr, compareOn, ordCell, pick_entry hone hu, pick_entry hone hw]
  | bool v =>
    obtain ⟨u, hu, rfl⟩ := row_bool.mp hx
    obtain ⟨w, hw, rfl⟩ := row_bool.mp hy
    simp [ordArr, compareOn, ordCell, pick_entry hone hu, pick_entry hone hw]
  | str v =>
    obtain ⟨u, hu, rfl⟩ := row_str.mp hx
    obtain ⟨w, hw, rfl⟩ := row_str.mp hy
    simp [ordArr, compareOn, ordCell, pick_entry hone hu, pick_entry hone hw]
  | vector dim rows =>
    obtain ⟨u, -, rfl⟩ := row_vector.mp hx
    obtain ⟨w, -, rfl⟩ := row_vector.mp hy
    rfl

/-- Rows compare as their cells do. -/
theorem ordPicked_cells {arr x y : Arr} {p q : Nat} (hx : arr.row p = .ok x)
    (hy : arr.row q = .ok y) : ordPicked arr p q = ordCell x y := by
  unfold ordPicked
  by_cases hone : arr.IsOne
  · rw [if_pos hone, row_same hone hx hy, ordCell_self]
    rfl
  · rw [if_neg hone]
    exact ordArr_cells hone hx hy

/-- The keys of one row. -/
def KeysAt (keys : List (Arr × Bool)) (p : Nat) (cells : List (Arr × Bool)) : Prop :=
  List.Forall₂ (fun k c => k.1.row p = .ok c.1 ∧ k.2 = c.2) keys cells

theorem byPicked_cells {p q : Nat} {cs ds : List (Arr × Bool)} (hp : KeysAt keys p cs)
    (hq : KeysAt keys q ds) : byPicked keys p q = ordCells cs ds := by
  induction keys generalizing cs ds with
  | nil =>
    obtain rfl := List.forall₂_nil_left_iff.mp hp
    rfl
  | cons k keys ih =>
    obtain ⟨c, cs, ⟨hc, hup⟩, hcs, rfl⟩ := List.forall₂_cons_left_iff.mp hp
    obtain ⟨d, ds, ⟨hd, -⟩, hds, rfl⟩ := List.forall₂_cons_left_iff.mp hq
    have hkey : ordPickedKey k p q = if c.2 then ordCell c.1 d.1 else ordCell d.1 c.1 := by
      unfold ordPickedKey
      rw [← hup]
      split_ifs
      · exact ordPicked_cells hc hd
      · exact ordPicked_cells hd hc
    rw [byPicked, compareLex, ordCells, hkey, ih hcs hds]

/-- An order key of the frame and the order key it stands for. -/
def GivesKey (rt : Runtime) (f : Frame) (sem : ι → Expr → Exec Arr) (xs : List ι)
    (k' k : OrderKey) : Prop :=
  f.Gives rt sem xs k'.expr k.expr ∧ k'.asc = k.asc

theorem keyCells_at {p : Nat} {x : ι} (hcov : s.Covers f) (hat : Stands xs s.rows picked)
    {order' order : List OrderKey} (hgives : List.Forall₂ (GivesKey rt f sem xs) order' order)
    (hkeys : evalKeys rt f s order' = .ok keys) (hp : picked[p]? = some x) :
    ∃ cells, keyCells sem order x = .ok cells ∧ KeysAt keys p cells := by
  unfold evalKeys at hkeys
  unfold keyCells
  induction hgives generalizing keys with
  | nil =>
    obtain rfl := Except.ok.inj hkeys
    exact ⟨[], rfl, List.Forall₂.nil⟩
  | @cons k' k order' order hk _ ih =>
    obtain ⟨hgives, hasc⟩ := hk
    rw [List.mapM_cons] at hkeys
    obtain ⟨key, hkey, hkeys⟩ := bind_eq_ok.mp hkeys
    obtain ⟨rest, hrest, hkeys⟩ := bind_eq_ok.mp hkeys
    obtain rfl := pure_eq_ok.mp hkeys
    obtain ⟨a, ha, rfl⟩ := bind_pure_eq_ok.mp hkey
    obtain ⟨v, hv, hcell⟩ := eval_stands hgives hcov hat ha hp
    obtain ⟨cells, hcells, hall⟩ := ih hrest
    refine ⟨(v, k.asc) :: cells, ?_, List.Forall₂.cons ⟨hv, hasc⟩ hall⟩
    rw [List.mapM_cons, hcell, hcells]
    rfl

theorem kept_map {α β : Type} (g : α → β) (limit : Option Nat) (offset : Nat) (l : List α) :
    kept limit offset (l.map g) = (kept limit offset l).map g := by
  cases limit with
  | none => exact List.map_drop.symm
  | some k => rw [kept, kept, List.map_take, List.map_drop]

/-- Entries where there are some, in their order. -/
def ordSome {α : Type} (order : α → α → Ordering) : Option α → Option α → Ordering
  | some a, some b => order a b
  | _, _ => .eq

/-- The order of the query, a page, and the row numbers that stand for it. -/
theorem ordered_of_orderAndLimit (hsort : Sorts rt.sortUnstableBy)
    (hsel : Partitions rt.selectNthUnstableBy) (hn : s.len < 2 ^ 32)
    (hids : ∀ r ∈ s.rows, r < 2 ^ 32) (hlimit : ∀ k ∈ limit, k < 2 ^ 63) (hoffset : offset < 2 ^ 63)
    (hcov : s.Covers f) (hat : Stands xs s.rows picked) {order' order : List OrderKey}
    (hgives : List.Forall₂ (GivesKey rt f sem xs) order' order)
    (h : orderAndLimit rt f s order' limit offset = .ok s') :
    ∃ sorted, ordered sem order picked = .ok sorted ∧ Stands xs s'.rows (kept limit offset sorted) := by
  obtain ⟨keys, hkeys, hmap⟩ := orderAndLimit_stable hsort hsel hn hids hlimit hoffset h
  have hlen := stands_length hat
  obtain ⟨cells, hcells⟩ : ∃ cells, picked.mapM (keyCells sem order) = .ok cells := by
    refine mapM_total fun x hx => ?_
    obtain ⟨p, hp, rfl⟩ := List.mem_iff_getElem.mp hx
    obtain ⟨c, hc, -⟩ := keyCells_at hcov hat hgives hkeys (List.getElem?_eq_getElem hp)
    exact ⟨c, hc⟩
  have hclen := mapM_length hcells
  have hzip : ∀ (p : Nat) z, (cells.zip picked)[p]? = some z →
      picked[p]? = some z.2 ∧ KeysAt keys p z.1 := by
    intro p z hz
    obtain ⟨hc, hx⟩ := List.getElem?_zip_eq_some.mp hz
    obtain ⟨c, hc', hkeysAt⟩ := keyCells_at hcov hat hgives hkeys hx
    obtain ⟨hlt, heq⟩ := List.getElem?_eq_some_iff.mp hx
    obtain ⟨c'', hc'', hget⟩ := mapM_getElem hcells hlt
    rw [heq, hc'] at hc''
    have hsame := Option.some.inj (hc.symm.trans hget)
    exact ⟨hx, hsame.symm ▸ Except.ok.inj hc'' ▸ hkeysAt⟩
  have hzlen : (cells.zip picked).length = s.len := by
    rw [List.length_zip]
    omega
  -- positions in the order of the keys are the entries there in the order of their cells
  let byCells : List (Arr × Bool) × ι → List (Arr × Bool) × ι → Ordering := fun a b => ordCells a.1 b.1
  have hall : (List.range s.len).map (fun p => (cells.zip picked)[p]?) = (cells.zip picked).map some := by
    refine List.ext_getElem? fun p => ?_
    rw [List.getElem?_map, List.getElem?_map]
    by_cases hp : p < s.len
    · have hz := List.getElem?_eq_getElem (hzlen.symm ▸ hp : p < (cells.zip picked).length)
      rw [List.getElem?_range hp, Option.map_some, hz, Option.map_some]
    · rw [List.getElem?_eq_none (by rw [List.length_range]; omega),
        List.getElem?_eq_none (by omega)]
      rfl
  have hsorted : (stable (byPicked keys) (List.range s.len)).map (fun p => (cells.zip picked)[p]?) =
      (stable byCells (cells.zip picked)).map some := by
    have hget : ∀ p ∈ List.range s.len, ∃ z, (cells.zip picked)[p]? = some z := fun p hp =>
      ⟨_, List.getElem?_eq_getElem (hzlen.symm ▸ List.mem_range.mp hp)⟩
    rw [stable_map (ordSome byCells), hall, stable_map (ordSome byCells)]
    · exact fun a _ b _ => rfl
    · intro p hp q hq
      obtain ⟨a, ha⟩ := hget p hp
      obtain ⟨b, hb⟩ := hget q hq
      rw [ha, hb]
      exact byPicked_cells (hzip p a ha).2 (hzip q b hb).2
  refine ⟨(stable byCells (cells.zip picked)).map (·.2), ?_, ?_⟩
  · unfold ordered
    rw [hcells]
    rfl
  · rw [kept_map]
    have hread := mapM_eq_ok.mp hmap
    have hplaces : List.Forall₂ (fun p z => (cells.zip picked)[p]? = some z)
        (kept limit offset (stable (byPicked keys) (List.range s.len)))
        (kept limit offset (stable byCells (cells.zip picked))) := by
      have heq := congrArg (kept limit offset) hsorted
      rw [kept_map, kept_map] at heq
      exact List.forall₂_map_left_iff.mp (List.forall₂_map_right_iff.mp
        (List.forall₂_eq_eq_eq ▸ heq))
    refine List.forall₂_iff_get.mpr ⟨?_, fun i hi hi' => ?_⟩
    · rw [List.length_map, ← hread.length_eq, hplaces.length_eq]
    · rw [List.length_map] at hi'
      have hp := hread.get (hread.length_eq.symm ▸ hi) hi
      have hz := hplaces.get (hplaces.length_eq.symm ▸ hi') hi'
      obtain ⟨r, hr, -, hx⟩ := stands_row hat (hzip _ _ hz).1
      obtain rfl := Except.ok.inj (hr.symm.trans hp)
      simpa using hx

end Order

theorem projected_of_arrays {projection' projection : List Projection} {arrays : List Arr} {i : Nat}
    {x : ι} {values : List Value} (hcov : s.Covers f) (hat : Stands xs s.rows picked)
    (hgives : List.Forall₂ (fun p' p => f.Gives rt sem xs p'.expr p.expr) projection' projection)
    (harrays : projection'.mapM (fun p => eval rt f s p.expr) = .ok arrays)
    (hvalues : arrays.mapM (fun a => a.value i) = .ok values) (hi : picked[i]? = some x) :
    project sem projection x = .ok values := by
  unfold project
  induction hgives generalizing arrays values with
  | nil =>
    obtain rfl := Except.ok.inj harrays
    exact hvalues
  | @cons p' p projection' projection hp _ ih =>
    rw [List.mapM_cons] at harrays
    obtain ⟨a, ha, harrays⟩ := bind_eq_ok.mp harrays
    obtain ⟨rest, hrest, harrays⟩ := bind_eq_ok.mp harrays
    obtain rfl := pure_eq_ok.mp harrays
    rw [List.mapM_cons] at hvalues
    obtain ⟨v, hv, hvalues⟩ := bind_eq_ok.mp hvalues
    obtain ⟨vs, hvs, hvalues⟩ := bind_eq_ok.mp hvalues
    obtain rfl := pure_eq_ok.mp hvalues
    obtain ⟨c, hc, hcell⟩ := eval_stands hp hcov hat ha hi
    obtain ⟨w, hw, hcw⟩ := row_value hc 0
    obtain rfl := Except.ok.inj (hv.symm.trans hw)
    rw [List.mapM_cons, hcell, ok_bind, hcw, ok_bind, ih hrest hvs]
    rfl

end Stages

section Pages

variable {ι : Type} {rt : Runtime} {f : Frame} {s : Sel} {n m : Nat} {sem : ι → Expr → Exec Arr}
  {xs picked : List ι}

theorem within_lt (h : s.Within n) (hn : n ≤ m) : ∀ r ∈ s.rows, r < m := by
  intro r hr
  cases s with
  | all k =>
    obtain rfl : k = n := h
    exact lt_of_lt_of_le (List.mem_range.mp hr) hn
  | ids v => exact lt_of_lt_of_le (h r hr) hn

theorem covers_within (hcols : ∀ c ∈ f.cols, c.len = n) (h : s.Within n) : s.Covers f := by
  intro m hm c hc
  subst hm
  exact (hcols c hc).trans (Eq.symm h)

/-- What follows the choice of rows or groups gives the page of those that `HAVING` leaves. -/
theorem page_of_finishSelect (plan : Select) {having having' : Option Expr} {order' : List OrderKey}
    {projection' : List Projection} {r : QueryResult} (hrt : rt.Sorting)
    (hsel : Partitions rt.selectNthUnstableBy) (hlimit : ∀ k ∈ plan.limit, k < 2 ^ 63)
    (hoffset : plan.offset < 2 ^ 63) (hcols : ∀ c ∈ f.cols, c.len = n) (hn : n ≤ 2 ^ 32)
    (hs : s.Within n) (hlen : s.len < 2 ^ 32) (hat : Stands xs s.rows picked)
    (hhaving : Option.Rel (f.Gives rt sem xs) having' having)
    (horder : List.Forall₂ (GivesKey rt f sem xs) order' plan.orderBy)
    (hprojection : List.Forall₂ (fun p' p => f.Gives rt sem xs p'.expr p.expr) projection'
      plan.projection)
    (h : finishSelect rt f s having' order' plan.limit plan.offset projection' = .ok r) :
    ∃ left, chosen sem having picked = .ok left ∧ plan.page sem left = .ok r.rows := by
  obtain ⟨s₁, hs₁, h⟩ := bind_eq_ok.mp h
  obtain ⟨s', hs', h⟩ := bind_eq_ok.mp h
  obtain ⟨arrays, harrays, h⟩ := bind_eq_ok.mp h
  obtain ⟨out, hout, rfl⟩ := bind_pure_eq_ok.mp h
  obtain ⟨left, hleft, hat₁⟩ :=
    chosen_of_runHaving (covers_within hcols hs) (within_lt hs hn) hat hhaving hs₁
  have hs₁' := runHaving_within hs hs₁
  have hlen₁ : s₁.len < 2 ^ 32 := lt_of_le_of_lt (runHaving_len hs₁) hlen
  obtain ⟨sorted, hsorted, hpage⟩ := ordered_of_orderAndLimit hrt.sort hsel hlen₁
    (within_lt hs₁' hn) hlimit hoffset (covers_within hcols hs₁') hat₁ horder hs'
  have hcov := covers_within hcols (orderAndLimit_within hrt.rearranging hs₁' hlimit hoffset hs')
  have hplen := stands_length hpage
  refine ⟨left, hleft, ?_⟩
  unfold Select.page
  rw [hsorted, ok_bind]
  refine mapM_eq_ok.mpr (List.forall₂_iff_get.mpr ⟨?_, fun i hi hi' => ?_⟩)
  · rw [mapM_range_length hout, hplen]
  · have his : i < s'.len := hplen ▸ hi
    obtain ⟨values, hvalues, hget⟩ := mapM_range_getElem hout his
    have hval : out[i] = values := (List.getElem?_eq_some_iff.mp hget).2
    have hproject := projected_of_arrays hcov hpage hprojection harrays hvalues
      (List.getElem?_eq_getElem hi)
    simp only [List.get_eq_getElem, hval]
    exact hproject

end Pages

end Veldb
