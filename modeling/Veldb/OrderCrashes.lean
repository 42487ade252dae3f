import Veldb.EvalCrashes
import Veldb.Library.Comparisons

/-! `ORDER BY` panics when its keys put two rows next to each other that only a key of one
value could tell apart: the comparison indexes that key by the row. -/

namespace Veldb

open Attempts Arr Comparisons

/-- What the sorts of the standard library do by any comparison; past the end of the rows nothing can
be selected. -/
structure Runtime.Rearranging (rt : Runtime) : Prop where
  sort : Rearranges rt.sortUnstableBy
  select : Selects rt.selectNthUnstableBy
  beyond : ∀ {k cmp rows}, rows.length ≤ k → Crashes (rt.selectNthUnstableBy k cmp rows)

/-- What they do where no two rows compare equal. -/
structure Runtime.Sorting (rt : Runtime) : Prop where
  sort : Sorts rt.sortUnstableBy
  select : Selects rt.selectNthUnstableBy
  beyond : ∀ {k cmp rows}, rows.length ≤ k → Crashes (rt.selectNthUnstableBy k cmp rows)

theorem Runtime.Sorting.rearranging {rt : Runtime} (h : rt.Sorting) : rt.Rearranging :=
  ⟨h.sort.toRearranges, h.select, h.beyond⟩

/-- A key of one value that the comparison reads. -/
def Arr.IsOne : Arr → Prop
  | .vector _ _ => False
  | a => a.len = 1

namespace F64

/-- The order of `total_cmp`, as integers. -/
def rank (x : F64) : Int :=
  if x.isNegative then -x.magnitude - 1 else x.magnitude

end F64

/-- The order of one key, wherever it is indexed. -/
def ordArr : Arr → Nat → Nat → Ordering
  | .i64 v => compareOn (fun i => v[i]?)
  | .f64 v => compareOn (fun i => (v[i]?).map F64.rank)
  | .bool v => compareOn (fun i => v[i]?)
  | .str v => compareOn (fun i => v[i]?)
  | .vector _ _ => compareOn (fun _ => 0)

instance transCmp_ordArr (a : Arr) : Std.TransCmp (ordArr a) := by
  cases a <;> exact inferInstanceAs (Std.TransCmp (compareOn _))

def ordKey (k : Arr × Bool) : Nat → Nat → Ordering :=
  if k.2 then ordArr k.1 else fun a b => ordArr k.1 b a

instance transCmp_ordKey (k : Arr × Bool) : Std.TransCmp (ordKey k) := by
  unfold ordKey
  split_ifs
  · infer_instance
  · infer_instance

instance decidableIsOne (a : Arr) : Decidable a.IsOne := by
  cases a <;> unfold Arr.IsOne <;> infer_instance

/-- The order of the keys up to the first of one value, and by position when there is none. -/
def ordKeys : List (Arr × Bool) → Nat → Nat → Ordering
  | [] => compare
  | k :: keys => if k.1.IsOne then compareOn (fun _ => 0) else compareLex (ordKey k) (ordKeys keys)

instance transCmp_ordKeys (keys : List (Arr × Bool)) : Std.TransCmp (ordKeys keys) := by
  induction keys with
  | nil => exact inferInstanceAs (Std.TransCmp compare)
  | cons k keys ih =>
    unfold ordKeys
    split_ifs
    · infer_instance
    · infer_instance

section Compare

variable {α : Type} {a b n : Nat} {arr : Arr} {keys : List (Arr × Bool)}

theorem index_pair {v : List α} {g : α → α → Ordering} {o : Ordering} :
    (do return g (← index v a) (← index v b) : Exec Ordering) = .ok o ↔
      ∃ x y, v[a]? = some x ∧ v[b]? = some y ∧ g x y = o := by
  constructor
  · intro h
    obtain ⟨x, hx, h⟩ := bind_eq_ok.mp h
    obtain ⟨y, hy, ho⟩ := bind_pure_eq_ok.mp h
    exact ⟨x, y, index_eq_ok.mp hx, index_eq_ok.mp hy, ho⟩
  · rintro ⟨x, y, hx, hy, ho⟩
    exact bind_eq_ok.mpr ⟨x, index_eq_ok.mpr hx, bind_pure_eq_ok.mpr ⟨y, index_eq_ok.mpr hy, ho⟩⟩

theorem cmpArr_follows {o : Ordering} (h : cmpArr arr a b = .ok o) : o = ordArr arr a b := by
  cases arr with
  | i64 v =>
    obtain ⟨x, y, hx, hy, rfl⟩ := index_pair.mp h
    simp only [ordArr, compareOn, hx, hy]
    rfl
  | f64 v =>
    obtain ⟨x, hx, h⟩ := bind_eq_ok.mp h
    obtain ⟨y, hy, h⟩ := bind_eq_ok.mp h
    simp only [ordArr, compareOn, index_eq_ok.mp hx, index_eq_ok.mp hy]
    exact (pure_eq_ok.mp h).symm
  | bool v =>
    obtain ⟨x, y, hx, hy, rfl⟩ := index_pair.mp h
    simp only [ordArr, compareOn, hx, hy]
    rfl
  | str v =>
    obtain ⟨x, y, hx, hy, rfl⟩ := index_pair.mp h
    simp only [ordArr, compareOn, hx, hy]
    rfl
  | vector dim rows => exact (Except.ok.inj h).symm

theorem cmpArr_answers (hlen : arr.len = n) (ha : a < n) (hb : b < n) : ∃ o, cmpArr arr a b = .ok o := by
  have hpair : ∀ {α : Type} {v : List α} (g : α → α → Ordering), v.length = n →
      ∃ o, (do return g (← index v a) (← index v b) : Exec Ordering) = .ok o := by
    intro α v g hlen
    exact ⟨_, index_pair.mpr ⟨v[a], v[b], List.getElem?_eq_getElem (by omega),
      List.getElem?_eq_getElem (by omega), rfl⟩⟩
  cases arr with
  | i64 v => exact hpair _ hlen
  | f64 v => exact hpair _ hlen
  | bool v => exact hpair _ hlen
  | str v => exact hpair _ hlen
  | vector dim rows => exact ⟨_, rfl⟩

theorem cmpArr_error {e : Fault} (h : cmpArr arr a b = .error e) : e.IsCrash := by
  have hpair : ∀ {α : Type} {v : List α} (g : α → α → Exec Ordering),
      (∀ x y, ∃ o, g x y = .ok o) →
      (do g (← index v a) (← index v b) : Exec Ordering) = .error e → e.IsCrash := by
    intro α v g hg h
    cases e with
    | crash place => trivial
    | bail m =>
      refine absurd h (bind_not_bail (index_not_bail v a) (fun x => ?_) m)
      refine bind_not_bail (index_not_bail v b) fun y m => ?_
      obtain ⟨o, ho⟩ := hg x y
      rw [ho]
      exact nofun
  cases arr with
  | i64 v => exact hpair (fun x y => pure (compare x y)) (fun _ _ => ⟨_, rfl⟩) h
  | f64 v => exact hpair (fun x y : F64 => pure (x.totalCmp y)) (fun _ _ => ⟨_, rfl⟩) h
  | bool v => exact hpair (fun x y => pure (compare x y)) (fun _ _ => ⟨_, rfl⟩) h
  | str v => exact hpair (fun x y => pure (compare x y)) (fun _ _ => ⟨_, rfl⟩) h
  | vector dim rows => cases h

/-- A key of one value has no entry for one of two rows. -/
theorem crashes_cmpArr (hone : arr.IsOne) (hne : a ≠ b) : Crashes (cmpArr arr a b) := by
  cases h : cmpArr arr a b with
  | error e => exact ⟨e, rfl, cmpArr_error h⟩
  | ok o =>
    exfalso
    have hpair : ∀ {α : Type} {v : List α} {x y : α}, v.length = 1 → v[a]? = some x →
        v[b]? = some y → False := by
      intro α v x y hlen hx hy
      obtain ⟨hx, -⟩ := List.getElem?_eq_some_iff.mp hx
      obtain ⟨hy, -⟩ := List.getElem?_eq_some_iff.mp hy
      omega
    cases arr with
    | i64 v =>
      obtain ⟨x, y, hx, hy, -⟩ := index_pair.mp h
      exact hpair hone hx hy
    | f64 v =>
      obtain ⟨x, hx, h⟩ := bind_eq_ok.mp h
      obtain ⟨y, hy, h⟩ := bind_eq_ok.mp h
      exact hpair hone (index_eq_ok.mp hx) (index_eq_ok.mp hy)
    | bool v =>
      obtain ⟨x, y, hx, hy, -⟩ := index_pair.mp h
      exact hpair hone hx hy
    | str v =>
      obtain ⟨x, y, hx, hy, -⟩ := index_pair.mp h
      exact hpair hone hx hy
    | vector dim rows => exact hone

theorem cmpKeys_error {e : Fault} (h : cmpKeys keys a b = .error e) : e.IsCrash := by
  induction keys with
  | nil => cases h
  | cons k keys ih =>
    obtain ⟨arr, up⟩ := k
    unfold cmpKeys at h
    cases harr : cmpArr arr a b with
    | error e' =>
      rw [harr] at h
      obtain rfl := Except.error.inj h
      exact cmpArr_error harr
    | ok o =>
      rw [harr, ok_bind] at h
      cases o with
      | eq => exact ih h
      | lt => cases h
      | gt => cases h

theorem ordKey_eq {k : Arr × Bool} {o : Ordering} (h : o = ordArr k.1 a b) :
    ordKey k a b = if k.2 then o else o.swap := by
  subst h
  unfold ordKey
  split_ifs
  · rfl
  · exact Std.OrientedCmp.eq_swap

theorem ordArr_self (arr : Arr) (a : Nat) : ordArr arr a a = .eq :=
  Std.ReflCmp.compare_self

theorem ordKeys_self (keys : List (Arr × Bool)) (a : Nat) : ordKeys keys a a = .eq :=
  Std.ReflCmp.compare_self

theorem cmpKeys_follows (keys : List (Arr × Bool)) : Follows (cmpKeys keys) (ordKeys keys) := by
  intro a b o h
  induction keys generalizing o with
  | nil => exact (Except.ok.inj h).symm
  | cons k keys ih =>
    obtain ⟨arr, up⟩ := k
    obtain ⟨o₁, ho₁, h⟩ := bind_eq_ok.mp h
    have hord := cmpArr_follows ho₁
    unfold ordKeys
    by_cases hone : arr.IsOne
    · rw [if_pos hone]
      -- a key of one value compares a row only with itself
      have hab : a = b := by
        by_contra hne
        obtain ⟨e, he, -⟩ := crashes_cmpArr hone hne
        cases he.symm.trans ho₁
      subst hab
      rw [ordArr_self] at hord
      subst hord
      rw [ih o h, ordKeys_self]
      rfl
    · rw [if_neg hone, compareLex, ordKey_eq hord]
      cases o₁ with
      | eq =>
        rw [ih o h]
        cases up <;> rfl
      | lt =>
        obtain rfl := pure_eq_ok.mp h
        cases up <;> rfl
      | gt =>
        obtain rfl := pure_eq_ok.mp h
        cases up <;> rfl

end Compare

/-- The rows as they are sorted: with a limit that leaves most of them out, its rows are
selected first. -/
def sortRows (rt : Runtime) (keys : List (Arr × Bool)) (n : Nat) (need : Option Nat) :
    Exec (List Nat) :=
  match need with
  | some k =>
    if k * 4 < n then do
      let part ← rt.selectNthUnstableBy k (cmpKeys keys) (List.range (asU32 n))
      rt.sortUnstableBy (cmpKeys keys) (part.take k)
    else rt.sortUnstableBy (cmpKeys keys) (List.range (asU32 n))
  | none => rt.sortUnstableBy (cmpKeys keys) (List.range (asU32 n))

section Sorting

variable {rt : Runtime} {f : Frame} {s : Sel} {n N : Nat} {keys : List (Arr × Bool)}
  {rows : List Nat}

theorem asU32_le (n : Nat) : asU32 n ≤ n :=
  Nat.mod_le _ _

theorem range_asU32_lt {n r : Nat} (h : r ∈ List.range (asU32 n)) : r < n :=
  lt_of_lt_of_le (List.mem_range.mp h) (asU32_le n)

theorem selected_rows (hrt : rt.Rearranging) {k : Nat} {part : List Nat}
    (h : rt.selectNthUnstableBy k (cmpKeys keys) (List.range (asU32 n)) = .ok part) :
    (part.take k).Nodup ∧ ∀ r ∈ part.take k, r < n := by
  have hperm := hrt.select.perm h
  have hnd : part.Nodup := hperm.nodup_iff.mpr List.nodup_range
  exact ⟨hnd.sublist (List.take_sublist k part), fun r hr =>
    range_asU32_lt (hperm.mem_iff.mp (List.mem_of_mem_take hr))⟩

theorem sortRows_lt (hrt : rt.Rearranging) {need : Option Nat} (h : sortRows rt keys n need = .ok rows) :
    ∀ r ∈ rows, r < n := by
  have hwhole : rt.sortUnstableBy (cmpKeys keys) (List.range (asU32 n)) = .ok rows →
      ∀ r ∈ rows, r < n :=
    fun h r hr => range_asU32_lt ((hrt.sort.perm h).mem_iff.mp hr)
  cases need with
  | none => exact hwhole h
  | some k =>
    unfold sortRows at h
    by_cases hk : k * 4 < n
    · simp only [hk, if_true] at h
      obtain ⟨part, hpart, h⟩ := bind_eq_ok.mp h
      exact fun r hr => (selected_rows hrt hpart).2 r ((hrt.sort.perm h).mem_iff.mp hr)
    · simp only [hk, if_false] at h
      exact hwhole h

theorem addUsize_small {a b : Nat} (ha : a < 2 ^ 63) (hb : b < 2 ^ 63) :
    addUsize a b = .ok (a + b) := by
  have hsum : a + b < usizeRange := by
    unfold usizeRange
    omega
  exact if_pos hsum

theorem u32Range_lt {start stop m : Nat} (h : stop ≤ m) : ∀ i ∈ u32Range start stop, i < m := by
  intro i hi
  obtain ⟨j, hj, rfl⟩ := List.mem_map.mp hi
  have hj := List.mem_range.mp hj
  have hstop := asU32_le stop
  omega

/-- Where the rows kept end. -/
def stopAt (start n : Nat) (limit : Option Nat) : Exec Nat :=
  match limit with
  | none => pure n
  | some l => (min · n) <$> addUsize start l

theorem stopAt_ok {start : Nat} {limit : Option Nat} (hstart : start < 2 ^ 63)
    (hlimit : ∀ l ∈ limit, l < 2 ^ 63) : ∃ stop, stopAt start n limit = .ok stop ∧ stop ≤ n := by
  cases limit with
  | none => exact ⟨n, rfl, Nat.le_refl n⟩
  | some l =>
    refine ⟨min (start + l) n, ?_, Nat.min_le_right _ _⟩
    rw [stopAt, addUsize_small hstart (hlimit l rfl)]
    rfl

theorem need_eq {limit : Option Nat} {offset : Nat} (hoffset : offset < 2 ^ 63)
    (hlimit : ∀ l ∈ limit, l < 2 ^ 63) : limit.mapM (fun l => (min · n) <$> addUsize offset l) =
      (.ok (limit.map (fun l => min (offset + l) n)) : Exec (Option Nat)) := by
  cases limit with
  | none => rfl
  | some l =>
    simp only [Option.mapM_some, addUsize_small hoffset (hlimit l rfl)]
    rfl

theorem orderAndLimit_nil {limit : Option Nat} {offset : Nat} :
    orderAndLimit rt f s [] limit offset = (do
      let stop ← stopAt (min offset s.len) s.len limit
      if min offset s.len = 0 ∧ stop = s.len then return s
      else s.permute (u32Range (min offset s.len) stop)) := by
  cases limit <;> rfl

theorem orderAndLimit_cons {k : OrderKey} {order : List OrderKey} {limit : Option Nat}
    {offset : Nat} : orderAndLimit rt f s (k :: order) limit offset = (do
      let arrays ← evalKeys rt f s (k :: order)
      let need ← limit.mapM (fun l => (min · s.len) <$> addUsize offset l)
      let idx ← sortRows rt arrays s.len need
      let stop ← stopAt (min offset idx.length) idx.length limit
      s.permute ((idx.take stop).drop (min offset idx.length))) := by
  change (do
    let arrays ← evalKeys rt f s (k :: order)
    _) = _
  refine bind_congr fun arrays => bind_congr fun need => ?_
  cases need with
  | none => cases limit <;> rfl
  | some k =>
    by_cases hk : k * 4 < s.len
    · simp only [sortRows, hk, if_true, bind_assoc]
      cases limit <;> rfl
    · simp only [sortRows, hk, if_false]
      cases limit <;> rfl

end Sorting

section PlainSort

variable {cmp : Nat → Nat → Exec Ordering} {x : Nat} {l l' : List Nat} {e : Fault}

theorem insertBy_cons {y : Nat} (h : insertBy cmp x (y :: l) = .ok l') :
    ∃ o, cmp x y = .ok o ∧
      ((o = .gt ∧ ∃ t, insertBy cmp x l = .ok t ∧ l' = y :: t) ∨ (o ≠ .gt ∧ l' = x :: y :: l)) := by
  obtain ⟨o, ho, h⟩ := bind_eq_ok.mp h
  refine ⟨o, ho, ?_⟩
  by_cases hgt : o = .gt
  · rw [if_pos hgt] at h
    obtain ⟨t, ht, rfl⟩ := bind_pure_eq_ok.mp h
    exact Or.inl ⟨hgt, t, ht, rfl⟩
  · rw [if_neg hgt] at h
    exact Or.inr ⟨hgt, (pure_eq_ok.mp h).symm⟩

theorem insertBy_perm (h : insertBy cmp x l = .ok l') : l'.Perm (x :: l) := by
  induction l generalizing l' with
  | nil =>
    obtain rfl := pure_eq_ok.mp h
    exact List.Perm.refl _
  | cons y l ih =>
    obtain ⟨o, -, ⟨-, t, ht, rfl⟩ | ⟨-, rfl⟩⟩ := insertBy_cons h
    · exact ((ih ht).cons y).trans (List.Perm.swap x y l)
    · exact List.Perm.refl _

theorem insertBy_told_after {w : Nat} (hl : (w :: l).IsChain (Told cmp)) (hw : Told cmp w x)
    (h : insertBy cmp x l = .ok l') : (w :: l').IsChain (Told cmp) := by
  induction l generalizing w l' with
  | nil =>
    obtain rfl := pure_eq_ok.mp h
    exact List.isChain_cons_cons.mpr ⟨hw, List.isChain_singleton x⟩
  | cons y l ih =>
    obtain ⟨hwy, hl⟩ := List.isChain_cons_cons.mp hl
    obtain ⟨o, ho, ⟨hgt, t, ht, rfl⟩ | ⟨hgt, rfl⟩⟩ := insertBy_cons h
    · have hyx : Told cmp y x := Or.inr ⟨o, ho, by simp [hgt]⟩
      exact List.isChain_cons_cons.mpr ⟨hwy, ih hl hyx ht⟩
    · have hxy : Told cmp x y := Or.inl ⟨o, ho, hgt⟩
      exact List.isChain_cons_cons.mpr ⟨hw, List.isChain_cons_cons.mpr ⟨hxy, hl⟩⟩

theorem insertBy_told (hl : l.IsChain (Told cmp)) (h : insertBy cmp x l = .ok l') :
    l'.IsChain (Told cmp) := by
  cases l with
  | nil =>
    obtain rfl := pure_eq_ok.mp h
    exact List.isChain_singleton x
  | cons y l =>
    obtain ⟨o, ho, ⟨hgt, t, ht, rfl⟩ | ⟨hgt, rfl⟩⟩ := insertBy_cons h
    · exact insertBy_told_after hl (Or.inr ⟨o, ho, by simp [hgt]⟩) ht
    · exact List.isChain_cons_cons.mpr ⟨Or.inl ⟨o, ho, hgt⟩, hl⟩

theorem insertBy_failed (h : insertBy cmp x l = .error e) : ∃ y ∈ l, cmp x y = .error e := by
  induction l with
  | nil => cases h
  | cons y l ih =>
    rcases bind_eq_error.mp h with h | ⟨o, -, h⟩
    · exact ⟨y, by simp, h⟩
    by_cases hgt : o = .gt
    · rw [if_pos hgt] at h
      rcases bind_eq_error.mp h with h | ⟨t, -, h⟩
      · obtain ⟨z, hz, he⟩ := ih h
        exact ⟨z, by simp [hz], he⟩
      · cases h
    · rw [if_neg hgt] at h
      cases h

theorem sortBy_perm (h : sortBy cmp l = .ok l') : l'.Perm l := by
  induction l generalizing l' with
  | nil =>
    obtain rfl := pure_eq_ok.mp h
    exact List.Perm.refl _
  | cons x l ih =>
    obtain ⟨t, ht, h⟩ := bind_eq_ok.mp h
    exact (insertBy_perm h).trans ((ih ht).cons x)

theorem sortBy_told (h : sortBy cmp l = .ok l') : l'.IsChain (Told cmp) := by
  induction l generalizing l' with
  | nil =>
    obtain rfl := pure_eq_ok.mp h
    exact List.isChain_nil
  | cons x l ih =>
    obtain ⟨t, ht, h⟩ := bind_eq_ok.mp h
    exact insertBy_told (ih ht) h

theorem sortBy_failed (h : sortBy cmp l = .error e) :
    ∃ a b, Apart l a b ∧ cmp a b = .error e := by
  induction l with
  | nil => cases h
  | cons x l ih =>
    rcases bind_eq_error.mp h with h | ⟨t, ht, h⟩
    · obtain ⟨a, b, hapart, he⟩ := ih h
      exact ⟨a, b, hapart.cons x, he⟩
    · obtain ⟨y, hy, he⟩ := insertBy_failed h
      exact ⟨x, y, apart_head ((sortBy_perm ht).mem_iff.mp hy), he⟩

theorem selectBy_within {k : Nat} (hk : k < l.length) : selectBy k cmp l = sortBy cmp l :=
  if_pos hk

theorem selectBy_ok {k : Nat} (h : selectBy k cmp l = .ok l') : sortBy cmp l = .ok l' := by
  by_cases hk : k < l.length
  · rwa [selectBy_within hk] at h
  · rw [selectBy, if_neg hk] at h
    cases h

theorem plainRuntime_sorting : plainRuntime.Sorting where
  sort := ⟨⟨sortBy_perm, fun _ _ => sortBy_failed⟩, fun _ _ _ => sortBy_told⟩
  select := ⟨fun h => sortBy_perm (selectBy_ok h),
    fun _ _ hk h => sortBy_failed ((selectBy_within hk).symm.trans h)⟩
  beyond := fun hk => ⟨_, if_neg (not_lt_of_ge hk), trivial⟩

end PlainSort

end Veldb
