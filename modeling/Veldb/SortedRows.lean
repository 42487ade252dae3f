import Veldb.Library.StableSort
import Veldb.DroppedClauses
import Veldb.OrderCrashes
import Veldb.PlannedQueries

/-! `ORDER BY` with a limit gives a piece of the stable sort of the selection, whichever of the
two ways it takes. -/

namespace Veldb

open Attempts Comparisons StableSort

/-- The order of the keys alone. -/
def byKeys : List (Arr × Bool) → Nat → Nat → Ordering
  | [] => compareOn (fun _ => 0)
  | k :: keys => compareLex (ordKey k) (byKeys keys)

instance transCmp_byKeys (keys : List (Arr × Bool)) : Std.TransCmp (byKeys keys) := by
  induction keys with
  | nil => exact inferInstanceAs (Std.TransCmp (compareOn _))
  | cons k keys ih =>
    unfold byKeys
    infer_instance

/-- What a limit and an offset keep of a list. -/
def kept {α : Type} (limit : Option Nat) (offset : Nat) (l : List α) : List α :=
  match limit with
  | none => l.drop offset
  | some k => (l.drop offset).take k

def Sel.rows : Sel → List Nat
  | .all n => List.range n
  | .ids v => v

variable {rt : Runtime} {f : Frame} {s : Sel} {n : Nat} {keys : List (Arr × Bool)}
  {limit : Option Nat} {offset : Nat}

theorem cmpKeys_lex (keys : List (Arr × Bool)) :
    Follows (cmpKeys keys) (compareLex (byKeys keys) compare) := by
  intro a b o h
  induction keys generalizing o with
  | nil => exact (Except.ok.inj h).symm
  | cons k keys ih =>
    obtain ⟨arr, up⟩ := k
    obtain ⟨o₁, ho₁, h⟩ := bind_eq_ok.mp h
    have hkey := ordKey_eq (k := (arr, up)) (cmpArr_follows ho₁)
    simp only [compareLex, byKeys] at ih ⊢
    rw [hkey]
    cases o₁ with
    | eq =>
      rw [ih o h]
      cases up <;> rfl
    | lt =>
      obtain rfl := pure_eq_ok.mp h
      cases up <;> rfl
    | gt =>
      obtain rfl := pure_eq_ok.mp h
      cases up <;> rfl

/-- Keys with one entry a row make a total order. -/
theorem cmpKeys_total (hlen : ∀ k ∈ keys, k.1.len = n) :
    Total (cmpKeys keys) (compareLex (byKeys keys) compare) (List.range n) := by
  intro a ha b hb
  have hans : ∃ o, cmpKeys keys a b = .ok o := by
    have ha := List.mem_range.mp ha
    have hb := List.mem_range.mp hb
    induction keys with
    | nil => exact ⟨_, rfl⟩
    | cons k keys ih =>
      obtain ⟨arr, up⟩ := k
      obtain ⟨o, ho⟩ := cmpArr_answers (hlen (arr, up) (by simp)) ha hb
      obtain ⟨o', ho'⟩ := ih fun k hk => hlen k (by simp [hk])
      cases o with
      | eq => exact ⟨o', by rw [cmpKeys, ho, ok_bind]; exact ho'⟩
      | lt => exact ⟨_, by rw [cmpKeys, ho, ok_bind]; rfl⟩
      | gt => exact ⟨_, by rw [cmpKeys, ho, ok_bind]; rfl⟩
  obtain ⟨o, ho⟩ := hans
  rw [ho, cmpKeys_lex keys a b o ho]

theorem ranked_range (n : Nat) : Ranked compare (List.range n) := by
  refine ⟨List.nodup_range, List.pairwise_lt_range.imp fun h => ?_⟩
  exact Nat.compare_eq_lt.mpr h

/-- The rows as they are sorted are the stable sort, or its beginning. -/
theorem sortRows_eq (hsort : SortsTotal rt.sortUnstableBy) (hsel : SelectsTotal rt.selectNthUnstableBy)
    (hlen : ∀ k ∈ keys, k.1.len = n) (hn : n < 2 ^ 32) (need : Option Nat) :
    ∃ rows, sortRows rt keys n need = .ok rows ∧
      (rows = stable (byKeys keys) (List.range n) ∨
        ∃ k ∈ need, rows = (stable (byKeys keys) (List.range n)).take k) := by
  have hall : asU32 n = n := Nat.mod_eq_of_lt hn
  have hwhole := sort_eq_stable hsort (ranked_range n) (cmpKeys_total hlen)
  unfold sortRows
  rw [hall]
  cases need with
  | none => exact ⟨_, hwhole, Or.inl rfl⟩
  | some k =>
    by_cases hk : k * 4 < n
    · have hpart := select_sort_eq_stable hsort hsel (ranked_range n) (cmpKeys_total hlen)
        (k := k) (by rw [List.length_range]; omega)
      simp only [hk, if_true]
      exact ⟨_, hpart, Or.inr ⟨k, rfl, rfl⟩⟩
    · simp only [hk, if_false]
      exact ⟨_, hwhole, Or.inl rfl⟩

theorem permute_rows {order : List Nat} (hrows : ∀ r ∈ s.rows, r < 2 ^ 32)
    (horder : ∀ i ∈ order, i < s.len) :
    ∃ s', s.permute order = .ok s' ∧ order.mapM s.row = .ok s'.rows := by
  obtain ⟨rows, hmap⟩ : ∃ rows, order.mapM s.row = .ok rows :=
    mapM_total fun i hi => Sel.row_exists (horder i hi)
  have hmod : rows.map (· % 2 ^ 32) = rows := by
    refine (List.map_congr_left fun r hr => ?_).trans (List.map_id rows)
    obtain ⟨i, hi, hir⟩ := exists_of_mem_mapM hmap hr
    have hmem : r ∈ s.rows := by
      cases s with
      | all n =>
        obtain rfl := Except.ok.inj hir
        exact List.mem_range.mpr (horder i hi)
      | ids v => exact List.mem_of_getElem? (index_eq_ok.mp hir)
    exact Nat.mod_eq_of_lt (hrows r hmem)
  refine ⟨.ids rows, bind_pure_eq_ok.mpr ⟨rows, ?_, rfl⟩, hmap⟩
  rw [mapM_then hmap, hmod]

section Pieces

variable {α : Type} {l : List α}

/-- Where the rows kept end, without a check for overflow. -/
def endAt (limit : Option Nat) (start n : Nat) : Nat :=
  limit.elim n fun k => min (start + k) n

theorem stopAt_eq {start : Nat} (hstart : start < 2 ^ 63) (hlimit : ∀ k ∈ limit, k < 2 ^ 63) :
    stopAt start n limit = .ok (endAt limit start n) := by
  cases limit with
  | none => rfl
  | some k =>
    rw [stopAt, addUsize_small hstart (hlimit k rfl)]
    rfl

theorem entry_min (l : List α) (i n : Nat) :
    (if i < min n l.length then l[i]? else none) = if i < n then l[i]? else none := by
  by_cases hlt : i < l.length
  · simp only [Nat.lt_min, hlt, and_true]
  · rw [List.getElem?_eq_none (not_lt.mp hlt), ite_self, ite_self]

theorem kept_eq (limit : Option Nat) (offset : Nat) (l : List α) :
    (l.take (endAt limit (min offset l.length) l.length)).drop (min offset l.length) =
      kept limit offset l := by
  refine List.ext_getElem? fun i => ?_
  cases limit with
  | none =>
    simp only [endAt, Option.elim_none, kept, List.take_length, List.getElem?_drop]
    by_cases hi : offset ≤ l.length
    · rw [Nat.min_eq_left hi]
    · rw [List.getElem?_eq_none (by omega), List.getElem?_eq_none (by omega)]
  | some k =>
    simp only [endAt, Option.elim_some, kept, List.getElem?_drop, List.getElem?_take]
    by_cases hi : offset ≤ l.length
    · rw [Nat.min_eq_left hi, entry_min]
      simp only [Nat.add_lt_add_iff_left]
    · have hnone : ∀ j, l.length ≤ j → l[j]? = none := fun j hj => List.getElem?_eq_none hj
      rw [hnone _ (by omega), hnone _ (by omega), ite_self, ite_self]

theorem kept_take (k offset : Nat) (l : List α) :
    kept (some k) offset (l.take (min (offset + k) l.length)) = kept (some k) offset l := by
  refine List.ext_getElem? fun i => ?_
  simp only [kept, List.getElem?_take, List.getElem?_drop, entry_min, Nat.add_lt_add_iff_left]
  by_cases hi : i < k
  · rw [if_pos hi, if_pos hi]
  · rw [if_neg hi, if_neg hi]

theorem kept_subset {limit : Option Nat} {offset : Nat} {a : α} (h : a ∈ kept limit offset l) :
    a ∈ l := by
  cases limit with
  | none => exact List.mem_of_mem_drop h
  | some k => exact List.mem_of_mem_drop (List.mem_of_mem_take h)

theorem u32Range_eq {start stop : Nat} (hstart : start ≤ stop) (hstop : stop ≤ n)
    (hn : n < 2 ^ 32) : u32Range start stop = ((List.range n).take stop).drop start := by
  have h₁ : asU32 start = start := Nat.mod_eq_of_lt (by omega)
  have h₂ : asU32 stop = stop := Nat.mod_eq_of_lt (by omega)
  unfold u32Range
  rw [h₁, h₂]
  refine List.ext_getElem? fun i => ?_
  rw [List.getElem?_drop, List.getElem?_take, List.getElem?_map]
  by_cases hi : i < stop - start
  · rw [if_pos (by omega), List.getElem?_range hi, List.getElem?_range (by omega)]
    rfl
  · rw [if_neg (by omega), List.getElem?_eq_none (by rw [List.length_range]; omega)]
    rfl

end Pieces

theorem stable_nil (n : Nat) : stable (byKeys []) (List.range n) = List.range n :=
  List.mergeSort_of_pairwise (List.pairwise_of_forall fun _ _ => rfl)

theorem rows_all (s : Sel) : (List.range s.len).mapM s.row = .ok s.rows := by
  cases s with
  | all n => exact mapM_eq_ok.mpr (List.forall₂_same.mpr fun _ _ => rfl)
  | ids v => exact range_mapM_index v

theorem endAt_bounds {start : Nat} (limit : Option Nat) (h : start ≤ n) :
    start ≤ endAt limit start n ∧ endAt limit start n ≤ n := by
  cases limit with
  | none => exact ⟨h, Nat.le_refl n⟩
  | some k =>
    rw [endAt, Option.elim_some]
    omega

/-- The rows of the answer are the piece of the stable sort of the selection that the limit and
the offset name. -/
theorem orderAndLimit_exact {tx : Texts} {clause : Option Sa.LimitClause} {order : List OrderKey}
    (hsort : SortsTotal rt.sortUnstableBy) (hsel : SelectsTotal rt.selectNthUnstableBy)
    (hkeys : evalKeys rt f s order = .ok keys) (hlen : ∀ k ∈ keys, k.1.len = s.len)
    (hn : s.len < 2 ^ 32) (hrows : ∀ r ∈ s.rows, r < 2 ^ 32)
    (hlimit : limitOffset tx clause = .ok (limit, offset)) :
    ∃ s', orderAndLimit rt f s order limit offset = .ok s' ∧
      (kept limit offset (stable (byKeys keys) (List.range s.len))).mapM s.row = .ok s'.rows := by
  obtain ⟨hlimit, hoffset⟩ := gives_limitOffset clause _ hlimit
  have hstart : ∀ m, min offset m < 2 ^ 63 := fun m => by omega
  have hkept : ∀ i ∈ kept limit offset (stable (byKeys keys) (List.range s.len)), i < s.len := by
    intro i hi
    exact List.mem_range.mp ((stable_perm _ _).mem_iff.mp (kept_subset hi))
  obtain ⟨s', hs', hmap⟩ := permute_rows hrows hkept
  cases order with
  | nil =>
    obtain rfl : [] = keys := Except.ok.inj hkeys
    rw [stable_nil] at hs' hmap ⊢
    have hpiece := kept_eq limit offset (List.range s.len)
    rw [List.length_range] at hpiece
    obtain ⟨hlow, hhigh⟩ := endAt_bounds limit (Nat.min_le_right offset s.len)
    rw [orderAndLimit_nil, stopAt_eq (hstart s.len) hlimit, ok_bind]
    by_cases hwhole : min offset s.len = 0 ∧ endAt limit (min offset s.len) s.len = s.len
    · rw [if_pos hwhole]
      rw [hwhole.2, hwhole.1, List.drop_zero, List.take_of_length_le (by rw [List.length_range])]
        at hpiece
      exact ⟨s, rfl, hpiece ▸ rows_all s⟩
    · rw [if_neg hwhole, u32Range_eq hlow hhigh hn, hpiece]
      exact ⟨s', hs', hmap⟩
  | cons k order =>
    obtain ⟨idx, hidx, hpart⟩ :=
      sortRows_eq hsort hsel hlen hn (limit.map (fun l => min (offset + l) s.len))
    have hpiece : kept limit offset idx =
        kept limit offset (stable (byKeys keys) (List.range s.len)) := by
      rcases hpart with rfl | ⟨m, hm, rfl⟩
      · rfl
      · obtain ⟨l, hl, rfl⟩ := Option.map_eq_some_iff.mp hm
        subst hl
        have htake := kept_take l offset (stable (byKeys keys) (List.range s.len))
        rwa [(stable_perm _ _).length_eq, List.length_range] at htake
    rw [orderAndLimit_cons, hkeys, ok_bind, need_eq hoffset hlimit, ok_bind, hidx, ok_bind,
      stopAt_eq (hstart idx.length) hlimit, ok_bind, kept_eq, hpiece]
    exact ⟨s', hs', hmap⟩

theorem told_isLE {cmp : Nat → Nat → Exec Ordering} {ord : Nat → Nat → Ordering} {a b : Nat}
    [Std.TransCmp ord] (hab : ∀ o, cmp a b = .ok o → o = ord a b)
    (hba : ∀ o, cmp b a = .ok o → o = ord b a) (h : Told cmp a b) : (ord a b).isLE := by
  rcases h with ⟨o, ho, hne⟩ | ⟨o, ho, hne⟩
  · rw [← hab o ho]
    cases o <;> simp at hne ⊢
  · have hswap : ord a b = (ord b a).swap := Std.OrientedCmp.eq_swap
    rw [hswap, ← hba o ho]
    cases o <;> simp at hne ⊢

/-- A comparison need follow the order only on the elements that are sorted. -/
theorem sortBy_sorted {cmp : Nat → Nat → Exec Ordering} {ord : Nat → Nat → Ordering} {l l' : List Nat}
    [Std.TransCmp ord] (hf : ∀ a ∈ l, ∀ b ∈ l, ∀ o, cmp a b = .ok o → o = ord a b)
    (h : sortBy cmp l = .ok l') : l'.Pairwise (fun a b => ord a b ≠ .gt) := by
  have hmem : ∀ {a}, a ∈ l' → a ∈ l := fun ha => (sortBy_perm h).mem_iff.mp ha
  have hchain : l'.IsChain (fun a b => (ord a b).isLE) := by
    refine List.isChain_iff_getElem.mpr fun i hi => ?_
    have hx := hmem (List.getElem_mem (Nat.lt_of_succ_lt hi))
    have hy := hmem (List.getElem_mem hi)
    exact told_isLE (hf _ hx _ hy) (hf _ hy _ hx) (List.isChain_iff_getElem.mp (sortBy_told h) i hi)
  have : IsTrans Nat (fun a b => (ord a b).isLE) := ⟨fun _ _ _ => Std.TransCmp.isLE_trans⟩
  refine (List.isChain_iff_pairwise.mp hchain).imp fun {a b} hle hgt => ?_
  rw [hgt] at hle
  cases hle

theorem parted_of_sorted {ord : Nat → Nat → Ordering} {l : List Nat} (k : Nat)
    (h : l.Pairwise (fun a b => ord a b ≠ .gt)) : ∀ a ∈ l.take k, ∀ b ∈ l.drop k, ord a b ≠ .gt := by
  rw [← List.take_append_drop k l] at h
  exact (List.pairwise_append.mp h).2.2

theorem plainRuntime_partitions : Partitions plainRuntime.selectNthUnstableBy where
  toSelects := plainRuntime_sorting.select
  parted := fun _ hf _ h =>
    parted_of_sorted _ (sortBy_sorted (fun a _ b _ => hf a b) (selectBy_ok h))

theorem sortBy_total {cmp : Nat → Nat → Exec Ordering} {ord : Nat → Nat → Ordering} {l : List Nat}
    [Std.TransCmp ord] (htotal : Total cmp ord l) :
    ∃ l', sortBy cmp l = .ok l' ∧ l'.Perm l ∧ l'.Pairwise (fun a b => ord a b ≠ .gt) := by
  cases h : sortBy cmp l with
  | error e =>
    obtain ⟨a, b, hapart, hab⟩ := sortBy_failed h
    rw [htotal a hapart.mem.1 b hapart.mem.2] at hab
    cases hab
  | ok l' =>
    refine ⟨l', rfl, sortBy_perm h, sortBy_sorted (fun a ha b hb o ho => ?_) h⟩
    exact Except.ok.inj (ho.symm.trans (htotal a ha b hb))

theorem plainRuntime_sortsTotal : SortsTotal plainRuntime.sortUnstableBy where
  sorted := fun _ htotal => sortBy_total htotal

theorem plainRuntime_selectsTotal : SelectsTotal plainRuntime.selectNthUnstableBy where
  parted := fun _ htotal hk => by
    obtain ⟨l', hl', hperm, hsorted⟩ := sortBy_total htotal
    exact ⟨l', (selectBy_within hk).trans hl', hperm, parted_of_sorted _ hsorted⟩

/-- Three chosen rows, two of them with the same key, of which one is to be kept. -/
theorem orderAndLimit_exact_three :
    ∃ s', orderAndLimit plainRuntime ⟨[.i64 [5, 3, 5]]⟩ (.ids [2, 0, 1]) [⟨.col 0, false⟩] (some 1) 0 =
      .ok s' ∧
        (kept (some 1) 0 (stable (byKeys [(.i64 [5, 5, 3], false)]) (List.range 3))).mapM
          (Sel.ids [2, 0, 1]).row = .ok s'.rows := by
  have hkeys : evalKeys plainRuntime ⟨[.i64 [5, 3, 5]]⟩ (.ids [2, 0, 1]) [⟨.col 0, false⟩] =
      .ok [(.i64 [5, 5, 3], false)] := rfl
  have hlimit : limitOffset plainTexts (some (.limitOffset (some (.value (.number "1"))) none [])) =
      .ok (some 1, 0) := by
    decide +kernel
  exact orderAndLimit_exact plainRuntime_sortsTotal plainRuntime_selectsTotal hkeys
    (by simp [Arr.len, Sel.len]) (by decide) (by simp [Sel.rows]) hlimit

end Veldb
