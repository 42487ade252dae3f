import Mathlib.Data.Finset.Card
import Veldb.GroupPartition

/-! Distinct values are counted by 64-bit keys: the count is right exactly where no two values
of a group share a key. -/

namespace Veldb

open Attempts Arr FirstOccurrences

variable {rt : Runtime} {α : Type} {n ngroups : Nat} {groupOf : List Nat}
variable {f : Frame} {sel : Sel} {a : Expr} {v w : Arr}

namespace Arr

/-- How many different entries the array has. -/
def differing : Arr → Nat
  | .i64 x => x.toFinset.card
  | .f64 x => x.toFinset.card
  | .bool x => x.toFinset.card
  | .str x => x.toFinset.card
  | .vector _ x => x.toFinset.card

/-- Different texts have different hashes, and there are no two different vectors. -/
def KeysApart (rt : Runtime) : Arr → Prop
  | .str x => ∀ s ∈ x, ∀ t ∈ x, rt.fxHash s = rt.fxHash t → s = t
  | .vector _ x => ∀ r ∈ x, ∀ q ∈ x, r = q
  | _ => True

end Arr

/-- Keys count the entries exactly where different entries have different keys. -/
theorem card_keys_iff {β : Type} [DecidableEq α] [DecidableEq β] {x : List α} {key : α → β} :
    (x.map key).toFinset.card = x.toFinset.card ↔ ∀ a ∈ x, ∀ b ∈ x, key a = key b → a = b := by
  have himage : (x.map key).toFinset = x.toFinset.image key := by
    ext b
    simp
  rw [himage, Finset.card_image_iff]
  constructor
  · intro h a ha b hb hab
    exact h (by simpa using ha) (by simpa using hb) hab
  · intro h a ha b hb hab
    exact h a (by simpa using ha) b (by simpa using hb) hab

theorem distinct_iff (rt : Runtime) (w : Arr) : ∃ ks, (List.range w.len).mapM (valueKey rt w) = .ok ks ∧
    (ks.toFinset.card = w.differing ↔ w.KeysApart rt) := by
  cases w with
  | i64 x =>
    refine ⟨_, mapM_then (range_mapM_pick x), iff_of_true (card_keys_iff.mpr ?_) trivial⟩
    intro a _ b _ hab
    simpa using congrArg UInt64.toInt64 hab
  | f64 x =>
    refine ⟨_, mapM_then (range_mapM_pick x), iff_of_true (card_keys_iff.mpr ?_) trivial⟩
    rintro ⟨a⟩ _ ⟨b⟩ _ hab
    exact congrArg F64.mk hab
  | bool x =>
    refine ⟨_, mapM_then (range_mapM_pick x), iff_of_true (card_keys_iff.mpr ?_) trivial⟩
    intro a _ b _ hab
    simpa using congrArg UInt64.toUInt8 hab
  | str x => exact ⟨_, mapM_then (range_mapM_pick x), card_keys_iff⟩
  | vector dim x =>
    have hzero : (List.range x.length).mapM (valueKey rt (.vector dim x)) =
        .ok (x.map fun _ => 0) := by
      rw [← mapM_then (k := fun _ => (0 : UInt64)) (range_mapM_pick x)]
      refine mapM_congr fun i hi => ?_
      obtain ⟨y, hy⟩ := pick_exists (List.mem_range.mp hi) (Or.inl rfl : x.length = x.length ∨ _)
      rw [hy]
      rfl
    refine ⟨_, hzero, card_keys_iff.trans ?_⟩
    exact forall₄_congr fun a _ b _ => by simp

theorem valueKey_total (hv : v.Sized n) {i : Nat} (hi : i < n) : ∃ k, valueKey rt v i = .ok k := by
  cases v with
  | i64 x => exact (pick_exists hi hv).imp' _ fun _ h => bind_pure_eq_ok.mpr ⟨_, h, rfl⟩
  | f64 x => exact (pick_exists hi hv).imp' _ fun _ h => bind_pure_eq_ok.mpr ⟨_, h, rfl⟩
  | bool x => exact (pick_exists hi hv).imp' _ fun _ h => bind_pure_eq_ok.mpr ⟨_, h, rfl⟩
  | str x => exact (pick_exists hi hv).imp' _ fun _ h => bind_pure_eq_ok.mpr ⟨_, h, rfl⟩
  | vector dim x => exact ⟨0, rfl⟩

theorem select_len {is : List Nat} (h : v.select is = .ok w) : w.len = is.length := by
  cases v with
  | i64 x => obtain ⟨u, hu, rfl⟩ := bind_pure_eq_ok.mp h; exact mapM_length hu
  | f64 x => obtain ⟨u, hu, rfl⟩ := bind_pure_eq_ok.mp h; exact mapM_length hu
  | bool x => obtain ⟨u, hu, rfl⟩ := bind_pure_eq_ok.mp h; exact mapM_length hu
  | str x => obtain ⟨u, hu, rfl⟩ := bind_pure_eq_ok.mp h; exact mapM_length hu
  | vector dim x => obtain ⟨u, hu, rfl⟩ := bind_pure_eq_ok.mp h; exact mapM_length hu

theorem rowKey_single (k : Arr) (i : Nat) : rowKey [k] i = keyBytes k i := by
  unfold rowKey
  rw [List.mapM_cons, List.mapM_nil]
  cases keyBytes k i with
  | error e => rfl
  | ok b => exact congrArg Except.ok (List.append_nil b)

theorem assignGroups_card [DecidableEq α] {k : Arr} {x : List α} {enc : α → Bytes}
    (hkey : (List.range x.length).mapM (keyBytes k) = .ok (x.map enc)) (hn : x.length < 2 ^ 32)
    (hinj : ∀ a ∈ x, ∀ b ∈ x, enc a = enc b → a = b) :
    ∃ ids, assignGroups [k] x.length = .ok (ids, x.toFinset.card) := by
  rw [← mapM_congr fun i _ => rowKey_single k i] at hkey
  have hfirsts : (firsts (x.map enc)).toFinset = (x.map enc).toFinset := by
    ext b
    rw [List.mem_toFinset, mem_firsts, List.mem_toFinset]
  have hcard : (firsts (x.map enc)).length = x.toFinset.card := by
    rw [← List.toFinset_card_of_nodup (nodup_firsts _), hfirsts]
    exact card_keys_iff.mpr hinj
  exact ⟨_, hcard ▸ assignGroups_eq (by simp) hn hkey⟩

/-- Entries are different where GROUP BY puts them into different groups. -/
theorem assignGroups_differing (hw : w.Groupable w.len) (hn : w.len < 2 ^ 32) :
    ∃ ids, assignGroups [w] w.len = .ok (ids, w.differing) := by
  cases w with
  | i64 x =>
    refine assignGroups_card (mapM_then (range_mapM_pick x)) hn fun a _ b _ hab => ?_
    simpa using congrArg UInt64.toInt64 (Writer.u64_inj hab)
  | f64 x =>
    refine assignGroups_card (mapM_then (range_mapM_pick x)) hn ?_
    rintro ⟨a⟩ _ ⟨b⟩ _ hab
    exact congrArg F64.mk (Writer.u64_inj hab)
  | bool x =>
    refine assignGroups_card (mapM_then (range_mapM_pick x)) hn fun a _ b _ hab => ?_
    exact (List.cons.inj hab).1
  | str x =>
    refine assignGroups_card (mapM_then (range_mapM_pick x)) hn fun s hs t ht hst => ?_
    have happ := congrArg (· ++ ([] : Bytes)) hst
    exact (textKey_inj (hw.short x rfl s hs) (hw.short x rfl t ht) happ).1
  | vector dim x => exact absurd rfl (hw.plain dim x)

/-- `count(DISTINCT x)` is the number of different values in a group exactly where their keys
tell them apart. -/
theorem runAgg_distinct_exact_iff (hlen : groupOf.length = sel.len)
    (hids : ∀ g ∈ groupOf, g < ngroups) (hn : sel.len ≤ isizeMax) (hv : eval rt f sel a = .ok v) :
    ∃ counts, runAgg rt (.agg .count (some a) true) f sel groupOf ngroups = .ok (.i64 counts) ∧
      counts.length = ngroups ∧ ∀ g < ngroups, ∃ w, v.select (members groupOf g) = .ok w ∧
        (w.Groupable w.len → w.len < 2 ^ 32 →
          ∃ ids, assignGroups [w] w.len = .ok (ids, w.differing)) ∧
        (counts[g]?.map Int64.toInt = some (w.differing : Int) ↔ w.KeysApart rt) := by
  have hsized := eval_sized hv
  obtain ⟨sets, hsets, hsetslen⟩ : ∃ sets : List (Finset UInt64),
      foldGroups sel.len groupOf (valueKey rt v) (fun x s => insert x s)
        (List.replicate ngroups ∅) = .ok sets ∧
          sets.length = (List.replicate ngroups (∅ : Finset UInt64)).length :=
    foldGroups_total hlen (lt_replicate hids ∅) fun i hi => valueKey_total hsized hi
  refine ⟨sets.map fun s => Int64.ofNat s.card, ?_, by simpa using hsetslen, fun g hg => ?_⟩
  · rw [runAgg, hv, ok_bind]
    exact bind_pure_eq_ok.mpr ⟨sets, hsets, rfl⟩
  · obtain ⟨ks, hks, hset⟩ := foldGroups_entry hlen hsets hg
    obtain ⟨w, hw⟩ := select_exists hsized fun i hi => hlen ▸ members_lt hi
    refine ⟨w, hw, assignGroups_differing, ?_⟩
    have hwlen := select_len hw
    obtain ⟨ks', hks', hiff⟩ := distinct_iff rt w
    rw [hwlen, ← valueKey_select hw, hks] at hks'
    obtain rfl := Except.ok.inj hks'
    have hksle : ks.toFinset.card ≤ ks.length := List.toFinset_card_le ks
    have hmem : (members groupOf g).length ≤ groupOf.length := by
      rw [members_length]
      exact List.count_le_length
    have hkslen := mapM_length hks
    have hsmall : ks.toFinset.card < 2 ^ 63 := by
      unfold isizeMax at hn
      omega
    rw [List.getElem?_map, hset, foldl_insert, Finset.empty_union, Option.map_some, Option.map_some,
      Int64.toInt_ofNat_of_lt hsmall, Option.some.injEq, Int.natCast_inj, hiff]

def twoVectors : Frame :=
  ⟨[.vector 1 [⟨0⟩, ⟨1⟩]]⟩

/-- Two different vectors are one value. -/
theorem twoVectors_counted :
    runAgg plainRuntime (.agg .count (some (.col 0)) true) twoVectors (.all 2) [0, 0] 1 =
        .ok (.i64 [1]) ∧
      eval plainRuntime twoVectors (.all 2) (.col 0) = .ok (.vector 1 [[⟨0⟩], [⟨1⟩]]) ∧
      (Arr.vector 1 [[⟨0⟩], [⟨1⟩]]).differing = 2 :=
  ⟨by decide +kernel, by decide +kernel, by decide +kernel⟩

theorem runAgg_distinct_exact_iff_ints :
    ∃ counts, runAgg plainRuntime (.agg .count (some (.col 0)) true) ⟨[.i64 [5, 5, 7]]⟩ (.all 3)
      [0, 0, 0] 1 = .ok (.i64 counts) ∧ counts[0]?.map Int64.toInt = some 2 := by
  have hv : eval plainRuntime ⟨[.i64 [5, 5, 7]]⟩ (.all 3) (.col 0) = .ok (.i64 [5, 5, 7]) := rfl
  have hids : ∀ g ∈ [0, 0, 0], g < 1 := by decide
  obtain ⟨counts, hcounts, -, hgroups⟩ := runAgg_distinct_exact_iff rfl hids (by decide) hv
  obtain ⟨w, hw, -, hiff⟩ := hgroups 0 (by decide)
  obtain rfl : w = .i64 [5, 5, 7] := (Except.ok.inj hw).symm
  exact ⟨counts, hcounts, hiff.mpr trivial⟩

end Veldb
