import Mathlib.Data.List.Nodup
import Veldb.Library.Attempts

/-! Values that stand under keys, put into the order of another list of the same keys, and the
table of places that does it. -/

namespace Rearranging

open Attempts

variable {ε κ α β : Type} {source target : List κ} {xs ys zs : List α}

/-- The values `xs` under the keys `source`, in the order of the keys `target`. -/
structure Rearranged (source target : List κ) (xs ys : List α) : Prop where
  length_eq : ys.length = target.length
  value_eq : ∀ (i j : Nat) (k : κ), target[i]? = some k → source[j]? = some k → ys[i]? = xs[j]?

theorem getElem?_of_mapM {f : α → Except ε β} {bs : List β} (h : xs.mapM f = .ok bs) (i : Nat) :
    xs[i]?.map f = bs[i]?.map .ok := by
  by_cases hi : i < xs.length
  · obtain ⟨b, hb, hget⟩ := mapM_getElem h hi
    rw [List.getElem?_eq_getElem hi, hget, Option.map_some, Option.map_some, hb]
  · have hlen := mapM_length h
    rw [List.getElem?_eq_none (by omega), List.getElem?_eq_none (by omega)]
    rfl

namespace Rearranged

theorem unique (hsub : target ⊆ source) (hy : Rearranged source target xs ys)
    (hz : Rearranged source target xs zs) : ys = zs := by
  refine List.ext_getElem? fun i => ?_
  cases hk : target[i]? with
  | none =>
    have hi := List.getElem?_eq_none_iff.mp hk
    rw [List.getElem?_eq_none (hy.length_eq ▸ hi), List.getElem?_eq_none (hz.length_eq ▸ hi)]
  | some k =>
    obtain ⟨j, hj⟩ := List.mem_iff_getElem?.mp (hsub (List.mem_of_getElem? hk))
    rw [hy.value_eq i j k hk hj, hz.value_eq i j k hk hj]

theorem zip {as bs : List β} (h : Rearranged source target xs ys)
    (h' : Rearranged source target as bs) :
    Rearranged source target (xs.zip as) (ys.zip bs) where
  length_eq := by rw [List.length_zip, h.length_eq, h'.length_eq, Nat.min_self]
  value_eq i j k hi hj := by
    rw [List.zip_eq_zipWith, List.zip_eq_zipWith, List.getElem?_zipWith, List.getElem?_zipWith,
      h.value_eq i j k hi hj, h'.value_eq i j k hi hj]

theorem mem_source (hsub : target ⊆ source) (h : Rearranged source target xs ys) {y : α}
    (hy : y ∈ ys) : y ∈ xs := by
  obtain ⟨i, hi⟩ := List.mem_iff_getElem?.mp hy
  have hlt : i < target.length := h.length_eq ▸ (List.getElem?_eq_some_iff.mp hi).1
  have hk : target[i]? = some target[i] := List.getElem?_eq_getElem hlt
  obtain ⟨j, hj⟩ := List.mem_iff_getElem?.mp (hsub (List.getElem_mem hlt))
  rw [h.value_eq i j _ hk hj] at hi
  exact List.mem_of_getElem? hi

theorem mem_target (hsub : source ⊆ target) (hlen : xs.length = source.length)
    (h : Rearranged source target xs ys) {x : α} (hx : x ∈ xs) : x ∈ ys := by
  obtain ⟨j, hj⟩ := List.mem_iff_getElem?.mp hx
  have hlt : j < source.length := hlen ▸ (List.getElem?_eq_some_iff.mp hj).1
  have hk : source[j]? = some source[j] := List.getElem?_eq_getElem hlt
  obtain ⟨i, hi⟩ := List.mem_iff_getElem?.mp (hsub (List.getElem_mem hlt))
  rw [← h.value_eq i j _ hi hk] at hj
  exact List.mem_of_getElem? hj

theorem mapM {f : α → Except ε β} {as : List β} (hsub : target ⊆ source)
    (h : Rearranged source target xs ys) (hxs : xs.mapM f = .ok as) :
    ∃ bs, ys.mapM f = .ok bs ∧ Rearranged source target as bs := by
  have hall : ∀ y ∈ ys, ∃ b, f y = .ok b := by
    intro y hy
    obtain ⟨b, -, hb⟩ := mapM_mem hxs (h.mem_source hsub hy)
    exact ⟨b, hb⟩
  obtain ⟨bs, hbs⟩ := mapM_total hall
  refine ⟨bs, hbs, (mapM_length hbs).trans h.length_eq, fun i j k hi hj => ?_⟩
  have hvalue := getElem?_of_mapM hbs i
  rw [h.value_eq i j k hi hj, getElem?_of_mapM hxs j] at hvalue
  exact (Option.map_injective (fun _ _ he => Except.ok.inj he) hvalue).symm

theorem mapM_back {f : α → Except ε β} {bs : List β} (hsub : target ⊆ source)
    (hsub' : source ⊆ target) (hlen : xs.length = source.length)
    (h : Rearranged source target xs ys) (hys : ys.mapM f = .ok bs) :
    ∃ as, xs.mapM f = .ok as ∧ Rearranged source target as bs := by
  have hall : ∀ x ∈ xs, ∃ a, f x = .ok a := by
    intro x hx
    obtain ⟨a, -, ha⟩ := mapM_mem hys (h.mem_target hsub' hlen hx)
    exact ⟨a, ha⟩
  obtain ⟨as, has⟩ := mapM_total hall
  obtain ⟨bs', hbs', hrel⟩ := h.mapM hsub has
  obtain rfl : bs = bs' := Except.ok.inj (hys.symm.trans hbs')
  exact ⟨as, has, hrel⟩

end Rearranged

section Slots

variable [DecidableEq κ]

/-- For every key of `target` its place among the keys of `source` that are known so far. -/
def slots (source target : List κ) : List (Option Nat) :=
  target.map (fun k => if k ∈ source then some (source.idxOf k) else none)

theorem slots_nil (target : List κ) : slots [] target = List.replicate target.length none := by
  rw [slots, List.eq_replicate_iff]
  refine ⟨List.length_map _, fun o ho => ?_⟩
  obtain ⟨k, -, rfl⟩ := List.mem_map.mp ho
  exact if_neg List.not_mem_nil

theorem slots_get {k : κ} (hk : k ∈ target) :
    (slots source target)[target.idxOf k]? =
      some (if k ∈ source then some (source.idxOf k) else none) := by
  have hlt := List.idxOf_lt_length_of_mem hk
  rw [slots, List.getElem?_map, List.getElem?_eq_getElem hlt, List.getElem_idxOf hlt]
  rfl

theorem slots_snoc {k : κ} (hnd : target.Nodup) (hk : k ∉ source) :
    (slots source target).set (target.idxOf k) (some source.length) = slots (source ++ [k]) target := by
  refine List.ext_getElem? fun i => ?_
  rw [List.getElem?_set, slots, slots, List.length_map, List.getElem?_map, List.getElem?_map]
  by_cases hi : i < target.length
  · rw [List.getElem?_eq_getElem hi, Option.map_some, Option.map_some]
    by_cases hsame : target[i] = k
    · have hplace : target.idxOf k = i := by rw [← hsame, hnd.idxOf_getElem i hi]
      rw [if_pos hplace, hsame, hplace, if_pos hi, if_pos (by simp),
        List.idxOf_append_of_notMem hk, List.idxOf_cons_self, Nat.add_zero]
    · have hplace : target.idxOf k ≠ i := by
        rintro rfl
        exact hsame (List.getElem_idxOf hi)
      rw [if_neg hplace]
      by_cases hmem : target[i] ∈ source
      · rw [if_pos hmem, if_pos (List.mem_append_left _ hmem), List.idxOf_append_of_mem hmem]
      · rw [if_neg hmem, if_neg (by simp [hmem, hsame])]
  · have hnone : target[i]? = none := List.getElem?_eq_none (by omega)
    rw [hnone]
    by_cases hplace : target.idxOf k = i
    · rw [if_pos hplace, if_neg (by omega)]
      rfl
    · rw [if_neg hplace]
      rfl

theorem slots_read {read : Option Nat → Except ε α} (hnd : source.Nodup) (hsub : target ⊆ source)
    (hlen : xs.length = source.length) (hread : ∀ i x, xs[i]? = some x → read (some i) = .ok x) :
    ∃ ys, (slots source target).mapM read = .ok ys ∧ Rearranged source target xs ys := by
  have hplace : ∀ k ∈ target, ∃ x, xs[source.idxOf k]? = some x ∧
      read (if k ∈ source then some (source.idxOf k) else none) = .ok x := by
    intro k hk
    have hlt : source.idxOf k < xs.length := hlen ▸ List.idxOf_lt_length_of_mem (hsub hk)
    have hx := List.getElem?_eq_getElem hlt
    exact ⟨_, hx, by rw [if_pos (hsub hk), hread _ _ hx]⟩
  have hall : ∀ o ∈ slots source target, ∃ x, read o = .ok x := by
    intro o ho
    obtain ⟨k, hk, rfl⟩ := List.mem_map.mp ho
    obtain ⟨x, -, hx⟩ := hplace k hk
    exact ⟨x, hx⟩
  obtain ⟨ys, hys⟩ := mapM_total hall
  have hylen : ys.length = target.length := (mapM_length hys).trans (List.length_map _)
  refine ⟨ys, hys, hylen, fun i j k hi hj => ?_⟩
  obtain ⟨x, hx, hreadx⟩ := hplace k (List.mem_of_getElem? hi)
  have hj' : source.idxOf k = j := by
    obtain ⟨hlt, rfl⟩ := List.getElem?_eq_some_iff.mp hj
    exact hnd.idxOf_getElem j hlt
  have hvalue := getElem?_of_mapM hys i
  rw [slots, List.getElem?_map, hi, Option.map_some, Option.map_some, hreadx] at hvalue
  rw [← hj', hx]
  cases hyi : ys[i]? with
  | none =>
    rw [hyi] at hvalue
    cases hvalue
  | some y =>
    rw [hyi] at hvalue
    exact congrArg some (Except.ok.inj (Option.some.inj hvalue)).symm

end Slots

end Rearranging
