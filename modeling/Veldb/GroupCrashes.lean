import Veldb.PlannedQueries
import Veldb.OrderCrashes

/-! Grouping panics on more groups than its numbers can tell apart, and the columns of the
groups panic only in what they evaluate. -/

namespace Veldb

open Attempts Arr

variable {rt : Runtime} {α β : Type} {n ngroups g : Nat} {groupOf : List Nat}

section Numbers

variable {keys : List Arr} {key : Arr}

/-- The groups have the numbers of their first appearance, as 32-bit words. -/
def Numbered (groupOf : List Nat) (ngroups : Nat) : Prop :=
  ∀ g ∈ groupOf, ∃ k < ngroups, asU32 k = g

theorem Numbered.lt (h : Numbered groupOf ngroups) (hg : g ∈ groupOf) : g < ngroups := by
  obtain ⟨k, hk, rfl⟩ := h g hg
  exact lt_of_le_of_lt (asU32_le k) hk

end Numbers

theorem bump_total {acc : List α} {f : α → α} (hg : g < acc.length) :
    ∃ acc', bump acc g f = .ok acc' ∧ acc'.length = acc.length :=
  ⟨_, bind_pure_eq_ok.mpr ⟨_, index_eq_ok.mpr (List.getElem?_eq_getElem hg), rfl⟩, List.length_set⟩

section Firsts

variable {key : Arr}

/-- Entries picked by the first rows of the groups: one is missing for a group without rows. -/
theorem crashes_entries {x : List α} {src : List (Option Nat)} {k : Option Nat → Exec α}
    (hsome : ∀ i, k (some i) = index x i) (hnone : Crashes (k none))
    (hin : ∀ i, some i ∈ src → i < x.length) : Crashes (src.mapM k) ↔ none ∈ src := by
  refine (raises_mapM_iff fun o ho => ?_).trans ?_
  · cases o with
    | none => exact Or.inr hnone
    | some i =>
      rw [hsome]
      exact Or.inl ⟨_, index_eq_ok.mpr (List.getElem?_eq_getElem (hin i ho))⟩
  · constructor
    · rintro ⟨o, ho, h⟩
      cases o with
      | none => exact ho
      | some i =>
        rw [hsome] at h
        exact absurd (crashes_index.mp h) (not_le_of_gt (hin i ho))
    · exact fun h => ⟨none, h, hnone⟩

theorem members_eq_nil : members groupOf g = [] ↔ g ∉ groupOf := by
  unfold members
  rw [List.filter_eq_nil_iff]
  constructor
  · intro h hmem
    obtain ⟨i, hi, rfl⟩ := List.mem_iff_getElem.mp hmem
    exact h i (List.mem_range.mpr hi) (by simp [hi])
  · intro h i _ heq
    exact h (List.mem_of_getElem? (by simpa using heq))

theorem firsts_total {k : Nat → Nat} (hids : ∀ g ∈ groupOf, g < ngroups) :
    ∃ src, (groupOf.zip (List.range groupOf.length)).foldlM
      (fun (src : List (Option Nat)) p => bump src p.1 (fun s => s.orElse (fun _ =>
        some (k p.2)))) (List.replicate ngroups none) = .ok src ∧ src.length = ngroups := by
  refine foldlM_total (I := fun s : List (Option Nat) => s.length = ngroups) (fun s p hp hs => ?_)
    (by simp)
  have hg := hids p.1 (List.of_mem_zip hp).1
  obtain ⟨s', hs', hlen⟩ := bump_total (f := fun o : Option Nat => o.orElse (fun _ =>
    some (k p.2))) (lt_of_lt_of_eq hg hs.symm)
  exact ⟨s', hs', hlen.trans hs⟩

theorem crashes_pickFirst (hkey : key.Sized n) (hlen : groupOf.length = n)
    (hids : ∀ g ∈ groupOf, g < ngroups) :
    Crashes (pickFirstPerGroup key groupOf ngroups) ↔ ∃ g < ngroups, g ∉ groupOf := by
  obtain ⟨src, hsrc, hsrclen⟩ := firsts_total (k := fun i => if key.len = 1 then 0 else i) hids
  have hfirst := fun g (hg : g < ngroups) => firsts_at hsrc hg
  have hempty : none ∈ src ↔ ∃ g < ngroups, g ∉ groupOf := by
    rw [List.mem_iff_getElem?]
    constructor
    · rintro ⟨g, hg⟩
      have hlt : g < ngroups := hsrclen ▸ (List.getElem?_eq_some_iff.mp hg).1
      rw [hfirst g hlt] at hg
      have hnil : members groupOf g = [] := by simpa using hg
      exact ⟨g, hlt, members_eq_nil.mp hnil⟩
    · rintro ⟨g, hlt, hg⟩
      refine ⟨g, ?_⟩
      rw [hfirst g hlt, members_eq_nil.mpr hg]
      rfl
  have hin : ∀ i, some i ∈ src → i < key.len := by
    intro i hi
    obtain ⟨g, hg⟩ := List.mem_iff_getElem?.mp hi
    have hlt : g < ngroups := hsrclen ▸ (List.getElem?_eq_some_iff.mp hg).1
    rw [hfirst g hlt] at hg
    obtain ⟨j, hj, rfl⟩ := Option.map_eq_some_iff.mp (Option.some.inj hg)
    have hjn := members_lt (List.mem_of_mem_head? hj)
    split_ifs
    · omega
    · have := hkey.resolve_right ‹_›
      omega
  unfold pickFirstPerGroup
  rw [hsrc, ok_bind, ← hempty]
  cases key with
  | i64 x => exact raises_bind_pure.trans (crashes_entries (fun _ => rfl) (crashes_crash _) hin)
  | f64 x => exact raises_bind_pure.trans (crashes_entries (fun _ => rfl) (crashes_crash _) hin)
  | bool x => exact raises_bind_pure.trans (crashes_entries (fun _ => rfl) (crashes_crash _) hin)
  | str x => exact raises_bind_pure.trans (crashes_entries (fun _ => rfl) (crashes_crash _) hin)
  | vector dim x =>
    exact raises_bind_pure.trans (crashes_entries (fun _ => rfl) (crashes_crash _) hin)

theorem pickFirst_not_bail (hids : ∀ g ∈ groupOf, g < ngroups) (m : String) :
    pickFirstPerGroup key groupOf ngroups ≠ bail m := by
  obtain ⟨src, hsrc, -⟩ := firsts_total (k := fun i => if key.len = 1 then 0 else i) hids
  have hentries : ∀ {α : Type} (x : List α) (k : Option Nat → Exec α) (mk : List α → Arr),
      (∀ i, k (some i) = index x i) → (∀ m, k none ≠ bail m) →
      (do return mk (← src.mapM k)) ≠ bail m := by
    intro α x k mk hsome hnone
    refine bind_not_bail (mapM_not_bail (fun o m => ?_) src) (fun w => pure_not_bail _) m
    cases o with
    | none => exact hnone m
    | some i =>
      rw [hsome]
      exact index_not_bail x i m
  have hcrash : ∀ {α : Type} (m : String), (crash "index out of bounds" : Exec α) ≠ bail m := by
    intro α m h
    cases h
  unfold pickFirstPerGroup
  rw [hsrc, ok_bind]
  cases key with
  | i64 x => exact hentries x _ _ (fun _ => rfl) hcrash
  | f64 x => exact hentries x _ _ (fun _ => rfl) hcrash
  | bool x => exact hentries x _ _ (fun _ => rfl) hcrash
  | str x => exact hentries x _ _ (fun _ => rfl) hcrash
  | vector dim x => exact hentries x _ _ (fun _ => rfl) hcrash

end Firsts

section Aggregates

variable {v : Arr} {a : Expr} {func : AggFunc} {distinct : Bool} {f : Frame} {sel : Sel} {N : Nat}

theorem foldGroups_total {w : Nat → Exec β} {k : β → α → α} {acc : List α}
    (hlen : groupOf.length = n) (hids : ∀ g ∈ groupOf, g < acc.length)
    (hw : ∀ i < n, ∃ x, w i = .ok x) :
    ∃ acc', foldGroups n groupOf w k acc = .ok acc' ∧ acc'.length = acc.length := by
  refine foldlM_total (I := fun s : List α => s.length = acc.length) (fun s i hi hs => ?_) rfl
  have hi : i < groupOf.length := by
    have hlt := List.mem_range.mp hi
    omega
  obtain ⟨x, hx⟩ := hw i (hlen ▸ hi)
  have hg := List.getElem?_eq_getElem hi
  have hlt := hids _ (List.getElem_mem hi)
  obtain ⟨s', hs', hlen'⟩ := bump_total (f := k x) (lt_of_lt_of_eq hlt hs.symm)
  refine ⟨s', ?_, hlen'.trans hs⟩
  rw [index_eq_ok.mpr hg, ok_bind, hx, ok_bind, hs']

theorem lt_replicate (hids : ∀ g ∈ groupOf, g < ngroups) (z : α) :
    ∀ g ∈ groupOf, g < (List.replicate ngroups z).length := by
  simpa using hids

theorem countRows_total (hids : ∀ g ∈ groupOf, g < ngroups) :
    ∃ w, countRows n groupOf ngroups = .ok (.i64 w) ∧ w.length = ngroups := by
  obtain ⟨counts, hcounts, hlen⟩ := foldlM_total (f := fun counts g => bump counts g (· + 1))
    (I := fun s : List Nat => s.length = ngroups) (l := groupOf.take n)
    (s := List.replicate ngroups 0) (fun s g hg hs => by
      have hlt := hids g (List.mem_of_mem_take hg)
      obtain ⟨s', hs', hlen⟩ := bump_total (f := (· + 1)) (lt_of_lt_of_eq hlt hs.symm)
      exact ⟨s', hs', hlen.trans hs⟩) (by simp)
  exact ⟨_, bind_pure_eq_ok.mpr ⟨counts, hcounts, rfl⟩, by simpa using hlen⟩

end Aggregates

section Plan

variable {plan : Select} {f : Frame} {sel : Sel} {N : Nat}

end Plan

end Veldb
