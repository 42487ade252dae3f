import Mathlib.Data.List.Sort
import Veldb.Library.Comparisons

/-! A sort that breaks ties by the order of the list it is given is the stable sort, and a
selection in front of it gives the beginning of the same list. -/

namespace StableSort

open Attempts Comparisons List

variable {ε α : Type} {l l' : List α} {a b : α} {key tie : α → α → Ordering}

theorem pair_sublist_or (ha : a ∈ l) (hb : b ∈ l) (hne : a ≠ b) : [a, b] <+ l ∨ [b, a] <+ l := by
  induction l with
  | nil => cases ha
  | cons x l ih =>
    by_cases hax : a = x
    · have hb := (mem_cons.mp hb).resolve_left fun h => hne (hax.trans h.symm)
      exact Or.inl (hax ▸ (singleton_sublist.mpr hb).cons_cons x)
    have ha := (mem_cons.mp ha).resolve_left hax
    by_cases hbx : b = x
    · exact Or.inr (hbx ▸ (singleton_sublist.mpr ha).cons_cons x)
    · have hb := (mem_cons.mp hb).resolve_left hbx
      exact (ih ha hb).imp (·.cons x) (·.cons x)

theorem idxOf_lt [DecidableEq α] (hl : l.Nodup) (h : [a, b] <+ l) : l.idxOf a < l.idxOf b := by
  have hpair : l.Pairwise (fun x y => l.idxOf x < l.idxOf y) := by
    refine pairwise_iff_getElem.mpr fun i j hi hj hij => ?_
    rwa [hl.idxOf_getElem i hi, hl.idxOf_getElem j hj]
  exact pairwise_iff_forall_sublist.mp hpair h

theorem not_both_before (hl : l.Nodup) (hab : [a, b] <+ l) : ¬ [b, a] <+ l := by
  classical
  intro hba
  have h₁ := idxOf_lt hl hab
  have h₂ := idxOf_lt hl hba
  omega

/-- The stable sort by `key`. -/
def stable (key : α → α → Ordering) (l : List α) : List α :=
  l.mergeSort (fun a b => (key a b).isLE)

theorem stable_perm (key : α → α → Ordering) (l : List α) : (stable key l).Perm l :=
  mergeSort_perm l _

theorem stable_map {β : Type} {g : α → β} (order : β → β → Ordering)
    (h : ∀ a ∈ l, ∀ b ∈ l, key a b = order (g a) (g b)) :
    (stable key l).map g = stable order (l.map g) := by
  refine map_mergeSort fun a ha b hb => ?_
  rw [h a ha b hb]

/-- The list stands in the order by which ties are broken. -/
def Ranked (tie : α → α → Ordering) (l : List α) : Prop :=
  l.Nodup ∧ l.Pairwise (fun a b => tie a b = .lt)

theorem Ranked.tie_ne [Std.OrientedCmp tie] (hl : Ranked tie l) (ha : a ∈ l) (hb : b ∈ l) (hne : a ≠ b) :
    tie a b ≠ .eq := by
  intro heq
  have hswap : tie b a = (tie a b).swap := Std.OrientedCmp.eq_swap
  rcases pair_sublist_or ha hb hne with h | h
  · rw [pairwise_iff_forall_sublist.mp hl.2 h] at heq
    cases heq
  · rw [pairwise_iff_forall_sublist.mp hl.2 h, heq] at hswap
    cases hswap

theorem Ranked.lex_ne [Std.OrientedCmp tie] (hl : Ranked tie l) (ha : a ∈ l) (hb : b ∈ l) (hne : a ≠ b) :
    compareLex key tie a b ≠ .eq := by
  have htie := hl.tie_ne ha hb hne
  unfold compareLex
  cases key a b <;> simp [htie]

theorem strict_of_sorted [Std.OrientedCmp tie] (hl : Ranked tie l) (hsub : l' <+~ l)
    (h : l'.Pairwise (fun a b => compareLex key tie a b ≠ .gt)) :
    l'.Pairwise (fun a b => compareLex key tie a b = .lt) := by
  obtain ⟨m, hm, hml⟩ := id hsub
  have hnodup : l'.Nodup := hm.nodup_iff.mp (hml.nodup hl.1)
  refine (h.and hnodup).imp_of_mem fun {a b} ha hb hab => ?_
  have hne : compareLex key tie a b ≠ .eq := hl.lex_ne (hsub.subset ha) (hsub.subset hb) hab.2
  cases hc : compareLex key tie a b with
  | lt => rfl
  | eq => exact absurd hc hne
  | gt => exact absurd hc hab.1

variable [hkey : Std.TransCmp key]

theorem stable_pairwise (hl : Ranked tie l) :
    (stable key l).Pairwise (fun a b => compareLex key tie a b = .lt) := by
  have htrans : ∀ x y z : α, (key x y).isLE → (key y z).isLE → (key x z).isLE :=
    fun _ _ _ => Std.TransCmp.isLE_trans
  have htotal : ∀ x y : α, (key x y).isLE || (key y x).isLE := by
    intro x y
    have hswap : key y x = (key x y).swap := Std.OrientedCmp.eq_swap
    rw [hswap]
    cases key x y <;> rfl
  have hsorted := pairwise_mergeSort htrans htotal l
  have hnodup : (stable key l).Nodup := (stable_perm key l).nodup_iff.mpr hl.1
  refine pairwise_iff_forall_sublist.mpr fun {a b} hab => ?_
  have hle : (key a b).isLE := pairwise_iff_forall_sublist.mp hsorted hab
  have hne : a ≠ b := by
    rintro rfl
    exact not_both_before hnodup hab hab
  have ha := (stable_perm key l).mem_iff.mp (hab.subset mem_cons_self)
  have hb := (stable_perm key l).mem_iff.mp (hab.subset (mem_cons_of_mem _ mem_cons_self))
  unfold compareLex
  cases hk : key a b with
  | gt => simp [hk] at hle
  | lt => rfl
  | eq =>
    rcases pair_sublist_or ha hb hne with h | h
    · exact pairwise_iff_forall_sublist.mp hl.2 h
    · have hba : (key b a).isLE := by
        have hswap : key b a = (key a b).swap := Std.OrientedCmp.eq_swap
        rw [hswap, hk]
        rfl
      exact absurd (pair_sublist_mergeSort htrans htotal hba h) (not_both_before hnodup hab)

variable [htie : Std.TransCmp tie]

theorem eq_stable (hl : Ranked tie l) (hperm : l'.Perm l)
    (hsorted : l'.Pairwise (fun a b => compareLex key tie a b = .lt)) : l' = stable key l := by
  refine Perm.eq_of_pairwise (fun a b ha hb hab hba => ?_) hsorted (stable_pairwise hl)
    (hperm.trans (stable_perm key l).symm)
  have hswap : compareLex key tie b a = (compareLex key tie a b).swap := Std.OrientedCmp.eq_swap
  rw [hab, hba] at hswap
  cases hswap

/-- The part that was moved to the front, once sorted, is the beginning of the stable sort. -/
theorem front_eq_take {k : Nat} {part front : List α} (hl : Ranked tie l) (hk : k < l.length)
    (hperm : part.Perm l) (hparted : ∀ a ∈ part.take k, ∀ b ∈ part.drop k, compareLex key tie a b ≠ .gt)
    (hfp : front.Perm (part.take k)) (hfs : front.Pairwise (fun a b => compareLex key tie a b = .lt)) :
    front = (stable key l).take k := by
  have hnodup : part.Nodup := hperm.nodup_iff.mpr hl.1
  -- the part left behind, sorted as well, makes the whole list
  let back := (part.drop k).mergeSort (fun a b => (compareLex key tie a b).isLE)
  have hbp : back.Perm (part.drop k) := mergeSort_perm _ _
  have hbs : back.Pairwise (fun a b => compareLex key tie a b = .lt) := by
    have hsorted : back.Pairwise (fun a b => (compareLex key tie a b).isLE) := by
      refine pairwise_mergeSort (fun _ _ _ => Std.TransCmp.isLE_trans) (fun a b => ?_) _
      have hswap : compareLex key tie b a = (compareLex key tie a b).swap := Std.OrientedCmp.eq_swap
      rw [hswap]
      cases compareLex key tie a b <;> rfl
    have hsub : back <+~ l := hbp.subperm.trans ((drop_sublist k part).subperm.trans hperm.subperm)
    refine strict_of_sorted hl hsub (hsorted.imp fun {a b} hab hgt => ?_)
    rw [hgt] at hab
    cases hab
  have hwhole : front ++ back = stable key l := by
    refine eq_stable hl ?_ (pairwise_append.mpr ⟨hfs, hbs, fun a ha b hb => ?_⟩)
    · refine (hfp.append hbp).trans ?_
      rw [take_append_drop]
      exact hperm
    · have ha' := hfp.mem_iff.mp ha
      have hb' := hbp.mem_iff.mp hb
      have hab : a ≠ b := by
        rintro rfl
        rw [← take_append_drop k part] at hnodup
        exact (nodup_append.mp hnodup).2.2 a ha' a hb' rfl
      have hgt := hparted a ha' b hb'
      have heq : compareLex key tie a b ≠ .eq :=
        hl.lex_ne (hperm.mem_iff.mp (mem_of_mem_take ha')) (hperm.mem_iff.mp (mem_of_mem_drop hb')) hab
      cases hc : compareLex key tie a b with
      | lt => rfl
      | eq => exact absurd hc heq
      | gt => exact absurd hc hgt
  have hlen : front.length = k := by
    rw [hfp.length_eq, length_take, hperm.length_eq]
    omega
  rw [← hwhole, ← hlen, take_left]

section Sorting

variable {cmp : α → α → Except ε Ordering} {k : Nat}
  {sort : (α → α → Except ε Ordering) → List α → Except ε (List α)}
  {select : Nat → (α → α → Except ε Ordering) → List α → Except ε (List α)}

theorem sorted_eq_stable (hs : Sorts sort) (hf : Follows cmp (compareLex key tie))
    (hl : Ranked tie l) {r : List α} (h : sort cmp l = .ok r) : r = stable key l :=
  eq_stable hl (hs.perm h)
    (hs.pairwise hf hl.1 (fun _ ha _ hb hne _ => hl.lex_ne ha hb hne) h)

theorem front_eq_stable (hs : Sorts sort) (hsel : Partitions select)
    (hf : Follows cmp (compareLex key tie)) (hl : Ranked tie l) (hk : k < l.length)
    {part front : List α} (h : select k cmp l = .ok part)
    (hfront : sort cmp (part.take k) = .ok front) : front = (stable key l).take k := by
  have hperm := hsel.perm h
  have hnodup : part.Nodup := hperm.nodup_iff.mpr hl.1
  refine front_eq_take hl hk hperm (hsel.parted inferInstance hf hk h) (hs.perm hfront) ?_
  refine hs.pairwise hf (hnodup.sublist (take_sublist k part)) (fun a ha b hb hab _ => ?_) hfront
  exact hl.lex_ne (hperm.mem_iff.mp (mem_of_mem_take ha)) (hperm.mem_iff.mp (mem_of_mem_take hb)) hab

theorem sort_eq_stable (hs : SortsTotal sort) (hl : Ranked tie l)
    (htotal : Total cmp (compareLex key tie) l) : sort cmp l = .ok (stable key l) := by
  obtain ⟨r, hr, hperm, hsorted⟩ := hs.sorted inferInstance htotal
  rw [hr, eq_stable hl hperm (strict_of_sorted hl hperm.subperm hsorted)]

/-- The first `k` of the stable sort, from a selection of them. -/
theorem select_sort_eq_stable (hs : SortsTotal sort) (hsel : SelectsTotal select) (hl : Ranked tie l)
    (htotal : Total cmp (compareLex key tie) l) (hk : k < l.length) :
    (do sort cmp ((← select k cmp l).take k)) = .ok ((stable key l).take k) := by
  obtain ⟨part, hpart, hperm, hparted⟩ := hsel.parted inferInstance htotal hk
  have hsub : part.take k <+~ l := (take_sublist k part).subperm.trans hperm.subperm
  obtain ⟨front, hfront, hfp, hsorted⟩ := hs.sorted (l := part.take k) inferInstance
    fun a ha b hb => htotal a (hsub.subset ha) b (hsub.subset hb)
  rw [hpart, ok_bind, hfront,
    front_eq_take hl hk hperm hparted hfp (strict_of_sorted hl (hfp.subperm.trans hsub) hsorted)]

end Sorting

end StableSort
