import Mathlib.Data.List.Nodup
import Mathlib.Data.List.Pairwise
import Veldb.Library.Attempts

/-! Sorting by a comparison that may fail: a failure comes from two elements that the
comparison cannot tell apart, and where there are such elements the sort fails. -/

namespace Comparisons

open Attempts

variable {ε α : Type}

/-- Where the comparison answers, it answers as the order does. -/
def Follows (cmp : α → α → Except ε Ordering) (ord : α → α → Ordering) : Prop :=
  ∀ a b o, cmp a b = .ok o → o = ord a b

/-- One of the two comparisons of `a` and `b` has put `a` first. -/
def Told (cmp : α → α → Except ε Ordering) (a b : α) : Prop :=
  (∃ o, cmp a b = .ok o ∧ o ≠ .gt) ∨ ∃ o, cmp b a = .ok o ∧ o ≠ .lt

/-- Two elements at different places. -/
def Apart (l : List α) (a b : α) : Prop :=
  ∃ i j : Nat, i ≠ j ∧ l[i]? = some a ∧ l[j]? = some b

/-- What a sort does by a comparison that may fail. It fails where the comparison does, on two elements
at different places: none is compared with itself. -/
structure Rearranges (sort : (α → α → Except ε Ordering) → List α → Except ε (List α)) : Prop where
  perm : ∀ {cmp l l'}, sort cmp l = .ok l' → l'.Perm l
  failed : ∀ {cmp ord l e}, Std.TransCmp ord → Follows cmp ord → sort cmp l = .error e →
    ∃ a b, Apart l a b ∧ cmp a b = .error e

/-- Where no two elements compare equal, the order of neighbours in the result comes from comparing
them: the sort would have put them the other way round had the comparison said so. -/
structure Sorts (sort : (α → α → Except ε Ordering) → List α → Except ε (List α)) : Prop
    extends Rearranges sort where
  told : ∀ {cmp ord l l'}, Std.TransCmp ord → Follows cmp ord →
    (∀ a b, Apart l a b → cmp a b ≠ .ok .eq) → sort cmp l = .ok l' → l'.IsChain (Told cmp)

/-- What the selection of the `k`-th element does, for a `k` within the list. -/
structure Selects (select : Nat → (α → α → Except ε Ordering) → List α → Except ε (List α)) :
    Prop where
  perm : ∀ {k cmp l l'}, select k cmp l = .ok l' → l'.Perm l
  failed : ∀ {k cmp ord l e}, Std.TransCmp ord → Follows cmp ord → k < l.length →
    select k cmp l = .error e → ∃ a b, Apart l a b ∧ cmp a b = .error e

/-- What it moves in front of the `k`-th element comes before what it leaves behind. -/
structure Partitions (select : Nat → (α → α → Except ε Ordering) → List α → Except ε (List α)) :
    Prop extends Selects select where
  parted : ∀ {k cmp ord l l'}, Std.TransCmp ord → Follows cmp ord → k < l.length →
    select k cmp l = .ok l' → ∀ a ∈ l'.take k, ∀ b ∈ l'.drop k, ord a b ≠ .gt

/-- On the elements of the list the comparison answers as the order does. -/
def Total (cmp : α → α → Except ε Ordering) (ord : α → α → Ordering) (l : List α) : Prop :=
  ∀ a ∈ l, ∀ b ∈ l, cmp a b = .ok (ord a b)

/-- What a sort promises of a comparison that is a total order. -/
structure SortsTotal (sort : (α → α → Except ε Ordering) → List α → Except ε (List α)) : Prop where
  sorted : ∀ {cmp ord l}, Std.TransCmp ord → Total cmp ord l →
    ∃ l', sort cmp l = .ok l' ∧ l'.Perm l ∧ l'.Pairwise (fun a b => ord a b ≠ .gt)

/-- What a selection promises of a comparison that is a total order. -/
structure SelectsTotal (select : Nat → (α → α → Except ε Ordering) → List α → Except ε (List α)) :
    Prop where
  parted : ∀ {k cmp ord l}, Std.TransCmp ord → Total cmp ord l → k < l.length →
    ∃ l', select k cmp l = .ok l' ∧ l'.Perm l ∧ ∀ a ∈ l'.take k, ∀ b ∈ l'.drop k, ord a b ≠ .gt

theorem Apart.mem {l : List α} {a b : α} (h : Apart l a b) : a ∈ l ∧ b ∈ l := by
  obtain ⟨i, j, -, hi, hj⟩ := h
  exact ⟨List.mem_of_getElem? hi, List.mem_of_getElem? hj⟩

theorem Apart.ne {l : List α} {a b : α} (h : Apart l a b) (hl : l.Nodup) : a ≠ b := by
  obtain ⟨i, j, hij, hi, hj⟩ := h
  obtain ⟨hi, rfl⟩ := List.getElem?_eq_some_iff.mp hi
  obtain ⟨hj, rfl⟩ := List.getElem?_eq_some_iff.mp hj
  exact fun heq => hij ((hl.getElem_inj_iff).mp heq)

theorem Apart.cons {l : List α} {a b : α} (h : Apart l a b) (x : α) : Apart (x :: l) a b := by
  obtain ⟨i, j, hij, hi, hj⟩ := h
  exact ⟨i + 1, j + 1, by omega, hi, hj⟩

theorem apart_head {l : List α} {x y : α} (hy : y ∈ l) : Apart (x :: l) x y := by
  obtain ⟨j, hj⟩ := List.getElem?_of_mem hy
  exact ⟨0, j + 1, by omega, rfl, hj⟩

section

variable {cmp : α → α → Except ε Ordering} {ord : α → α → Ordering} [hord : Std.TransCmp ord]
  {p : ε → Prop} {l : List α}

/-- Neighbours that were told apart stand in strict order. -/
theorem lt_of_told (hf : Follows cmp ord) {a b : α} (hne : ord a b ≠ .eq) (h : Told cmp a b) :
    ord a b = .lt := by
  rcases h with ⟨o, ho, hgt⟩ | ⟨o, ho, hlt⟩
  · have heq := hf a b o ho
    cases hab : ord a b with
    | lt => rfl
    | eq => exact absurd hab hne
    | gt => exact absurd (heq.trans hab) hgt
  · have heq := hf b a o ho
    have hswap : ord a b = (ord b a).swap := Std.OrientedCmp.eq_swap
    cases hba : ord b a with
    | lt => exact absurd (heq.trans hba) hlt
    | eq => exact absurd (by rw [hswap, hba]; rfl) hne
    | gt => rw [hswap, hba]; rfl

/-- A sort whose comparison answers for no two equal elements puts the list in strict order. -/
theorem Sorts.pairwise {sort : (α → α → Except ε Ordering) → List α → Except ε (List α)}
    (hs : Sorts sort) (hf : Follows cmp ord) (hl : l.Nodup) {l' : List α}
    (hne : ∀ a ∈ l, ∀ b ∈ l, a ≠ b → Told cmp a b → ord a b ≠ .eq) (h : sort cmp l = .ok l') :
    l'.Pairwise (fun a b => ord a b = .lt) := by
  have hperm := hs.perm h
  have hl' : l'.Nodup := hperm.nodup_iff.mpr hl
  have hapart : ∀ a b, Apart l a b → cmp a b ≠ .ok .eq := fun a b hab heq =>
    hne a hab.mem.1 b hab.mem.2 (hab.ne hl) (.inl ⟨.eq, heq, by simp⟩) (hf a b .eq heq).symm
  have hstrict : l'.IsChain (fun x y => ord x y = .lt) := by
    refine List.isChain_iff_getElem.mpr fun i hi => ?_
    have htold := List.isChain_iff_getElem.mp (hs.told hord hf hapart h) i hi
    have hx : l'[i] ∈ l := hperm.mem_iff.mp (List.getElem_mem _)
    have hy : l'[i + 1] ∈ l := hperm.mem_iff.mp (List.getElem_mem _)
    have hxy : l'[i] ≠ l'[i + 1] := fun h => by
      have := (hl'.getElem_inj_iff).mp h
      omega
    exact lt_of_told hf (hne _ hx _ hy hxy htold) htold
  have : IsTrans α (fun x y => ord x y = .lt) := ⟨fun _ _ _ => Std.TransCmp.lt_trans⟩
  exact List.isChain_iff_pairwise.mp hstrict

end

end Comparisons
