import Mathlib.Data.List.Induction
import Mathlib.Data.List.Nodup

/-! A sequence of keys numbered by their first occurrences: equal keys have equal numbers, and
a number is given after every smaller one. -/

namespace FirstOccurrences

variable {κ : Type} [BEq κ] [LawfulBEq κ] {l m : List κ} {k : κ} {i j a b : Nat}

/-- The different keys in the order in which they come up. -/
def firsts (l : List κ) : List κ :=
  l.foldl (fun seen k => if k ∈ seen then seen else seen ++ [k]) []

def numbers (l : List κ) : List Nat :=
  l.map fun k => (firsts l).idxOf k

theorem firsts_concat (l : List κ) (k : κ) :
    firsts (l ++ [k]) = if k ∈ firsts l then firsts l else firsts l ++ [k] :=
  List.foldl_concat (fun seen k => if k ∈ seen then seen else seen ++ [k]) [] k l

theorem mem_firsts : k ∈ firsts l ↔ k ∈ l := by
  induction l using List.reverseRecOn with
  | nil => rfl
  | append_singleton l x ih =>
    rw [firsts_concat]
    by_cases hx : x ∈ firsts l
    · rw [if_pos hx, ih, List.mem_append, List.mem_singleton]
      constructor
      · exact Or.inl
      · rintro (hk | rfl)
        · exact hk
        · exact ih.mp hx
    · rw [if_neg hx, List.mem_append, List.mem_append, ih]

theorem nodup_firsts (l : List κ) : (firsts l).Nodup := by
  induction l using List.reverseRecOn with
  | nil => exact List.nodup_nil
  | append_singleton l x ih =>
    rw [firsts_concat]
    by_cases hx : x ∈ firsts l
    · rwa [if_pos hx]
    · rw [if_neg hx, ← List.concat_eq_append]
      exact ih.concat hx

theorem length_firsts_le (l : List κ) : (firsts l).length ≤ l.length := by
  induction l using List.reverseRecOn with
  | nil => exact Nat.le_refl 0
  | append_singleton l x ih =>
    rw [firsts_concat, List.length_append, List.length_singleton]
    by_cases hx : x ∈ firsts l
    · rw [if_pos hx]
      omega
    · rw [if_neg hx, List.length_append, List.length_singleton]
      omega

theorem firsts_initial (l m : List κ) : firsts l <+: firsts (l ++ m) := by
  induction m using List.reverseRecOn with
  | nil => simp
  | append_singleton m x ih =>
    rw [← List.append_assoc, firsts_concat]
    by_cases hx : x ∈ firsts (l ++ m)
    · rwa [if_pos hx]
    · rw [if_neg hx]
      exact ih.trans (List.prefix_append _ _)

theorem idxOf_firsts (hk : k ∈ l) (m : List κ) :
    (firsts (l ++ m)).idxOf k = (firsts l).idxOf k :=
  ((firsts_initial l m).idxOf_eq_of_mem (mem_firsts.mpr hk)).symm

theorem numbers_concat (l : List κ) (k : κ) :
    numbers (l ++ [k]) = numbers l ++ [(firsts l).idxOf k] := by
  unfold numbers
  rw [List.map_append, List.map_singleton]
  congr 1
  · refine List.map_congr_left fun x hx => idxOf_firsts hx [k]
  · rw [firsts_concat]
    by_cases hk : k ∈ firsts l
    · rw [if_pos hk]
    · rw [if_neg hk, List.idxOf_append_of_notMem hk, List.idxOf_eq_length hk]
      simp

theorem length_numbers (l : List κ) : (numbers l).length = l.length :=
  List.length_map _

theorem numbers_eq_some : (numbers l)[i]? = some a ↔ ∃ k, l[i]? = some k ∧ (firsts l).idxOf k = a := by
  rw [numbers, List.getElem?_map, Option.map_eq_some_iff]

theorem lt_of_numbers (h : (numbers l)[i]? = some a) : a < (firsts l).length := by
  obtain ⟨k, hk, rfl⟩ := numbers_eq_some.mp h
  exact List.idxOf_lt_length_of_mem (mem_firsts.mpr (List.mem_of_getElem? hk))

/-- Two places have the same number exactly when they have the same key. -/
theorem numbers_eq_iff (hi : i < l.length) : (numbers l)[i]? = (numbers l)[j]? ↔ l[i]? = l[j]? := by
  rw [numbers, List.getElem?_map, List.getElem?_map, List.getElem?_eq_getElem hi]
  cases hj : l[j]? with
  | none => simp
  | some k =>
    simp only [Option.map_some, Option.some.injEq]
    exact List.idxOf_inj (mem_firsts.mpr (List.getElem_mem hi))

theorem exists_of_lt (ha : a < (firsts l).length) : ∃ i : Nat, (numbers l)[i]? = some a := by
  obtain ⟨i, hi⟩ := List.getElem?_of_mem (mem_firsts.mp (List.getElem_mem ha))
  exact ⟨i, numbers_eq_some.mpr ⟨_, hi, (nodup_firsts l).idxOf_getElem a ha⟩⟩

/-- Every smaller number is given at an earlier place. -/
theorem exists_before (h : (numbers l)[i]? = some a) (hb : b < a) :
    ∃ j < i, (numbers l)[j]? = some b := by
  induction l using List.reverseRecOn generalizing i with
  | nil => simp [numbers] at h
  | append_singleton l x ih =>
    rw [numbers_concat] at h ⊢
    by_cases hi : i < (numbers l).length
    · rw [List.getElem?_append_left hi] at h
      obtain ⟨j, hj, hget⟩ := ih h
      exact ⟨j, hj, by rw [List.getElem?_append_left (by omega), hget]⟩
    · have hlast : i = (numbers l).length := by
        have hlt := (List.getElem?_eq_some_iff.mp h).1
        simp only [List.length_append, List.length_singleton] at hlt
        omega
      subst hlast
      have ha : (firsts l).idxOf x = a := by simpa using h
      have hle : (firsts l).idxOf x ≤ (firsts l).length := List.idxOf_le_length
      obtain ⟨j, hj⟩ := exists_of_lt (l := l) (a := b) (by omega)
      have hlt := (List.getElem?_eq_some_iff.mp hj).1
      exact ⟨j, hlt, by rw [List.getElem?_append_left hlt, hj]⟩

theorem idxOf_eq_number (hi : l[i]? = some k) : (numbers l)[i]? = some ((firsts l).idxOf k) :=
  numbers_eq_some.mpr ⟨k, hi, rfl⟩

/-- The numbers depend only on which places have equal keys. -/
theorem numbers_congr {μ : Type} [BEq μ] [LawfulBEq μ] {m : List μ} (hlen : l.length = m.length)
    (h : ∀ i j, i < l.length → j < l.length → (l[i]? = l[j]? ↔ m[i]? = m[j]?)) :
    numbers l = numbers m ∧ (firsts l).length = (firsts m).length := by
  induction l using List.reverseRecOn generalizing m with
  | nil =>
    obtain rfl := List.length_eq_zero_iff.mp hlen.symm
    exact ⟨rfl, rfl⟩
  | append_singleton l x ih =>
    obtain ⟨m, y, rfl⟩ : ∃ m' y, m = m' ++ [y] := by
      have hne : m ≠ [] := by
        rintro rfl
        simp at hlen
      exact ⟨_, _, (List.dropLast_append_getLast hne).symm⟩
    have hlm : l.length = m.length := by simpa using hlen
    have hsame : ∀ i j, i < l.length → j < l.length → (l[i]? = l[j]? ↔ m[i]? = m[j]?) := by
      intro i j hi hj
      have hij := h i j (by simp; omega) (by simp; omega)
      rwa [List.getElem?_append_left hi, List.getElem?_append_left hj,
        List.getElem?_append_left (hlm ▸ hi), List.getElem?_append_left (hlm ▸ hj)] at hij
    -- the last key has come up at the same places in both
    have hlast : ∀ i, i < l.length → (l[i]? = some x ↔ m[i]? = some y) := by
      intro i hi
      have hil := h i l.length (by simp; omega) (by simp)
      have hend : (m ++ [y])[l.length]? = some y := by
        rw [hlm]
        exact List.getElem?_concat_length
      rwa [List.getElem?_append_left hi, List.getElem?_append_left (hlm ▸ hi : i < m.length), hend,
        List.getElem?_concat_length] at hil
    obtain ⟨hnumbers, hcount⟩ := ih hlm hsame
    rw [numbers_concat, numbers_concat, firsts_concat, firsts_concat, hnumbers]
    by_cases hx : x ∈ l
    · obtain ⟨i, hi⟩ := List.getElem?_of_mem hx
      have hy := (hlast i (List.getElem?_eq_some_iff.mp hi).1).mp hi
      have hplace := idxOf_eq_number hi
      rw [hnumbers, idxOf_eq_number hy] at hplace
      rw [if_pos (mem_firsts.mpr hx), if_pos (mem_firsts.mpr (List.mem_of_getElem? hy)), hcount,
        Option.some.inj hplace]
      exact ⟨rfl, rfl⟩
    · have hy : y ∉ m := by
        intro hy
        obtain ⟨i, hi⟩ := List.getElem?_of_mem hy
        have hlt := (List.getElem?_eq_some_iff.mp hi).1
        exact hx (List.mem_of_getElem? ((hlast i (hlm ▸ hlt)).mpr hi))
      have hxf : x ∉ firsts l := fun hmem => hx (mem_firsts.mp hmem)
      have hyf : y ∉ firsts m := fun hmem => hy (mem_firsts.mp hmem)
      rw [if_neg hxf, if_neg hyf, List.idxOf_eq_length hxf, List.idxOf_eq_length hyf, hcount]
      simp [hcount]

end FirstOccurrences
