import Veldb.Db

/-! The catalog as a map from lower-cased names: its tables are filed under
their own names, so a list of them determines it. -/

namespace Veldb

variable {lower : String → String}

namespace Catalog

/-- Every table is filed under its own name. -/
def Keyed (lower : String → String) (m : Catalog) : Prop :=
  ∀ k t, m.lookup k = some t → k = lower t.name

theorem lookup_insert_eq (m : Catalog) (k k' : String) (t : Table) :
    (m.insert k t).lookup k' = if k' = k then some t else m.lookup k' := by
  split
  · next h => rw [h, Finmap.lookup_insert]
  · next h => rw [Finmap.lookup_insert_of_ne _ h]

theorem lookup_erase_eq (m : Catalog) (k k' : String) :
    (m.erase k).lookup k' = if k' = k then none else m.lookup k' := by
  split
  · next h => rw [h, Finmap.lookup_erase]
  · next h => rw [Finmap.lookup_erase_ne h]

theorem insert_lookup_self {m : Catalog} {k : String} {t : Table} (h : m.lookup k = some t) :
    m.insert k t = m := by
  refine Finmap.ext_lookup (fun k' => ?_)
  rw [lookup_insert_eq]
  split
  · next hk => rw [hk, h]
  · rfl

theorem insert_ne_self {m : Catalog} {k : String} {t : Table} (h : m.lookup k ≠ some t) :
    m.insert k t ≠ m := by
  intro he
  refine h ?_
  rw [← he]
  exact Finmap.lookup_insert _

/-- Dropping a table changes the catalog exactly when the table is there. -/
theorem erase_eq_self_iff {m : Catalog} {k : String} : m.erase k = m ↔ m.lookup k = none := by
  constructor
  · intro he
    rw [← he]
    exact Finmap.lookup_erase _ _
  · intro hnone
    refine Finmap.ext_lookup (fun k' => ?_)
    rw [lookup_erase_eq]
    split
    · next hk => rw [hk, hnone]
    · rfl

theorem keyed_empty : Keyed lower ∅ := by
  intro k t h
  simp at h

theorem Keyed.insert {m : Catalog} (h : m.Keyed lower) {k : String} {t : Table}
    (hk : k = lower t.name) : Keyed lower (m.insert k t) := by
  intro k' t' hl
  rw [lookup_insert_eq] at hl
  split at hl
  · next he => rw [he, ← Option.some.inj hl, hk]
  · exact h k' t' hl

theorem lists_mem {m : Catalog} {tables : List Table} (hl : m.Lists tables) (t : Table) :
    t ∈ tables ↔ ∃ k, m.lookup k = some t := by
  have hm : t ∈ tables ↔ t ∈ m.entries.map Sigma.snd := by
    rw [← show (tables : Multiset Table) = m.entries.map Sigma.snd from hl, Multiset.mem_coe]
  rw [hm, Multiset.mem_map]
  constructor
  · rintro ⟨⟨k, t'⟩, he, rfl⟩
    exact ⟨k, Finmap.mem_lookup_iff.mpr he⟩
  · rintro ⟨k, hk⟩
    exact ⟨⟨k, t⟩, Finmap.mem_lookup_iff.mp hk, rfl⟩

theorem lookup_foldl_putTable (tables : List Table) (m : Catalog) (k : String) :
    (tables.foldl (putTable lower) m).lookup k =
      (tables.reverse.find? (fun t => lower t.name == k)).or (m.lookup k) := by
  induction tables generalizing m with
  | nil => simp
  | cons t ts ih =>
    rw [List.foldl_cons, ih, List.reverse_cons, List.find?_append, Option.or_assoc]
    congr 1
    rw [putTable, lookup_insert_eq]
    by_cases hk : k = lower t.name
    · simp [hk]
    · have hk' : ¬lower t.name = k := fun he => hk he.symm
      simp [hk, hk']

/-- A catalog is determined by its tables, in whatever order they are listed. -/
theorem ofTables_eq {m : Catalog} {tables : List Table} (hm : m.Keyed lower) (hl : m.Lists tables) :
    ofTables lower tables = m := by
  refine Finmap.ext_lookup (fun k => ?_)
  rw [ofTables, lookup_foldl_putTable, Finmap.lookup_empty, Option.or_none]
  cases hf : tables.reverse.find? (fun t => lower t.name == k) with
  | some t =>
    have hk : lower t.name = k := by simpa using List.find?_some hf
    have ht : t ∈ tables := by simpa using List.mem_of_find?_eq_some hf
    obtain ⟨k', hk'⟩ := (lists_mem hl t).mp ht
    rw [← hk, ← hm k' t hk', hk']
  | none =>
    cases hk : m.lookup k with
    | none => rfl
    | some t =>
      have ht := (lists_mem hl t).mpr ⟨k, hk⟩
      have hne := List.find?_eq_none.mp hf t (by simpa using ht)
      exact absurd (hm k t hk).symm (by simpa using hne)

end Catalog

end Veldb
