import Veldb.RowLocal
import Veldb.SelectRun

/-! The frame of keys and aggregates has one entry for each group in every column, so
what follows the grouping is evaluated over whole columns. -/

namespace Veldb

open Attempts Arr

variable {rt : Runtime} {α β : Type} {n ngroups : Nat} {groupOf : List Nat}

theorem bump_length {acc acc' : List α} {g : Nat} {f : α → α} (h : bump acc g f = .ok acc') :
    acc'.length = acc.length := by
  obtain ⟨a, -, rfl⟩ := bind_pure_eq_ok.mp h
  exact List.length_set

theorem foldGroups_length {v : Nat → Exec β} {f : β → α → α} {acc acc' : List α}
    (h : foldGroups n groupOf v f acc = .ok acc') : acc'.length = acc.length := by
  refine foldlM_invariant (I := fun a : List α => a.length = acc.length) ?_ h rfl
  intro s i s' hstep hs
  obtain ⟨g, -, hstep⟩ := bind_eq_ok.mp hstep
  obtain ⟨x, -, hbump⟩ := bind_eq_ok.mp hstep
  exact (bump_length hbump).trans hs

theorem countRows_len {c : Column} (h : countRows n groupOf ngroups = .ok c) :
    c.len = ngroups := by
  obtain ⟨counts, hcounts, rfl⟩ := bind_pure_eq_ok.mp h
  have hlen : counts.length = ngroups := by
    refine foldlM_invariant (I := fun a : List Nat => a.length = ngroups) ?_ hcounts (by simp)
    intro s g s' hstep hs
    exact (bump_length hstep).trans hs
  simpa [Column.len] using hlen

section Aggregates

variable {v : Arr} {c : Column}

theorem folded_len {α β : Type} {value : Nat → Exec β} {k : β → α → α} {z : α}
    {mk : List α → Column}
    (h : (do return mk (← foldGroups n groupOf value k (List.replicate ngroups z))) = .ok c)
    (hmk : ∀ w, (mk w).len = w.length) : c.len = ngroups := by
  obtain ⟨w, hw, rfl⟩ := bind_pure_eq_ok.mp h
  rw [hmk, foldGroups_length hw, List.length_replicate]

theorem sumAgg_len (h : sumAgg rt v n groupOf ngroups = .ok c) : c.len = ngroups := by
  cases v with
  | i64 x => exact folded_len h fun _ => rfl
  | f64 x => exact folded_len h fun _ => rfl
  | bool x => exact folded_len h fun _ => rfl
  | str x => cases h
  | vector dim x => cases h

theorem avgAgg_len (h : avgAgg rt v n groupOf ngroups = .ok c) : c.len = ngroups := by
  obtain ⟨x, -, h⟩ := bind_eq_ok.mp h
  exact folded_len h fun _ => List.length_map _

theorem extremeAgg_len {isMin : Bool} (h : extremeAgg rt isMin v n groupOf ngroups = .ok c) :
    c.len = ngroups := by
  cases v with
  | i64 x => exact folded_len h fun _ => List.length_map _
  | str x => exact folded_len h fun _ => (StrColumn.len_pushed _).trans (List.length_map _)
  | f64 x => exact folded_len h fun _ => List.length_map _
  | bool x => exact folded_len h fun _ => List.length_map _
  | vector dim x => cases h

theorem runAgg_len {agg : Expr} {f : Frame} {sel : Sel}
    (h : runAgg rt agg f sel groupOf ngroups = .ok c) : c.len = ngroups := by
  cases agg with
  | agg func arg distinct =>
    cases arg with
    | none => exact countRows_len h
    | some arg =>
      obtain ⟨v, -, h⟩ := bind_eq_ok.mp h
      cases distinct with
      | true =>
        obtain ⟨sets, hsets, rfl⟩ := bind_pure_eq_ok.mp h
        simpa [Column.len] using foldGroups_length hsets
      | false =>
        cases func with
        | count => exact countRows_len h
        | sum => exact sumAgg_len h
        | avg => exact avgAgg_len h
        | min => exact extremeAgg_len h
        | max => exact extremeAgg_len h
  | _ => cases h

end Aggregates

theorem assignGroups_length {keys : List Arr} (h : assignGroups keys n = .ok (groupOf, ngroups)) :
    groupOf.length = n := by
  unfold assignGroups at h
  by_cases hkeys : keys.isEmpty = true
  · rw [if_pos hkeys] at h
    obtain ⟨rfl, -⟩ := Prod.mk.inj (pure_eq_ok.mp h)
    exact List.length_replicate
  · rw [if_neg hkeys] at h
    obtain ⟨s, hs, hend⟩ := bind_pure_eq_ok.mp h
    obtain ⟨rfl, -⟩ := Prod.mk.inj hend
    have hfold : ∀ (l : List Nat) (s s' : List (Bytes × Nat) × List Nat),
        l.foldlM (assignStep keys) s = .ok s' → s'.2.length = s.2.length + l.length := by
      intro l
      induction l with
      | nil =>
        intro s s' h
        obtain rfl := pure_eq_ok.mp h
        rfl
      | cons i l ih =>
        intro s s' h
        rw [List.foldlM_cons] at h
        obtain ⟨t, ht, h⟩ := bind_eq_ok.mp h
        obtain ⟨buf, -, hstep⟩ := bind_eq_ok.mp ht
        have hone : t.2.length = s.2.length + 1 := by
          cases hl : s.1.lookup buf <;> rw [hl] at hstep <;> obtain rfl := pure_eq_ok.mp hstep <;>
            simp
        rw [ih t s' h, hone, List.length_cons]
        omega
    simpa using hfold _ _ _ hs

theorem assignGroups_vector {keys : List Arr} {dim : UInt64} {rows : List (List F32)}
    (hmem : Arr.vector dim rows ∈ keys) (h : assignGroups keys n = .ok (groupOf, ngroups)) :
    ngroups = 0 := by
  unfold assignGroups at h
  rw [if_neg (by simpa using List.ne_nil_of_mem hmem)] at h
  obtain ⟨s, hs, hend⟩ := bind_pure_eq_ok.mp h
  obtain ⟨-, rfl⟩ := Prod.mk.inj hend
  cases n with
  | zero =>
    obtain rfl := pure_eq_ok.mp hs
    rfl
  | succ n =>
    rw [List.range_succ_eq_map, List.foldlM_cons] at hs
    obtain ⟨t, ht, -⟩ := bind_eq_ok.mp hs
    obtain ⟨buf, hbuf, -⟩ := bind_eq_ok.mp ht
    obtain ⟨parts, hparts, -⟩ := bind_pure_eq_ok.mp hbuf
    obtain ⟨b, -, hb⟩ := mapM_mem hparts hmem
    cases hb

theorem pickFirstPerGroup_len {a a' : Arr} (h : pickFirstPerGroup a groupOf ngroups = .ok a') :
    a'.len = ngroups ∧ a'.dataType = a.dataType := by
  obtain ⟨src, hsrc, h⟩ := bind_eq_ok.mp h
  have hlen : src.length = ngroups := by
    refine foldlM_invariant (I := fun s : List (Option Nat) => s.length = ngroups) ?_ hsrc (by simp)
    intro s p s' hstep hs
    exact (bump_length hstep).trans hs
  cases a with
  | i64 v =>
    obtain ⟨w, hw, rfl⟩ := bind_pure_eq_ok.mp h
    exact ⟨(mapM_length hw).trans hlen, rfl⟩
  | f64 v =>
    obtain ⟨w, hw, rfl⟩ := bind_pure_eq_ok.mp h
    exact ⟨(mapM_length hw).trans hlen, rfl⟩
  | bool v =>
    obtain ⟨w, hw, rfl⟩ := bind_pure_eq_ok.mp h
    exact ⟨(mapM_length hw).trans hlen, rfl⟩
  | str v =>
    obtain ⟨w, hw, rfl⟩ := bind_pure_eq_ok.mp h
    exact ⟨(mapM_length hw).trans hlen, rfl⟩
  | vector dim rows =>
    obtain ⟨w, hw, rfl⟩ := bind_pure_eq_ok.mp h
    exact ⟨(mapM_length hw).trans hlen, rfl⟩

theorem intoColumn_len {a : Arr} (h : ∀ dim rows, a = .vector dim rows → rows = []) :
    a.intoColumn.len = a.len := by
  cases a with
  | str v => exact StrColumn.len_pushed v
  | vector dim rows => simp [intoColumn, Column.len, len, h dim rows rfl]
  | _ => rfl

theorem groupColumns_covers {plan : Select} {f : Frame} {sel : Sel} {cols : List Column}
    (h : groupColumns rt plan f sel = .ok (cols, n)) : (Sel.all n).Covers ⟨cols⟩ := by
  obtain ⟨keys, -, h⟩ := bind_eq_ok.mp h
  obtain ⟨⟨groupOf, ngroups⟩, hgroups, h⟩ := bind_eq_ok.mp h
  obtain ⟨keyCols, hkc, h⟩ := bind_eq_ok.mp h
  obtain ⟨aggCols, hac, hend⟩ := bind_pure_eq_ok.mp h
  obtain ⟨rfl, rfl⟩ := Prod.mk.inj hend
  rintro m hm c hc
  obtain rfl := Sel.all.inj hm
  rcases List.mem_append.mp hc with hc | hc
  · obtain ⟨key, hkey, hpick⟩ := exists_of_mem_mapM hkc hc
    obtain ⟨a, ha, rfl⟩ := bind_pure_eq_ok.mp hpick
    obtain ⟨hlen, hty⟩ := pickFirstPerGroup_len ha
    rw [intoColumn_len, hlen]
    rintro dim rows rfl
    cases key with
    | vector dim' rows' =>
      exact List.length_eq_zero_iff.mp (hlen.trans (assignGroups_vector hkey hgroups))
    | _ => cases hty
  · obtain ⟨agg, -, hagg⟩ := exists_of_mem_mapM hac hc
    exact runAgg_len hagg

theorem aggregate_covers {plan : Select} {f : Frame} {sel : Sel} {g : Grouped}
    (h : aggregate rt plan f sel = .ok g) : (Sel.all g.ngroups).Covers ⟨g.columns⟩ := by
  obtain ⟨⟨cols, n⟩, hcols, h⟩ := bind_eq_ok.mp h
  obtain ⟨_, _, hpure⟩ := bind_eq_ok.mp h
  obtain rfl := pure_eq_ok.mp hpure
  exact groupColumns_covers hcols

end Veldb
