import Veldb.DroppedClauses
import Veldb.GroupCrashes
import Veldb.TableInvariant

/-! A query panics exactly when it comes to a part without a value, to groups without numbers
or to rows that its order cannot tell apart. -/

namespace Veldb

open Attempts Arr

section Stages

variable {rt : Runtime} {f : Frame} {s s' : Sel} {n N : Nat} {order : List Nat}

theorem Sel.Within.filtered (mask : List UInt8) (h : mask.length ≤ n) :
    (Sel.ids ((mask.zipIdx.filter (fun m => m.1 ≠ 0)).map (fun m => asU32 m.2))).Within n := by
  intro r hr
  obtain ⟨m, hm, rfl⟩ := List.mem_map.mp hr
  have hlt := List.snd_lt_of_mem_zipIdx (List.mem_of_mem_filter hm)
  have hle := asU32_le m.2
  omega

theorem asBool_sized {a : Arr} {mask : List UInt8} (ha : a.Sized n) (h : a.asBool = .ok mask) :
    mask.length = n ∨ mask.length = 1 := by
  rw [asBool_length h]
  exact ha

theorem runFilter_within {filter : Option Expr} (h : runFilter rt f n filter = .ok s) :
    s.Within n := by
  cases filter with
  | none =>
    obtain rfl := pure_eq_ok.mp h
    rfl
  | some e =>
    obtain ⟨a, ha, h⟩ := bind_eq_ok.mp h
    obtain ⟨mask, hmask, h⟩ := bind_eq_ok.mp h
    have hlen := asBool_sized (eval_sized ha) (withContext_eq_ok.mp hmask)
    rcases mask with _ | ⟨m, _ | ⟨m', rest⟩⟩
    · obtain rfl := pure_eq_ok.mp h
      simp [Sel.Within]
    · obtain rfl := pure_eq_ok.mp h
      split_ifs
      · rfl
      · simp [Sel.Within]
    · obtain rfl := pure_eq_ok.mp h
      exact Sel.Within.filtered _ (by simp only [List.length_cons, Sel.len] at hlen ⊢; omega)

theorem having_row {mask : List UInt8} {i : Nat} {o : Option Nat} (h : (do
      if (← index mask i) ≠ 0 then return some (asU32 (← s.row i)) else return none :
        Exec (Option Nat)) = .ok o) (hs : s.Within N) (hi : i < s.len) : ∀ r ∈ o, r < N := by
  obtain ⟨m, -, h⟩ := bind_eq_ok.mp h
  split_ifs at h
  · obtain ⟨r, hr, rfl⟩ := bind_pure_eq_ok.mp h
    intro r' hr'
    obtain rfl := Option.some.inj hr'
    exact lt_of_le_of_lt (asU32_le r) (hs.row_lt hi hr)
  · obtain rfl := pure_eq_ok.mp h
    simp

theorem runHaving_within {having : Option Expr} (hs : s.Within N)
    (h : runHaving rt f s having = .ok s') : s'.Within N := by
  cases having with
  | none =>
    obtain rfl := pure_eq_ok.mp h
    exact hs
  | some e =>
    obtain ⟨a, -, h⟩ := bind_eq_ok.mp h
    obtain ⟨mask, -, h⟩ := bind_eq_ok.mp h
    have hloop : ∀ mask : List UInt8, (do
        let ids ← (List.range s.len).filterMapM (fun i => do
          if (← index mask i) ≠ 0 then return some (asU32 (← s.row i)) else return none)
        return Sel.ids ids : Exec Sel) = .ok s' → s'.Within N := by
      intro mask h
      rw [filterMapM_eq_map] at h
      obtain ⟨ids, hids, rfl⟩ := bind_pure_eq_ok.mp h
      obtain ⟨os, hos, rfl⟩ := map_eq_ok.mp hids
      intro r hr
      obtain ⟨o, ho, hor⟩ := List.mem_filterMap.mp hr
      obtain ⟨i, hi, hstep⟩ := exists_of_mem_mapM hos ho
      exact having_row hstep hs (List.mem_range.mp hi) r hor
    rcases mask with _ | ⟨m, _ | ⟨m', rest⟩⟩
    · exact hloop _ h
    · obtain rfl := pure_eq_ok.mp h
      split_ifs
      · exact hs
      · simp [Sel.Within]
    · exact hloop _ h

theorem permute_within (hs : s.Within N) (horder : ∀ i ∈ order, i < s.len)
    (h : s.permute order = .ok s') : s'.Within N := by
  obtain ⟨rows, hrows, rfl⟩ := bind_pure_eq_ok.mp h
  intro r hr
  obtain ⟨i, hi, hir⟩ := exists_of_mem_mapM hrows hr
  obtain ⟨r', hr', rfl⟩ := bind_pure_eq_ok.mp hir
  exact lt_of_le_of_lt (asU32_le r') (hs.row_lt (horder i hi) hr')

theorem orderAndLimit_within (hrt : rt.Rearranging) {keys : List OrderKey} {limit : Option Nat}
    {offset : Nat} (hs : s.Within N) (hlimit : ∀ l ∈ limit, l < 2 ^ 63) (hoffset : offset < 2 ^ 63)
    (h : orderAndLimit rt f s keys limit offset = .ok s') : s'.Within N := by
  cases keys with
  | nil =>
    rw [orderAndLimit_nil] at h
    obtain ⟨stop, hstop, h⟩ := bind_eq_ok.mp h
    obtain ⟨stop', hstop', hle⟩ := stopAt_ok (n := s.len)
      (lt_of_le_of_lt (Nat.min_le_left offset s.len) hoffset) hlimit
    obtain rfl := Except.ok.inj (hstop'.symm.trans hstop)
    split_ifs at h
    · obtain rfl := pure_eq_ok.mp h
      exact hs
    · exact permute_within hs (u32Range_lt hle) h
  | cons k keys =>
    rw [orderAndLimit_cons] at h
    obtain ⟨arrays, harrays, h⟩ := bind_eq_ok.mp h
    obtain ⟨need, -, h⟩ := bind_eq_ok.mp h
    obtain ⟨idx, hidx, h⟩ := bind_eq_ok.mp h
    obtain ⟨stop, -, h⟩ := bind_eq_ok.mp h
    have hrows := sortRows_lt hrt hidx
    exact permute_within hs (fun i hi =>
      hrows i (List.mem_of_mem_take (List.mem_of_mem_drop hi))) h

end Stages

section Runs

variable {rt : Runtime} {f : Frame} {s : Sel} {N : Nat} {plan : Select} {table : Option Table}

theorem source_len (h : ∀ t ∈ table, t.Aligned) :
    ∀ c ∈ (sourceFrame table).cols, c.len = sourceRows table := by
  cases table with
  | none => simp [sourceFrame]
  | some t => exact (h t rfl).full

end Runs

def twoRowsCatalog : Schemas
  | "t" => some twoRows.schema
  | _ => none

theorem twoRows_aligned : twoRows.Aligned where
  typed := List.Forall₂.cons rfl (List.Forall₂.cons rfl List.Forall₂.nil)
  full := by simp [twoRows, Column.len]
  solid := by simp [twoRows, Column.Solid]

end Veldb
