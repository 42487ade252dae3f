import Veldb.GroupCrashes
import Veldb.IntExact
import Veldb.Library.Saturation

/-! SUM of integers saturates at every row, so it is the sum of the group's values in every
order of the rows exactly where rows up and rows down do not meet at a bound. -/

namespace Veldb

open Attempts Saturation

def sumI64 (v : List Int64) : Int64 :=
  v.foldl (fun a b => saturatingI64 (a.toInt + b.toInt)) 0

/-- The sum on integers, or the bound of 64 bits nearest to it. -/
def exactSum (v : List Int64) : Int64 :=
  clampI64 (v.map Int64.toInt).sum

def Unmixed64 (v : List Int64) : Prop :=
  Unmixed (-2 ^ 63) (2 ^ 63 - 1) (v.map Int64.toInt)

variable {rt : Runtime} {f : Frame} {sel : Sel} {a : Expr} {groupOf : List Nat} {ngroups : Nat}
variable {x v w : List Int64}

theorem toInt_clampI64 (n : Int) :
    (clampI64 n).toInt = clamp (-2 ^ 63) (2 ^ 63 - 1) n := by
  unfold clampI64 clamp
  exact Int64.toInt_ofInt_of_le (by omega) (by omega)

theorem toInt_fold (v : List Int64) (a : Int64) :
    (v.foldl (fun a b => saturatingI64 (a.toInt + b.toInt)) a).toInt =
      runSum (-2 ^ 63) (2 ^ 63 - 1) (v.map Int64.toInt) a.toInt := by
  induction v generalizing a with
  | nil => rfl
  | cons b v ih =>
    rw [List.foldl_cons, ih, saturatingI64_eq_clamp, toInt_clampI64]
    rfl

theorem sumI64_eq_exactSum :
    sumI64 w = exactSum v ↔ runSum (-2 ^ 63) (2 ^ 63 - 1) (w.map Int64.toInt) 0 =
      clamp (-2 ^ 63) (2 ^ 63 - 1) (v.map Int64.toInt).sum := by
  rw [← Int64.toInt_inj, exactSum, toInt_clampI64, sumI64, toInt_fold]
  rfl

theorem ofInt_toInt_map (v : List Int64) : (v.map Int64.toInt).map Int64.ofInt = v := by
  simp [Function.comp_def]

theorem exists_perm_of_map {ys : List Int} (h : ys.Perm (v.map Int64.toInt)) :
    ∃ w : List Int64, w.Perm v ∧ w.map Int64.toInt = ys := by
  have hback := h.map Int64.ofInt
  rw [ofInt_toInt_map] at hback
  refine ⟨_, hback, ?_⟩
  rw [List.map_map]
  refine (List.map_congr_left fun y hy => ?_).trans (List.map_id ys)
  obtain ⟨b, -, rfl⟩ := List.mem_map.mp (h.subset hy)
  simp

theorem sumI64_perm_iff :
    (∀ w : List Int64, w.Perm v → sumI64 w = exactSum v) ↔ Unmixed64 v := by
  rw [Unmixed64, ← runSum_perm_iff (by decide) (by decide) (by decide)]
  constructor
  · intro h ys hys
    obtain ⟨w, hw, rfl⟩ := exists_perm_of_map hys
    exact sumI64_eq_exactSum.mp (h w hw)
  · intro h w hw
    exact sumI64_eq_exactSum.mpr (h _ (hw.map _))

/-- The SUM of a group is the running sum of its values in the order of the rows; it is
their sum on integers, whatever that order, exactly where they are unmixed. -/
theorem runAgg_sum_exact_iff (hlen : groupOf.length = sel.len) (hids : ∀ g ∈ groupOf, g < ngroups)
    (hx : eval rt f sel a = .ok (.i64 x)) :
    ∃ sums, runAgg rt (.agg .sum (some a) false) f sel groupOf ngroups = .ok (.i64 sums) ∧
      sums.length = ngroups ∧ ∀ g < ngroups, ∃ v, (members groupOf g).mapM (pick x) = .ok v ∧
        sums[g]? = some (sumI64 v) ∧
        ((∀ w : List Int64, w.Perm v → sumI64 w = exactSum v) ↔ Unmixed64 v) := by
  have hsized : x.length = sel.len ∨ x.length = 1 := eval_sized hx
  obtain ⟨sums, hsums, hn⟩ : ∃ sums : List Int64, foldGroups sel.len groupOf (pick x)
      (fun x a => saturatingI64 (a.toInt + x.toInt)) (List.replicate ngroups 0) = .ok sums ∧
        sums.length = (List.replicate ngroups (0 : Int64)).length :=
    foldGroups_total hlen (lt_replicate hids 0) fun i hi => pick_exists hi hsized
  refine ⟨sums, ?_, by simpa using hn, fun g hg => ?_⟩
  · rw [runAgg, hx, ok_bind]
    exact bind_pure_eq_ok.mpr ⟨sums, hsums, rfl⟩
  · obtain ⟨v, hv, hsum⟩ := foldGroups_at hlen hsums g
    rw [List.getElem?_replicate, if_pos hg] at hsum
    exact ⟨v, hv, hsum, sumI64_perm_iff⟩

/-- The same four integers in two orders. -/
def climbing : Frame :=
  ⟨[.i64 [Int64.maxValue, 1, -1, -Int64.maxValue], .i64 [Int64.maxValue, -Int64.maxValue, 1, -1]]⟩

/-- Values that cancel out sum to a negative number where the first two meet the bound. -/
theorem climbing_sums :
    runAgg plainRuntime (.agg .sum (some (.col 0)) false) climbing (.all 4) [0, 0, 0, 0] 1 =
        .ok (.i64 [-1]) ∧
      runAgg plainRuntime (.agg .sum (some (.col 1)) false) climbing (.all 4) [0, 0, 0, 0] 1 =
        .ok (.i64 [0]) ∧
      exactSum [Int64.maxValue, 1, -1, -Int64.maxValue] = 0 :=
  ⟨rfl, rfl, by decide⟩

theorem runAgg_sum_exact_iff_climbing :
    ∃ sums, runAgg plainRuntime (.agg .sum (some (.col 0)) false) climbing (.all 4) [0, 1, 0, 0] 2 =
        .ok (.i64 sums) ∧ sums[1]? = some 1 := by
  have hx : eval plainRuntime climbing (.all 4) (.col 0) =
      .ok (.i64 [Int64.maxValue, 1, -1, -Int64.maxValue]) := rfl
  have hids : ∀ g ∈ [0, 1, 0, 0], g < 2 := by decide
  obtain ⟨sums, hsums, -, hgroups⟩ := runAgg_sum_exact_iff rfl hids hx
  obtain ⟨v, hv, hsum, -⟩ := hgroups 1 (by decide)
  obtain rfl : v = [1] := (Except.ok.inj hv).symm
  exact ⟨sums, hsums, hsum⟩

end Veldb
