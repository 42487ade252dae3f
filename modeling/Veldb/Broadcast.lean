import Veldb.AcceptedSnapshot
import Veldb.CaseBranches

/-! Broadcasting: every value an expression takes on the way has one entry, or one for each row of
the selection. The two errors about lengths are parameters here; the evaluator of the source has
its own in their place, and no choice of them changes a result. -/

namespace Veldb

open Attempts Arr

namespace LengthErrors

variable (errs : LengthErrors) (rt : Runtime)

theorem evalArgs_eq_mapM (f : Frame) (sel : Sel) (as : List Expr) :
    errs.evalArgs rt f sel as = as.mapM (errs.eval rt f sel) := by
  induction as with
  | nil => rfl
  | cons a as ih =>
    rw [List.mapM_cons, ← ih]
    rfl

theorem evalArgs_congr {f : Frame} {sel : Sel} {args : List Expr}
    (h : ∀ a ∈ args, errs.eval rt f sel a = Veldb.eval rt f sel a) :
    errs.evalArgs rt f sel args = Veldb.evalArgs rt f sel args := by
  rw [evalArgs_eq_mapM, Veldb.evalArgs_eq_mapM]
  exact mapM_congr h

end LengthErrors

section Lengths

variable {rt : Runtime} {α β γ : Type} {n N : Nat} {l r v a : Arr} {op : BinOp} {args : List Arr}

theorem zip_len {mk : List γ → Arr} {ls : List α} {rs : List β} {f : α → β → Exec γ}
    (hmk : ∀ w, (mk w).len = w.length) (h : (do return mk (← zipMap n ls rs f)) = .ok a) :
    a.len = n := by
  obtain ⟨w, hw, rfl⟩ := bind_pure_eq_ok.mp h
  exact (hmk w).trans (zipMap_length hw)

theorem toF64_map_len {mk : List β → Arr} {g : F64 → β} (hmk : ∀ w, (mk w).len = w.length)
    (h : (do return mk ((← v.toF64).map g) : Exec Arr) = .ok a) : a.len = v.len := by
  obtain ⟨w, hw, rfl⟩ := bind_pure_eq_ok.mp h
  rw [hmk, List.length_map, toF64_length hw]

/-- Comparisons are made of all pairs; what is not a comparison goes on in `rest`. -/
theorem compared_len {mk : List γ → Arr} {ls : List α} {rs : List β} {f : α → β → Exec γ}
    {rest : Exec Arr} (hmk : ∀ w, (mk w).len = w.length) (hrest : rest = .ok a → a.len = n)
    (h : (if op.isCmp = true then (do return mk (← zipMap n ls rs f)) else rest) = .ok a) :
    a.len = n := by
  by_cases hcmp : op.isCmp = true
  · rw [if_pos hcmp] at h
    exact zip_len hmk h
  · rw [if_neg hcmp] at h
    exact hrest h

theorem evalFloats_len (h : evalFloats rt op n l r = .ok a) : a.len = n := by
  unfold evalFloats at h
  obtain ⟨lf, -, h⟩ := bind_eq_ok.mp h
  obtain ⟨rf, -, h⟩ := bind_eq_ok.mp h
  exact compared_len (fun _ => rfl) (zip_len fun _ => rfl) h

theorem binaryAt_len (h : binaryAt rt op l r n = .ok a) : a.len = n := by
  unfold binaryAt at h
  by_cases hop : op = .and ∨ op = .or
  · rw [if_pos hop] at h
    obtain ⟨lb, -, h⟩ := bind_eq_ok.mp h
    obtain ⟨rb, -, h⟩ := bind_eq_ok.mp h
    exact zip_len (fun _ => rfl) h
  rw [if_neg hop] at h
  split at h
  · exact compared_len (fun _ => rfl) (fun h => absurd h (bail_ne_ok _ _)) h
  · cases h
  · cases h
  · refine compared_len (fun _ => rfl) (fun h => ?_) h
    by_cases hdiv : op ≠ .div
    · rw [if_pos hdiv] at h
      exact zip_len (fun _ => rfl) h
    · rw [if_neg hdiv] at h
      exact evalFloats_len h
  · exact evalFloats_len h

theorem evalBinary_sized (hl : l.Sized n) (hr : r.Sized n) (h : evalBinary rt op l r = .ok a) :
    a.Sized n := by
  rw [evalBinary_eq_at] at h
  obtain ⟨k, hk, h⟩ := bind_eq_ok.mp h
  rw [← binaryAt_len h] at hk
  exact hl.of_pairLen hr hk

theorem Arr.Sized.of_len (hv : v.Sized n) (h : a.len = v.len) : a.Sized n := by
  unfold Sized
  rw [h]
  exact hv

theorem evalUnary_len {op : UnOp} (h : evalUnary op v = .ok a) : a.len = v.len := by
  cases op with
  | not =>
    obtain ⟨w, hw, rfl⟩ := bind_pure_eq_ok.mp h
    exact (List.length_map _).trans (asBool_length hw)
  | neg =>
    cases v with
    | i64 w =>
      obtain rfl := Except.ok.inj h
      exact List.length_map _
    | _ => exact toF64_map_len (fun _ => rfl) h

theorem evalLike_len {pattern : String} {negated ci : Bool}
    (h : evalLike rt v pattern negated ci = .ok a) : a.len = v.len := by
  cases v with
  | str w =>
    obtain rfl := Except.ok.inj h
    exact List.length_map _
  | _ => cases h

theorem cast_len {ty : DataType} (h : cast rt v ty = .ok a) : a.len = v.len := by
  cases ty with
  | i64 =>
    cases v with
    | str w =>
      obtain rfl := Except.ok.inj h
      exact List.length_map _
    | _ => exact toF64_map_len (fun _ => rfl) h
  | f64 =>
    cases v with
    | str w =>
      obtain rfl := Except.ok.inj h
      exact List.length_map _
    | _ =>
      obtain ⟨w, hw, rfl⟩ := bind_pure_eq_ok.mp h
      exact toF64_length hw
  | bool => exact toF64_map_len (fun _ => rfl) h
  | str =>
    obtain ⟨w, hw, rfl⟩ := bind_pure_eq_ok.mp h
    exact mapM_range_length hw
  | vector dim => cases h

theorem inListStep_length {mask w : List UInt8} {lit : Value}
    (h : inListStep rt n v mask lit = .ok w) : w.length = mask.length := by
  unfold inListStep at h
  obtain ⟨c, -, h⟩ := bind_eq_ok.mp h
  obtain ⟨c', -, h⟩ := bind_eq_ok.mp h
  obtain ⟨cmp, -, h⟩ := bind_eq_ok.mp h
  obtain ⟨b, -, rfl⟩ := bind_pure_eq_ok.mp h
  exact orMask_length mask b

theorem evalInList_len {list : List Value} {negated : Bool}
    (h : evalInList rt n v list negated = .ok a) : a.len = v.len := by
  have hfold : ∀ (list : List Value) (mask w : List UInt8),
      list.foldlM (inListStep rt n v) mask = .ok w → w.length = mask.length := by
    intro list
    induction list with
    | nil =>
      intro mask w hw
      rw [pure_eq_ok.mp hw]
    | cons lit list ih =>
      intro mask w hw
      rw [List.foldlM_cons] at hw
      obtain ⟨mid, hmid, hw⟩ := bind_eq_ok.mp hw
      exact (ih mid w hw).trans (inListStep_length hmid)
  obtain ⟨w, hw, rfl⟩ := bind_pure_eq_ok.mp h
  have hlen : w.length = v.len := (hfold list _ w hw).trans List.length_replicate
  cases negated with
  | false => exact hlen
  | true => exact (List.length_map _).trans hlen

theorem negateMask_len (negated : Bool) (a : Arr) : (negateMask negated a).len = a.len := by
  cases negated <;> cases a <;> simp [negateMask, flipMask, len]

theorem evalBetween_sized {low high : Arr} {negated : Bool} (hv : v.Sized n) (hl : low.Sized n)
    (hh : high.Sized n) (h : evalBetween rt v low (.ok high) negated = .ok a) : a.Sized n := by
  obtain ⟨lo, hlo, h⟩ := bind_eq_ok.mp h
  rw [ok_bind] at h
  obtain ⟨hi, hhi, h⟩ := bind_eq_ok.mp h
  obtain ⟨m, hm, rfl⟩ := bind_pure_eq_ok.mp h
  have hboth := evalBinary_sized (evalBinary_sized hv hl hlo) (evalBinary_sized hv hh hhi) hm
  exact hboth.of_len (negateMask_len negated m)

theorem distances_length {c : Column} {sel : Sel} {metric : Metric} {q : List F32} {w : List F64}
    (h : distances rt c sel metric q = .ok w) : w.length = sel.len := by
  cases c with
  | vector dim data =>
    change (if dim.toNat ≠ q.length then _ else _) = _ at h
    by_cases hdim : dim.toNat ≠ q.length
    · rw [if_pos hdim] at h
      cases h
    · rw [if_neg hdim] at h
      exact mapM_range_length h
  | _ => cases h

theorem index_sized (hA : ∀ a ∈ args, a.Sized n) {i : Nat} (h : index args i = .ok a) : a.Sized n :=
  hA a (List.mem_of_getElem? (index_eq_ok.mp h))

theorem range_sized {mk : List α → Arr} {f : Nat → Exec α} (hmk : ∀ w, (mk w).len = w.length)
    (hn : n = N ∨ n = 1) (h : (do return mk (← (List.range n).mapM f)) = .ok a) : a.Sized N := by
  obtain ⟨w, hw, rfl⟩ := bind_pure_eq_ok.mp h
  unfold Sized
  rw [hmk, mapM_range_length hw]
  exact hn

theorem ifBranches_sized {cond : List UInt8} {x y : Arr} (hn : n = N ∨ n = 1)
    (h : ifBranches n cond x y = .ok a) : a.Sized N := by
  unfold ifBranches at h
  split at h
  · exact range_sized (fun _ => rfl) hn h
  · obtain ⟨xs, -, h⟩ := bind_eq_ok.mp h
    obtain ⟨ys, -, h⟩ := bind_eq_ok.mp h
    exact range_sized (fun _ => rfl) hn h

theorem first_sized {g : Arr → Exec Arr} (hA : ∀ a ∈ args, a.Sized n)
    (hg : ∀ v a, g v = .ok a → a.len = v.len) (h : index args 0 >>= g = .ok a) : a.Sized n := by
  obtain ⟨v, hv, h⟩ := bind_eq_ok.mp h
  exact (index_sized hA hv).of_len (hg v a h)

theorem caseCall_sized {g : String → String} (hA : ∀ a ∈ args, a.Sized n)
    (h : caseCall g args = .ok a) : a.Sized n := by
  refine first_sized hA (fun v a hv => ?_) h
  cases v with
  | str s =>
    obtain rfl := pure_eq_ok.mp hv
    exact List.length_map _
  | _ => cases hv

theorem floatCall_sized {g : F64 → F64} (hA : ∀ a ∈ args, a.Sized n)
    (h : floatCall g args = .ok a) : a.Sized n :=
  first_sized hA (fun _ _ hv => toF64_map_len (fun _ => rfl) hv) h

theorem extractCall_sized {func : ScalarFunc} (hA : ∀ a ∈ args, a.Sized n)
    (h : extractCall func args = .ok a) : a.Sized n :=
  first_sized hA (fun _ _ hv => toF64_map_len (fun _ => rfl) hv) h

theorem roundCall_sized (hA : ∀ a ∈ args, a.Sized n) (h : roundCall rt args = .ok a) :
    a.Sized n := by
  refine first_sized hA (fun v a hv => ?_) h
  obtain ⟨w, hw, hv⟩ := bind_eq_ok.mp hv
  obtain ⟨k, -, rfl⟩ := bind_pure_eq_ok.mp hv
  exact (List.length_map _).trans (toF64_length hw)

theorem substringCall_sized (hA : ∀ a ∈ args, a.Sized n) (h : substringCall rt args = .ok a) :
    a.Sized n := by
  obtain ⟨v, -, h⟩ := bind_eq_ok.mp h
  cases v with
  | str s =>
    obtain ⟨start, -, h⟩ := bind_eq_ok.mp h
    obtain ⟨secs, -, h⟩ := bind_eq_ok.mp h
    obtain ⟨count, -, h⟩ := bind_eq_ok.mp h
    exact range_sized (fun _ => rfl) (callLen_sized hA) h
  | _ => cases h

theorem dateTruncCall_sized (hA : ∀ a ∈ args, a.Sized n) (h : dateTruncCall rt args = .ok a) :
    a.Sized n := by
  obtain ⟨v, -, h⟩ := bind_eq_ok.mp h
  cases v with
  | str unit =>
    obtain ⟨secs, hsecs, h⟩ := bind_eq_ok.mp h
    obtain ⟨x, hx, h⟩ := bind_eq_ok.mp h
    obtain ⟨u, -, h⟩ := bind_eq_ok.mp h
    obtain ⟨step, -, h⟩ := bind_eq_ok.mp h
    obtain ⟨w, hw, rfl⟩ := bind_pure_eq_ok.mp h
    have hlen : (Arr.i64 w).len = secs.len := (mapM_length hw).trans (toF64_length hx)
    exact (index_sized hA hsecs).of_len hlen
  | _ => cases h

theorem ifCall_sized (hA : ∀ a ∈ args, a.Sized n) (h : ifCall args = .ok a) : a.Sized n := by
  obtain ⟨c, -, h⟩ := bind_eq_ok.mp h
  obtain ⟨cond, -, h⟩ := bind_eq_ok.mp h
  obtain ⟨x, -, h⟩ := bind_eq_ok.mp h
  obtain ⟨y, -, h⟩ := bind_eq_ok.mp h
  exact ifBranches_sized (callLen_sized hA) h

/-- A function has as many values as its argument, or as those of its arguments that vary. -/
theorem scalarFunc_sized {func : ScalarFunc} (hA : ∀ a ∈ args, a.Sized n)
    (h : scalarFunc rt func args = .ok a) : a.Sized n := by
  cases func with
  | length =>
    refine first_sized hA (fun v a hv => ?_) h
    cases v with
    | str s =>
      obtain rfl := pure_eq_ok.mp hv
      exact List.length_map _
    | _ => cases hv
  | abs =>
    refine first_sized hA (fun v a hv => ?_) h
    cases v with
    | i64 w =>
      obtain rfl := pure_eq_ok.mp hv
      exact List.length_map _
    | _ => exact toF64_map_len (fun _ => rfl) hv
  | lower => exact caseCall_sized hA h
  | upper => exact caseCall_sized hA h
  | floor => exact floatCall_sized hA h
  | ceil => exact floatCall_sized hA h
  | sqrt => exact floatCall_sized hA h
  | round => exact roundCall_sized hA h
  | substring => exact substringCall_sized hA h
  | dateTrunc => exact dateTruncCall_sized hA h
  | coalesce => exact index_sized hA h
  | ifThen => exact ifCall_sized hA h
  | _ => exact extractCall_sized hA h

end Lengths

section Unreachable

variable {rt : Runtime} {f : Frame} {sel : Sel} {n N : Nat} {l r v : Arr} {op : BinOp}
  {errs : LengthErrors}

namespace LengthErrors

theorem pairLen_eq (hl : l.Sized n) (hr : r.Sized n) :
    errs.pairLen l.len r.len = Veldb.pairLen l.len r.len := by
  rw [pairLen_source, LengthErrors.pairLen]
  by_cases heq : l.len = r.len
  · rw [if_pos heq, if_pos heq]
  by_cases hone : l.len = 1
  · rw [if_neg heq, if_neg heq, if_pos hone, if_pos hone]
  have hr1 : r.len = 1 := hr.resolve_left fun hrn => heq ((hl.resolve_right hone).trans hrn.symm)
  rw [if_neg heq, if_neg heq, if_neg hone, if_neg hone, if_pos hr1, if_pos hr1]

theorem checkLen_eq (h : v.Sized n) : errs.checkLen n v = Veldb.checkLen n v := by
  unfold Sized at h
  rw [LengthErrors.checkLen, checkLen_source, if_pos h, if_pos h]

theorem evalBinary_eq (hl : l.Sized n) (hr : r.Sized n) :
    errs.evalBinary rt op l r = Veldb.evalBinary rt op l r := by
  rw [LengthErrors.evalBinary, pairLen_eq hl hr, evalBinary_eq_at]

theorem inListStep_eq (hv : v.Sized n) (k : Nat) :
    errs.inListStep rt k v = Veldb.inListStep rt k v := by
  funext mask lit
  rw [inListStep_source, LengthErrors.inListStep]
  refine bind_congr_ok fun c hc => ?_
  have hone : c.len = 1 := evalLit_len hc
  rw [checkLen_eq (Or.inr hone), checkLen_one hone, ok_bind, ok_bind, evalBinary_eq hv (Or.inr hone)]

theorem evalInList_eq (hv : v.Sized n) (k : Nat) (list : List Value) (negated : Bool) :
    errs.evalInList rt k v list negated = Veldb.evalInList rt k v list negated := by
  rw [LengthErrors.evalInList, inListStep_eq hv, evalInList_source]

theorem evalBetween_eq {low : Arr} {high : Exec Arr} (hv : v.Sized n) (hl : low.Sized n)
    (hh : ∀ a, high = .ok a → a.Sized n) (negated : Bool) :
    errs.evalBetween rt v low high negated = Veldb.evalBetween rt v low high negated := by
  rw [evalBetween_source, LengthErrors.evalBetween, evalBinary_eq hv hl]
  refine bind_congr_ok fun lo hlo => bind_congr_ok fun up hup => ?_
  rw [evalBinary_eq hv (hh up hup)]
  refine bind_congr_ok fun hi hhi => ?_
  rw [evalBinary_eq (evalBinary_sized hv hl hlo) (evalBinary_sized hv (hh up hup) hhi)]

theorem node_eq {x y : Exec Arr} (heq : x = y) (hs : ∀ a, y = .ok a → a.Sized n) :
    x >>= errs.checkLen n = y >>= Veldb.checkLen n := by
  rw [heq]
  exact bind_congr_ok fun a ha => checkLen_eq (hs a ha)

theorem operand_sized {e : Expr} {op : Arr → Exec Arr} {a : Arr}
    (hop : ∀ v, op v = .ok a → a.len = v.len) (h : Veldb.eval rt f sel e >>= op = .ok a) :
    a.Sized sel.len := by
  obtain ⟨v, hv, ha⟩ := bind_eq_ok.mp h
  exact (eval_sized hv).of_len (hop v ha)

/-- The two errors are never met: whatever stands in their place, the value is the same. -/
theorem eval_eq (hcols : ∀ c ∈ f.cols, c.len = N) (hsel : sel.Within N) (e : Expr) :
    errs.eval rt f sel e = Veldb.eval rt f sel e := by
  induction e using Expr.induct_children with
  | step e ih =>
    cases e with
    | col i =>
      refine node_eq rfl fun a ha => ?_
      cases hc : f.cols[i]? with
      | none =>
        rw [hc] at ha
        cases ha
      | some c =>
        rw [hc] at ha
        exact Or.inl (gather_len (hcols c (List.mem_of_getElem? hc)) hsel ha)
    | lit x => exact node_eq rfl fun a ha => Or.inr (evalLit_len ha)
    | agg func arg distinct => rfl
    | distance metric c query =>
      refine node_eq rfl fun a ha => ?_
      cases hc : f.cols[c]? with
      | none =>
        rw [hc] at ha
        cases ha
      | some col =>
        rw [hc] at ha
        obtain ⟨w, hw, rfl⟩ := map_eq_ok.mp ha
        exact Or.inl (distances_length hw)
    | binary op l r =>
      have hl := ih l (by simp [Expr.children])
      have hr := ih r (by simp [Expr.children])
      apply node_eq
      · rw [hl, hr]
        exact bind_congr_ok fun a ha => bind_congr_ok fun b hb =>
          evalBinary_eq (eval_sized ha) (eval_sized hb)
      · intro a ha
        obtain ⟨x, hx, ha⟩ := bind_eq_ok.mp ha
        obtain ⟨y, hy, ha⟩ := bind_eq_ok.mp ha
        exact evalBinary_sized (eval_sized hx) (eval_sized hy) ha
    | between e low high negated =>
      have he := ih e (by simp [Expr.children])
      have hlow := ih low (by simp [Expr.children])
      have hhigh := ih high (by simp [Expr.children])
      rw [eval_between]
      apply node_eq
      · rw [he, hlow, hhigh]
        exact bind_congr_ok fun a ha => bind_congr_ok fun b hb =>
          evalBetween_eq (eval_sized ha) (eval_sized hb) (fun _ hc => eval_sized hc) negated
      · intro a ha
        obtain ⟨x, hx, ha⟩ := bind_eq_ok.mp ha
        obtain ⟨y, hy, ha⟩ := bind_eq_ok.mp ha
        cases hz : Veldb.eval rt f sel high with
        | ok z =>
          rw [hz] at ha
          exact evalBetween_sized (eval_sized hx) (eval_sized hy) (eval_sized hz) ha
        | error err =>
          rw [hz] at ha
          obtain ⟨lo, -, ha⟩ := bind_eq_ok.mp ha
          cases ha
    | func func args =>
      have hargs : errs.evalArgs rt f sel args = Veldb.evalArgs rt f sel args :=
        evalArgs_congr errs rt ih
      refine node_eq (congrArg (· >>= scalarFunc rt func) hargs) fun a ha => ?_
      obtain ⟨A, hA, ha⟩ := bind_eq_ok.mp ha
      exact scalarFunc_sized (evalArgs_sized hA).2 ha
    | unary op e =>
      have he := ih e (by simp [Expr.children])
      exact node_eq (congrArg (· >>= evalUnary op) he) fun a ha =>
        operand_sized (fun _ => evalUnary_len) ha
    | like e pattern negated ci =>
      have he := ih e (by simp [Expr.children])
      exact node_eq (congrArg (· >>= fun v => evalLike rt v pattern negated ci) he) fun a ha =>
        operand_sized (fun _ => evalLike_len) ha
    | cast e ty =>
      have he := ih e (by simp [Expr.children])
      exact node_eq (congrArg (· >>= fun v => Veldb.cast rt v ty) he) fun a ha =>
        operand_sized (fun _ => cast_len) ha
    | inList e list negated =>
      have he := ih e (by simp [Expr.children])
      apply node_eq
      · rw [he]
        exact bind_congr_ok fun a ha => evalInList_eq (eval_sized ha) sel.len list negated
      · intro a ha
        exact operand_sized (fun _ => evalInList_len) ha

end LengthErrors

/-- Every value has one entry or one for each row, also where nothing checks it, and neither of the
errors about lengths is ever the outcome. -/
theorem eval_broadcast (hcols : ∀ c ∈ f.cols, c.len = N) (hsel : sel.Within N) (e : Expr) :
    (∀ errs : LengthErrors, errs.eval rt f sel e = eval rt f sel e) ∧
      ∀ a, eval rt f sel e = .ok a → a.len = 1 ∨ a.len = sel.len :=
  ⟨fun _ => LengthErrors.eval_eq hcols hsel e, fun _ ha => (eval_sized ha).symm⟩

/-- An empty selection next to a constant. -/
theorem eval_broadcast_empty : (Column.i64 [5, 7]).len = 2 ∧ (Sel.ids []).Within 2 ∧
    (∀ errs : LengthErrors,
      errs.eval plainRuntime ⟨[.i64 [5, 7]]⟩ (.ids []) (.binary .add (.col 0) (.lit (.i64 1))) =
        eval plainRuntime ⟨[.i64 [5, 7]]⟩ (.ids []) (.binary .add (.col 0) (.lit (.i64 1)))) ∧
    ∀ a, eval plainRuntime ⟨[.i64 [5, 7]]⟩ (.ids []) (.binary .add (.col 0) (.lit (.i64 1))) = .ok a →
      a.len = 1 ∨ a.len = (Sel.ids []).len := by
  have hlen : (Column.i64 [5, 7]).len = 2 := rfl
  have hcols : ∀ c ∈ [Column.i64 [5, 7]], c.len = 2 := by
    intro c hc
    rw [List.mem_singleton.mp hc, hlen]
  have hwithin : (Sel.ids []).Within 2 := fun r hr => absurd hr List.not_mem_nil
  exact ⟨hlen, hwithin, eval_broadcast hcols hwithin _⟩

end Unreachable

end Veldb
