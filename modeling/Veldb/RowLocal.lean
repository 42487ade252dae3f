import Veldb.CallRows

/-! The value computed for a row depends on that row alone, except where `round` and
`date_trunc` take an argument of the whole selection from its first row. -/

namespace Veldb

open Attempts Arr

/-- The value at every row is the value of the expression on that row alone. -/
def RowLocal (rt : Runtime) (f : Frame) (sel : Sel) (e : Expr) : Prop :=
  ∀ a, eval rt f sel e = .ok a → ∀ i, i < sel.len →
    ∃ r b v, sel.row i = .ok r ∧ eval rt f (.ids [r]) e = .ok b ∧
      b.value 0 = .ok v ∧ a.value i = .ok v

/-- In every row a call gives the same with the first row's digits or unit as with its own. -/
def SharedAgrees (rt : Runtime) (f : Frame) (sel : Sel) (e : Expr) : Prop :=
  ∀ func args, e = .func func args → (∃ a, eval rt f sel e = .ok a) →
    ∀ i r₀ r first own, i < sel.len → sel.row 0 = .ok r₀ → sel.row i = .ok r →
      evalArgs rt f (.ids [r₀]) args = .ok first → evalArgs rt f (.ids [r]) args = .ok own →
      scalarFunc rt func (withShared func first own) = scalarFunc rt func own

def Rowwise (rt : Runtime) (f : Frame) (sel : Sel) (e : Expr) : Prop :=
  ∀ a, eval rt f sel e = .ok a → ∀ i, i < sel.len →
    ∃ r a', sel.row i = .ok r ∧ a.row i = .ok a' ∧ eval rt f (.ids [r]) e = .ok a'

section

variable {rt : Runtime} {f : Frame} {sel : Sel}

theorem Rowwise.rowLocal {e : Expr} (h : Rowwise rt f sel e) : RowLocal rt f sel e := by
  intro a ha i hi
  obtain ⟨r, a', hr, hrow, heval⟩ := h a ha i hi
  obtain ⟨v, hv, hv'⟩ := row_value hrow 0
  exact ⟨r, a', v, hr, heval, hv', hv⟩

theorem eval_sized {e : Expr} {a : Arr} (h : eval rt f sel e = .ok a) : a.Sized sel.len := by
  obtain ⟨r, hr⟩ := eval_checked rt f sel e
  rw [hr] at h
  obtain ⟨b, -, hb⟩ := bind_eq_ok.mp h
  obtain ⟨rfl, hs⟩ := checkLen_eq_ok hb
  exact hs

theorem evalArgs_row {args : List Expr} {A : List Arr} {i r : Nat}
    (h : ∀ e ∈ args, Rowwise rt f sel e) (hA : evalArgs rt f sel args = .ok A)
    (hi : i < sel.len) (hr : sel.row i = .ok r) :
    ∃ A', evalArgs rt f (.ids [r]) args = .ok A' ∧ ArgsRow sel.len i A A' := by
  induction args generalizing A with
  | nil =>
    rw [evalArgs_nil] at hA ⊢
    obtain rfl := Except.ok.inj hA
    exact ⟨[], rfl, List.Forall₂.nil⟩
  | cons e args ih =>
    rw [evalArgs_cons] at hA ⊢
    obtain ⟨a, ha, hA⟩ := bind_eq_ok.mp hA
    obtain ⟨as, has, rfl⟩ := bind_pure_eq_ok.mp hA
    obtain ⟨r', a', hr', hrow, heval⟩ := h e (by simp) a ha i hi
    obtain rfl := Except.ok.inj (hr'.symm.trans hr)
    obtain ⟨as', hevals, hrows⟩ := ih (fun d hd => h d (by simp [hd])) has
    refine ⟨a' :: as', ?_, List.Forall₂.cons ⟨eval_sized ha, hrow⟩ hrows⟩
    rw [heval, ok_bind, hevals]
    rfl

/-- A node is evaluated row by row when its own computation is. -/
theorem rowwise_of_node {e : Expr} (node : Sel → Exec Arr)
    (heq : ∀ s, eval rt f s e = node s >>= checkLen s.len)
    (h : ∀ a i r, node sel = .ok a → i < sel.len → sel.row i = .ok r →
      ∃ a', a.row i = .ok a' ∧ node (.ids [r]) = .ok a') : Rowwise rt f sel e := by
  intro a ha i hi
  obtain ⟨r, hr⟩ := Sel.row_exists hi
  rw [heq] at ha
  obtain ⟨b, hb, hcheck⟩ := bind_eq_ok.mp ha
  obtain ⟨rfl, -⟩ := checkLen_eq_ok hcheck
  obtain ⟨a', hrow, hnode⟩ := h _ i r hb hi hr
  refine ⟨r, a', hr, hrow, ?_⟩
  rw [heq, hnode, ok_bind]
  exact checkLen_one (row_len hrow) _

theorem Rowwise.at_row {e : Expr} {a : Arr} {i r : Nat} (h : Rowwise rt f sel e)
    (ha : eval rt f sel e = .ok a) (hi : i < sel.len) (hr : sel.row i = .ok r) :
    ∃ a', a.row i = .ok a' ∧ eval rt f (.ids [r]) e = .ok a' := by
  obtain ⟨r', a', hr', hrow, heval⟩ := h a ha i hi
  obtain rfl := Except.ok.inj (hr'.symm.trans hr)
  exact ⟨a', hrow, heval⟩

theorem rowwise_col (hcov : sel.Covers f) (c : Nat) : Rowwise rt f sel (.col c) := by
  cases hc : f.cols[c]? with
  | none =>
    intro a ha
    rw [eval_col, hc] at ha
    cases ha
  | some col =>
    have heval : ∀ s, eval rt f s (.col c) = gather col s >>= checkLen s.len := fun s => by
      rw [eval_col, hc, Option.elim_some]
    refine rowwise_of_node (gather col) heval fun a i r ha hi hr => ?_
    exact gather_row (fun n hn => hcov n hn col (List.mem_of_getElem? hc)) hi hr ha

theorem rowwise_lit (v : Value) : Rowwise rt f sel (.lit v) := by
  refine rowwise_of_node (fun _ => evalLit v) (fun s => by rw [eval_lit]) fun a i r ha hi hr => ?_
  exact ⟨a, row_of_len_one (evalLit_len ha) i, ha⟩

theorem rowwise_distance (metric : Metric) (c : Nat) (query : List F32) :
    Rowwise rt f sel (.distance metric c query) := by
  cases hc : f.cols[c]? with
  | none =>
    intro a ha
    rw [eval_distance, hc] at ha
    cases ha
  | some col =>
    refine rowwise_of_node (fun s => Arr.f64 <$> distances rt col s metric query)
      (fun s => by rw [eval_distance, hc, Option.elim_some]) fun a i r ha hi hr => ?_
    obtain ⟨w, hw, rfl⟩ := map_eq_ok.mp ha
    obtain ⟨x, hx, hx'⟩ := distances_row hi hr hw
    exact ⟨_, row_f64.mpr ⟨x, hx, rfl⟩, map_eq_ok.mpr ⟨_, hx', rfl⟩⟩

theorem rowwise_of_operand {e d : Expr} (op : Nat → Arr → Exec Arr) (hd : Rowwise rt f sel d)
    (heq : ∀ s, eval rt f s e = (eval rt f s d >>= op s.len) >>= checkLen s.len)
    (hop : ∀ x a x' i, x.Sized sel.len → i < sel.len → op sel.len x = .ok a → x.row i = .ok x' →
      ∃ a', a.row i = .ok a' ∧ op 1 x' = .ok a') : Rowwise rt f sel e := by
  refine rowwise_of_node _ heq fun a i r ha hi hr => ?_
  obtain ⟨x, hx, hxa⟩ := bind_eq_ok.mp ha
  obtain ⟨x', hxr, hxe⟩ := hd.at_row hx hi hr
  obtain ⟨a', hrow, ha'⟩ := hop x a x' i (eval_sized hx) hi hxa hxr
  exact ⟨a', hrow, bind_eq_ok.mpr ⟨x', hxe, ha'⟩⟩

theorem rowwise_binary {op : BinOp} {l r : Expr} (hl : Rowwise rt f sel l)
    (hr : Rowwise rt f sel r) : Rowwise rt f sel (.binary op l r) := by
  refine rowwise_of_node (fun s => do evalBinary rt op (← eval rt f s l) (← eval rt f s r))
    (fun s => by rw [eval_binary]) fun a i k ha hi hk => ?_
  obtain ⟨x, hx, ha⟩ := bind_eq_ok.mp ha
  obtain ⟨y, hy, hop⟩ := bind_eq_ok.mp ha
  obtain ⟨x', hxr, hxe⟩ := hl.at_row hx hi hk
  obtain ⟨y', hyr, hye⟩ := hr.at_row hy hi hk
  obtain ⟨-, a', hrow, heval⟩ := evalBinary_row (eval_sized hx) (eval_sized hy) hi hop hxr hyr
  exact ⟨a', hrow, bind_eq_ok.mpr ⟨x', hxe, bind_eq_ok.mpr ⟨y', hye, heval⟩⟩⟩

theorem rowwise_between {e low high : Expr} {negated : Bool} (he : Rowwise rt f sel e)
    (hl : Rowwise rt f sel low) (hh : Rowwise rt f sel high) :
    Rowwise rt f sel (.between e low high negated) := by
  refine rowwise_of_node
    (fun s => do
      evalBetween rt (← eval rt f s e) (← eval rt f s low) (eval rt f s high) negated)
    (fun s => by rw [eval_between]) fun a i k ha hi hk => ?_
  obtain ⟨x, hx, ha⟩ := bind_eq_ok.mp ha
  obtain ⟨y, hy, hop⟩ := bind_eq_ok.mp ha
  -- the upper bound is evaluated inside the operation, after the comparison with the lower one
  have hhigh : ∃ z, eval rt f sel high = .ok z := by
    obtain ⟨_, _, hrest⟩ := bind_eq_ok.mp hop
    obtain ⟨z, hz, -⟩ := bind_eq_ok.mp hrest
    exact ⟨z, hz⟩
  obtain ⟨z, hz⟩ := hhigh
  obtain ⟨x', hxr, hxe⟩ := he.at_row hx hi hk
  obtain ⟨y', hyr, hye⟩ := hl.at_row hy hi hk
  obtain ⟨z', hzr, hze⟩ := hh.at_row hz hi hk
  rw [hz] at hop
  obtain ⟨a', hrow, heval⟩ := evalBetween_row (eval_sized hx) (eval_sized hy) (eval_sized hz)
    hi hop hxr hyr hzr
  refine ⟨a', hrow, bind_eq_ok.mpr ⟨x', hxe, bind_eq_ok.mpr ⟨y', hye, ?_⟩⟩⟩
  rw [hze]
  exact heval

theorem call_row {func : ScalarFunc} {args : List Expr} {a : Arr} {i r₀ r : Nat}
    (hargs : ∀ e ∈ args, Rowwise rt f sel e) (h : eval rt f sel (.func func args) = .ok a)
    (hi : i < sel.len) (hr₀ : sel.row 0 = .ok r₀) (hr : sel.row i = .ok r) :
    ∃ first own a', evalArgs rt f (.ids [r₀]) args = .ok first ∧
      evalArgs rt f (.ids [r]) args = .ok own ∧ a.row i = .ok a' ∧
      scalarFunc rt func (withShared func first own) = .ok a' := by
  rw [eval_func] at h
  obtain ⟨b, hb, hcheck⟩ := bind_eq_ok.mp h
  obtain ⟨rfl, -⟩ := checkLen_eq_ok hcheck
  obtain ⟨A, hA, hcall⟩ := bind_eq_ok.mp hb
  obtain ⟨first, hfirst, h0⟩ := evalArgs_row hargs hA (by omega) hr₀
  obtain ⟨own, hown, hrows⟩ := evalArgs_row hargs hA hi hr
  obtain ⟨a', ha, ha'⟩ := scalarFunc_row hrows h0 hi hcall
  exact ⟨first, own, a', hfirst, hown, ha, ha'⟩

theorem rowwise_func {func : ScalarFunc} {args : List Expr}
    (hargs : ∀ e ∈ args, Rowwise rt f sel e) (h : SharedAgrees rt f sel (.func func args)) :
    Rowwise rt f sel (.func func args) := by
  intro a ha i hi
  obtain ⟨r, hr⟩ := Sel.row_exists hi
  obtain ⟨r₀, hr₀⟩ := Sel.row_exists (lt_of_le_of_lt (Nat.zero_le i) hi)
  obtain ⟨first, own, a', hfirst, hown, hrow, hcall⟩ := call_row hargs ha hi hr₀ hr
  rw [h func args rfl ⟨a, ha⟩ i r₀ r first own hi hr₀ hr hfirst hown] at hcall
  refine ⟨r, a', hr, hrow, ?_⟩
  rw [eval_func, hown, ok_bind, hcall, ok_bind]
  exact checkLen_one (row_len hrow) _

theorem rowwise_of_agrees (hcov : sel.Covers f) (e : Expr)
    (h : ∀ d ∈ e.subexprs, SharedAgrees rt f sel d) : Rowwise rt f sel e := by
  induction e using Expr.induct_children with
  | step e ih =>
    have hc : ∀ c ∈ e.children, Rowwise rt f sel c := fun c hc =>
      ih c hc (fun d hd => h d (Expr.mem_subexprs_child hc hd))
    cases e with
    | col c => exact rowwise_col hcov c
    | lit v => exact rowwise_lit v
    | binary op l r =>
      exact rowwise_binary (hc l (by simp [Expr.children])) (hc r (by simp [Expr.children]))
    | unary op e =>
      refine rowwise_of_operand (fun _ => evalUnary op) (hc e (by simp [Expr.children]))
        (fun s => by rw [eval_unary]) fun x a x' i _ _ ha hx => ?_
      exact evalUnary_row ha hx
    | like e pattern negated ci =>
      refine rowwise_of_operand (fun _ x => evalLike rt x pattern negated ci)
        (hc e (by simp [Expr.children])) (fun s => by rw [eval_like]) fun x a x' i _ _ ha hx => ?_
      exact evalLike_row ha hx
    | inList e list negated =>
      refine rowwise_of_operand (fun n x => evalInList rt n x list negated)
        (hc e (by simp [Expr.children])) (fun s => by rw [eval_inList]) fun x a x' i hs hi ha hx => ?_
      exact evalInList_row hs hi ha hx
    | between e low high negated =>
      exact rowwise_between (hc e (by simp [Expr.children])) (hc low (by simp [Expr.children]))
        (hc high (by simp [Expr.children]))
    | func func args => exact rowwise_func hc (h _ (Expr.mem_subexprs_self _))
    | distance metric c query => exact rowwise_distance metric c query
    | agg func arg distinct =>
      intro a ha
      rw [eval_agg] at ha
      cases ha
    | cast e ty =>
      refine rowwise_of_operand (fun _ x => cast rt x ty) (hc e (by simp [Expr.children]))
        (fun s => by rw [eval_cast]) fun x a x' i hs hi ha hx => ?_
      exact cast_row hs hi ha hx

theorem shared_dataType {func : ScalarFunc} {args : List Arr} {a : Arr} {k : Nat}
    (hk : sharedArg func = some k) (h : scalarFunc rt func args = .ok a) :
    a.dataType = if func = .round then .f64 else .i64 := by
  cases func with
  | round =>
    obtain ⟨x, -, h⟩ := bind_eq_ok.mp h
    obtain ⟨v, -, h⟩ := bind_eq_ok.mp h
    obtain ⟨d, -, rfl⟩ := bind_pure_eq_ok.mp h
    rfl
  | dateTrunc =>
    obtain ⟨u, -, h⟩ := bind_eq_ok.mp h
    cases u with
    | str unit =>
      obtain ⟨s, -, h⟩ := bind_eq_ok.mp h
      obtain ⟨secs, -, h⟩ := bind_eq_ok.mp h
      obtain ⟨p, -, h⟩ := bind_eq_ok.mp h
      obtain ⟨step, -, h⟩ := bind_eq_ok.mp h
      obtain ⟨w, -, rfl⟩ := bind_pure_eq_ok.mp h
      rfl
    | _ => cases h
  | _ => cases hk

theorem eq_of_value {a b : Arr} {ty : DataType} {v : Value} (hty : ty = .f64 ∨ ty = .i64)
    (ha : a.dataType = ty) (hb : b.dataType = ty) (hal : a.len = 1) (hbl : b.len = 1)
    (hav : a.value 0 = .ok v) (hbv : b.value 0 = .ok v) : a = b := by
  subst ha
  cases a with
  | i64 x =>
    cases b with
    | i64 y =>
      obtain ⟨p, rfl⟩ := List.length_eq_one_iff.mp hal
      obtain ⟨q, rfl⟩ := List.length_eq_one_iff.mp hbl
      obtain rfl := Except.ok.inj hav
      have hpq := Value.i64.inj (Except.ok.inj hbv)
      rw [hpq]
    | _ => cases hb
  | f64 x =>
    cases b with
    | f64 y =>
      obtain ⟨p, rfl⟩ := List.length_eq_one_iff.mp hal
      obtain ⟨q, rfl⟩ := List.length_eq_one_iff.mp hbl
      obtain rfl := Except.ok.inj hav
      have hpq := Value.f64.inj (Except.ok.inj hbv)
      rw [hpq]
    | _ => cases hb
  | _ => simp [dataType] at hty

theorem agrees_of_rowLocal {func : ScalarFunc} {args : List Expr}
    (hargs : ∀ e ∈ args, Rowwise rt f sel e) (h : RowLocal rt f sel (.func func args)) :
    SharedAgrees rt f sel (.func func args) := by
  rintro _ _ heq ⟨a, ha⟩ i r₀ r first own hi hr₀ hr hfirst hown
  obtain ⟨rfl, rfl⟩ := Expr.func.inj heq
  obtain ⟨first', own', a', hf', ho', hrow, hcall⟩ := call_row hargs ha hi hr₀ hr
  obtain rfl := Except.ok.inj (hfirst.symm.trans hf')
  obtain rfl := Except.ok.inj (hown.symm.trans ho')
  cases hk : sharedArg func with
  | none => simp [withShared, hk]
  | some k =>
    obtain ⟨r', b, v, hr', hb, hbv, hav⟩ := h a ha i hi
    obtain rfl := Except.ok.inj (hr.symm.trans hr')
    have hbl : b.len = 1 := by
      rcases eval_sized hb with hs | hs <;> exact hs
    rw [eval_func] at hb
    obtain ⟨c, hc, hcheck⟩ := bind_eq_ok.mp hb
    obtain ⟨rfl, -⟩ := checkLen_eq_ok hcheck
    rw [hown, ok_bind] at hc
    obtain ⟨v', hv', hav'⟩ := row_value hrow 0
    obtain rfl := Except.ok.inj (hav.symm.trans hv')
    have hty : (if func = .round then DataType.f64 else .i64) = .f64 ∨
        (if func = .round then DataType.f64 else .i64) = .i64 := by
      by_cases hround : func = .round <;> simp [hround]
    rw [hcall, hc, eq_of_value hty (shared_dataType hk hcall) (shared_dataType hk hc) (row_len hrow)
      hbl hav' hbv]

theorem agrees_of_subexprs (hcov : sel.Covers f) (e : Expr)
    (h : ∀ d ∈ e.subexprs, RowLocal rt f sel d) : ∀ d ∈ e.subexprs, SharedAgrees rt f sel d := by
  induction e using Expr.induct_children with
  | step e ih =>
    have hsub : ∀ c ∈ e.children, ∀ d ∈ c.subexprs, SharedAgrees rt f sel d := fun c hc =>
      ih c hc (fun d hd => h d (Expr.mem_subexprs_child hc hd))
    intro d hd
    rcases Expr.mem_subexprs.mp hd with rfl | ⟨c, hc, hdc⟩
    · by_cases hcall : ∃ func args, d = .func func args
      · obtain ⟨func, args, rfl⟩ := hcall
        exact agrees_of_rowLocal (fun a ha => rowwise_of_agrees hcov a (hsub a ha))
          (h _ (Expr.mem_subexprs_self _))
      · exact fun func args heq => absurd ⟨func, args, heq⟩ hcall
    · exact hsub c hc d hdc

theorem rowLocal_of_agrees (hcov : sel.Covers f) (e : Expr)
    (h : ∀ d ∈ e.subexprs, SharedAgrees rt f sel d) : ∀ d ∈ e.subexprs, RowLocal rt f sel d := by
  induction e using Expr.induct_children with
  | step e ih =>
    intro d hd
    rcases Expr.mem_subexprs.mp hd with rfl | ⟨c, hc, hdc⟩
    · exact (rowwise_of_agrees hcov d h).rowLocal
    · exact ih c hc (fun d hd => h d (Expr.mem_subexprs_child hc hd)) d hdc

/-- An expression and all its parts are row-local exactly when every call in it agrees
on the argument it shares. -/
theorem rowLocal_iff_agrees (rt : Runtime) (f : Frame) (sel : Sel) (e : Expr)
    (hcov : sel.Covers f) :
    (∀ d ∈ e.subexprs, RowLocal rt f sel d) ↔ ∀ d ∈ e.subexprs, SharedAgrees rt f sel d :=
  ⟨agrees_of_subexprs hcov e, rowLocal_of_agrees hcov e⟩

/-- Calls take the argument they share from a literal. -/
theorem agrees_of_literals (e : Expr)
    (hlit : ∀ func args k d, .func func args ∈ e.subexprs → sharedArg func = some k →
      args[k]? = some d → ∃ v, d = .lit v) : ∀ d ∈ e.subexprs, SharedAgrees rt f sel d := by
  rintro _ hd func args rfl - i r₀ r first own - - - hfirst hown
  unfold withShared
  cases hk : sharedArg func with
  | none => rfl
  | some k =>
    cases ha : args[k]? with
    | none =>
      have hnone : first[k]? = none := by
        rw [evalArgs_eq_mapM] at hfirst
        rw [List.getElem?_eq_none_iff, mapM_length hfirst]
        exact List.getElem?_eq_none_iff.mp ha
      simp only [hnone]
    | some d =>
      obtain ⟨v, rfl⟩ := hlit func args k d hd hk ha
      obtain ⟨hlt, hget⟩ := List.getElem?_eq_some_iff.mp ha
      rw [evalArgs_eq_mapM] at hfirst hown
      obtain ⟨a, hea, hfa⟩ := mapM_getElem hfirst hlt
      obtain ⟨b, heb, hob⟩ := mapM_getElem hown hlt
      have hab : a = b := by
        rw [hget, eval_lit] at hea heb
        exact Except.ok.inj (hea.symm.trans heb)
      subst hab
      obtain ⟨hlt', hget'⟩ := List.getElem?_eq_some_iff.mp hob
      have hset : own.set k a = own := by rw [← hget', List.set_getElem_self]
      simp only [hfa, hset]

theorem rowLocal_of_literals (hcov : sel.Covers f) (e : Expr)
    (hlit : ∀ func args k d, .func func args ∈ e.subexprs → sharedArg func = some k →
      args[k]? = some d → ∃ v, d = .lit v) : RowLocal rt f sel e :=
  rowLocal_of_agrees hcov e (agrees_of_literals e hlit) e (Expr.mem_subexprs_self e)

end

theorem covers_ofTable {t : Table} (h : t.Shape) : (Sel.all t.nrows).Covers (Frame.ofTable t) := by
  intro n hn c hc
  obtain rfl := Sel.all.inj hn
  exact h.full c hc

theorem covers_ids (f : Frame) (v : List Nat) : (Sel.ids v).Covers f := by
  intro n hn
  cases hn

/-- Two rows with a unit each: `minute` and `hour`, both at 01:02:05. -/
def unitFrame : Frame :=
  ⟨[.str ((StrColumn.new.push "minute").push "hour"), .i64 [3725, 3725]]⟩

theorem dateTrunc_takes_first_unit :
    ¬ RowLocal plainRuntime unitFrame (.all 2) (.func .dateTrunc [.col 0, .col 1]) := by
  intro h
  have hall : eval plainRuntime unitFrame (.all 2) (.func .dateTrunc [.col 0, .col 1]) =
      .ok (.i64 [3720, 3720]) := by decide +kernel
  have hone : eval plainRuntime unitFrame (.ids [1]) (.func .dateTrunc [.col 0, .col 1]) =
      .ok (.i64 [3600]) := by decide +kernel
  obtain ⟨r, b, v, hr, hb, hbv, hav⟩ := h _ hall 1 (by decide)
  obtain rfl := Except.ok.inj hr
  obtain rfl := Except.ok.inj (hone.symm.trans hb)
  have hvalue := Except.ok.inj (hbv.trans hav.symm)
  revert hvalue
  decide

theorem rowLocal_iff_agrees_units :
    (∀ d ∈ (Expr.func .dateTrunc [.lit (.str "hour"), .col 1]).subexprs,
      RowLocal plainRuntime unitFrame (.all 2) d) ↔
    ∀ d ∈ (Expr.func .dateTrunc [.lit (.str "hour"), .col 1]).subexprs,
      SharedAgrees plainRuntime unitFrame (.all 2) d := by
  refine rowLocal_iff_agrees plainRuntime unitFrame (.all 2) _ ?_
  rintro n hn c hc
  obtain rfl := Sel.all.inj hn
  revert c
  decide

end Veldb
