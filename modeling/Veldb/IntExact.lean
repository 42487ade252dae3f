import Veldb.RowLocal

/-! Integer expressions over a table against their meaning on integers: every operator
stays on 64-bit integers but `if`, which turns them into doubles, and the cast to INT,
which takes an integer through a double and back. -/

namespace Veldb

open Attempts

/-- The integer nearest to `n` among those of 64 bits. -/
def clampI64 (n : Int) : Int64 :=
  Int64.ofInt (max (-2 ^ 63) (min n (2 ^ 63 - 1)))

/-- What a query over INT columns and INT literals writes: an integer, or a condition
over integers. -/
inductive Built (f : Frame) : DataType → Expr → Prop where
  | col {i v} : f.cols[i]? = some (.i64 v) → Built f .i64 (.col i)
  | lit (x : Int64) : Built f .i64 (.lit (.i64 x))
  | arith {op l r} : op ∈ [.add, .sub, .mul, .mod] → Built f .i64 l → Built f .i64 r →
    Built f .i64 (.binary op l r)
  | neg {e} : Built f .i64 e → Built f .i64 (.unary .neg e)
  | abs {e} : Built f .i64 e → Built f .i64 (.func .abs [e])
  | cast {e} : Built f .i64 e → Built f .i64 (.cast e .i64)
  | coalesce {e es} : Built f .i64 e → (∀ a ∈ es, Built f .i64 a) →
    Built f .i64 (.func .coalesce (e :: es))
  | ifThen {c a b} : Built f .bool c → Built f .i64 a → Built f .i64 b →
    Built f .i64 (.func .ifThen [c, a, b])
  | cmp {op l r} : op.isCmp → Built f .i64 l → Built f .i64 r → Built f .bool (.binary op l r)
  | logic {op l r} : op ∈ [.and, .or] → Built f .bool l → Built f .bool r →
    Built f .bool (.binary op l r)
  | not {e} : Built f .bool e → Built f .bool (.unary .not e)

def exactBinary (op : BinOp) : Value → Value → Value
  | .i64 a, .i64 b =>
    match op with
    | .add => .i64 (clampI64 (a.toInt + b.toInt))
    | .sub => .i64 (clampI64 (a.toInt - b.toInt))
    | .mul => .i64 (clampI64 (a.toInt * b.toInt))
    | .mod => .i64 (if b.toInt = 0 then 0 else Int64.ofInt (a.toInt.tmod b.toInt))
    | .eq => .bool (a.toInt = b.toInt)
    | .notEq => .bool (a.toInt ≠ b.toInt)
    | .lt => .bool (a.toInt < b.toInt)
    | .ltEq => .bool (a.toInt ≤ b.toInt)
    | .gt => .bool (b.toInt < a.toInt)
    | .gtEq => .bool (b.toInt ≤ a.toInt)
    | _ => .i64 0
  | .bool a, .bool b => .bool (if op = .and then a && b else a || b)
  | _, _ => .i64 0

def exactUnary : UnOp → Value → Value
  | .neg, .i64 a => .i64 (clampI64 (-a.toInt))
  | .not, .bool a => .bool (!a)
  | _, v => v

def exactCall (func : ScalarFunc) : List Value → Value
  | [.bool c, a, b] => if c then a else b
  | .i64 a :: _ => .i64 (if func = .abs then clampI64 a.toInt.natAbs else a)
  | _ => .i64 0

mutual

/-- The meaning of an expression at row `r`, computed on integers alone. -/
def exact (f : Frame) (r : Nat) (e : Expr) : Value :=
  match e with
  | .col i =>
    match f.cols[i]? with
    | some (.i64 v) => .i64 ((v[r]?).getD 0)
    | _ => .i64 0
  | .lit v => v
  | .binary op l d => exactBinary op (exact f r l) (exact f r d)
  | .unary op e => exactUnary op (exact f r e)
  | .func func args => exactCall func (exactArgs f r args)
  | .cast e _ => exact f r e
  | _ => .i64 0

def exactArgs (f : Frame) (r : Nat) (as : List Expr) : List Value :=
  match as with
  | [] => []
  | a :: as => exact f r a :: exactArgs f r as

end

/-- Evaluation gives an INT array that holds the exact value at every selected row. -/
def StaysExact (rt : Runtime) (f : Frame) (sel : Sel) (e : Expr) : Prop :=
  ∃ v, eval rt f sel e = .ok (.i64 v) ∧ ∀ i r, i < sel.len → sel.row i = .ok r →
    ∃ x, exact f r e = .i64 x ∧ (Arr.i64 v).value i = .ok (.i64 x)

/-- All rows of the table, or chosen ones. -/
def Sel.Of (t : Table) : Sel → Prop
  | .all n => n = t.nrows
  | .ids v => ∀ r ∈ v, r < t.nrows

def Expr.IsIf (e : Expr) : Prop :=
  ∃ args, e = .func .ifThen args

/-- At every selected row the integer is one that the cast to a double and back keeps. -/
def Representable (f : Frame) (sel : Sel) (e : Expr) : Prop :=
  ∀ i r, i < sel.len → sel.row i = .ok r → ∀ x, exact f r e = .i64 x → (F64.ofI64 x).toI64 = x

theorem saturatingI64_eq_clamp (n : Int) : saturatingI64 n = clampI64 n := by
  unfold saturatingI64 clampI64
  by_cases hlow : n < -2 ^ 63
  · have hn : max (-2 ^ 63) (min n (2 ^ 63 - 1)) = -2 ^ 63 := by omega
    rw [if_pos hlow, hn]
    rfl
  rw [if_neg hlow]
  by_cases hhigh : 2 ^ 63 ≤ n
  · have hn : max (-2 ^ 63) (min n (2 ^ 63 - 1)) = 2 ^ 63 - 1 := by omega
    rw [if_pos hhigh, hn]
    rfl
  · have hn : max (-2 ^ 63) (min n (2 ^ 63 - 1)) = n := by omega
    rw [if_neg hhigh, hn]

theorem intArith_exact {op : BinOp} (hop : op ∈ [BinOp.add, .sub, .mul, .mod]) (a b : Int64) :
    ∃ x, intArith op a b = .ok x ∧ exactBinary op (.i64 a) (.i64 b) = .i64 x := by
  cases op with
  | add => exact ⟨_, rfl, by rw [saturatingI64_eq_clamp]; rfl⟩
  | sub => exact ⟨_, rfl, by rw [saturatingI64_eq_clamp]; rfl⟩
  | mul => exact ⟨_, rfl, by rw [saturatingI64_eq_clamp]; rfl⟩
  | mod =>
    refine ⟨_, rfl, ?_⟩
    have hzero : b.toInt = 0 ↔ b = 0 := by rw [← Int64.toInt_zero, Int64.toInt_inj]
    have hmod : Int64.ofInt (a.toInt.tmod b.toInt) = a % b := by
      rw [← Int64.toInt_mod, Int64.ofInt_toInt]
    simp only [exactBinary, hzero, hmod]
  | _ => simp at hop

section

variable {rt : Runtime} {f : Frame} {sel : Sel} {e : Expr} {v : List Int64}

/-- The array has one entry or one for each row, and at each row the exact value. -/
def Holds (f : Frame) (sel : Sel) (e : Expr) (v : List Int64) : Prop :=
  ∀ i r, i < sel.len → sel.row i = .ok r → ∃ x, exact f r e = .i64 x ∧ pick v i = .ok x

theorem staysExact_iff : StaysExact rt f sel e ↔
    ∃ v, eval rt f sel e = .ok (.i64 v) ∧ Holds f sel e v := by
  constructor
  · rintro ⟨v, hv, h⟩
    refine ⟨v, hv, fun i r hi hr => ?_⟩
    obtain ⟨x, hx, hvalue⟩ := h i r hi hr
    obtain ⟨y, hy, hxy⟩ := bind_pure_eq_ok.mp hvalue
    obtain rfl := Value.i64.inj hxy
    exact ⟨y, hx, hy⟩
  · rintro ⟨v, hv, h⟩
    refine ⟨v, hv, fun i r hi hr => ?_⟩
    obtain ⟨x, hx, hpick⟩ := h i r hi hr
    exact ⟨x, hx, bind_pure_eq_ok.mpr ⟨x, hpick, rfl⟩⟩

theorem staysExact_of_node {r : Exec Arr} (heq : eval rt f sel e = r >>= checkLen sel.len)
    (hr : r = .ok (.i64 v)) (hlen : v.length = sel.len ∨ v.length = 1) (h : Holds f sel e v) :
    StaysExact rt f sel e := by
  refine staysExact_iff.mpr ⟨v, ?_, h⟩
  rw [heq, hr, ok_bind]
  exact if_pos hlen

theorem StaysExact.operand (h : StaysExact rt f sel e) :
    ∃ v, eval rt f sel e = .ok (.i64 v) ∧ (v.length = sel.len ∨ v.length = 1) ∧
      Holds f sel e v := by
  obtain ⟨v, hv, hold⟩ := staysExact_iff.mp h
  exact ⟨v, hv, eval_sized hv, hold⟩

theorem Holds.map {d : Expr} (g : Int64 → Int64) (h : Holds f sel d v)
    (hg : ∀ i r x, i < sel.len → sel.row i = .ok r → exact f r d = .i64 x →
      exact f r e = .i64 (g x)) : Holds f sel e (v.map g) := by
  intro i r hi hr
  obtain ⟨x, hx, hpick⟩ := h i r hi hr
  exact ⟨g x, hg i r x hi hr hx, pick_map g hpick⟩

theorem staysExact_lit (x : Int64) : StaysExact rt f sel (.lit (.i64 x)) := by
  refine staysExact_of_node (eval_lit rt f sel _) rfl (Or.inr rfl) fun i r _ _ => ?_
  exact ⟨x, rfl, rfl⟩

theorem staysExact_neg (h : StaysExact rt f sel e) : StaysExact rt f sel (.unary .neg e) := by
  obtain ⟨v, hv, hlen, hold⟩ := h.operand
  refine staysExact_of_node (eval_unary rt f sel .neg e) ?_ (by simpa using hlen)
    (hold.map (fun x => saturatingI64 (-x.toInt)) fun i r x _ _ hx => ?_)
  · rw [hv]
    rfl
  · rw [saturatingI64_eq_clamp, exact, hx]
    rfl

theorem staysExact_abs (h : StaysExact rt f sel e) : StaysExact rt f sel (.func .abs [e]) := by
  obtain ⟨v, hv, hlen, hold⟩ := h.operand
  refine staysExact_of_node (eval_func rt f sel .abs [e]) ?_ (by simpa using hlen)
    (hold.map (fun x => saturatingI64 x.toInt.natAbs) fun i r x _ _ hx => ?_)
  · rw [evalArgs_cons, hv]
    rfl
  · rw [saturatingI64_eq_clamp, exact, exactArgs, hx]
    rfl

theorem staysExact_cast (h : StaysExact rt f sel e) (hrep : Representable f sel e) :
    StaysExact rt f sel (.cast e .i64) := by
  obtain ⟨v, hv, hlen, hold⟩ := h.operand
  refine staysExact_of_node (eval_cast rt f sel e .i64) ?_ (by simpa using hlen)
    (hold.map (fun x => (F64.ofI64 x).toI64) fun i r x hi hr hx => ?_)
  · rw [hv, ok_bind]
    simp [cast, Arr.toF64, ok_bind, pure, Except.pure]
  · rw [exact, hx, hrep i r hi hr x hx]

theorem zipMap_total {α β γ : Type} {l : List α} {r : List β} {g : α → β → Exec γ} {n : Nat}
    (hl : l.length = n ∨ l.length = 1) (hr : r.length = n ∨ r.length = 1)
    (hg : ∀ a b, ∃ c, g a b = .ok c) :
    ∃ m w, pairLen l.length r.length = .ok m ∧ (m = n ∨ m = 1) ∧ zipMap m l r g = .ok w ∧
      ∀ i x y, i < n → pick l i = .ok x → pick r i = .ok y →
        ∃ z, g x y = .ok z ∧ pick w i = .ok z := by
  have hpair : ∃ m, pairLen l.length r.length = .ok m ∧ (m = n ∨ m = 1) := by
    rw [pairLen_source]
    split_ifs with h1 h2 h3
    · exact ⟨_, rfl, hl⟩
    · exact ⟨_, rfl, hr⟩
    · exact ⟨_, rfl, hl⟩
    · omega
  obtain ⟨m, hm, hmn⟩ := hpair
  have hlen := pairLen_eq_ok hm
  have htotal : ∃ w, zipMap m l r g = .ok w := by
    refine mapM_total fun i hi => ?_
    have hi : i < m := List.mem_range.mp hi
    obtain ⟨x, hx⟩ := pick_exists (v := l) hi (by omega)
    obtain ⟨y, hy⟩ := pick_exists (v := r) hi (by omega)
    rw [hx, hy]
    exact hg x y
  obtain ⟨w, hw⟩ := htotal
  refine ⟨m, w, hm, hmn, hw, fun i x y hi hx hy => ?_⟩
  obtain ⟨z, hz, hone⟩ := zipMap_pick hm hl hr hi hw hx hy
  obtain ⟨c, hc⟩ := hg x y
  have hsingle : zipMap 1 [x] [y] g = .ok [c] := mapM_singleton hc
  obtain rfl := List.singleton_inj.mp (Except.ok.inj (hone.symm.trans hsingle))
  exact ⟨z, hc, hz⟩

theorem evalBinary_ints {op : BinOp} (hop : op ∈ [BinOp.add, .sub, .mul, .mod])
    (x y : List Int64) : evalBinary rt op (.i64 x) (.i64 y) =
      pairLen x.length y.length >>= fun n => do return .i64 (← zipMap n x y (intArith op)) := by
  cases op with
  | add => rfl
  | sub => rfl
  | mul => rfl
  | mod => rfl
  | _ => simp at hop

theorem staysExact_arith {op : BinOp} {l d : Expr} (hop : op ∈ [BinOp.add, .sub, .mul, .mod])
    (hl : StaysExact rt f sel l) (hd : StaysExact rt f sel d) :
    StaysExact rt f sel (.binary op l d) := by
  obtain ⟨x, hx, hxlen, hxs⟩ := hl.operand
  obtain ⟨y, hy, hylen, hys⟩ := hd.operand
  have htotal : ∀ a b, ∃ c, intArith op a b = .ok c := fun a b => by
    obtain ⟨c, hc, -⟩ := intArith_exact hop a b
    exact ⟨c, hc⟩
  obtain ⟨m, w, hm, hmn, hw, hpick⟩ := zipMap_total hxlen hylen htotal
  refine staysExact_of_node (v := w) (eval_binary rt f sel op l d) ?_ ?_ fun i r hi hr => ?_
  · rw [hx, hy, ok_bind, ok_bind, evalBinary_ints hop, hm, ok_bind, hw]
    rfl
  · rw [zipMap_length hw]
    exact hmn
  · obtain ⟨a, ha, hpa⟩ := hxs i r hi hr
    obtain ⟨b, hb, hpb⟩ := hys i r hi hr
    obtain ⟨z, hz, hpz⟩ := hpick i a b hi hpa hpb
    obtain ⟨c, hc, hcx⟩ := intArith_exact hop a b
    obtain rfl := Except.ok.inj (hz.symm.trans hc)
    exact ⟨z, by rw [exact, ha, hb, hcx], hpz⟩

theorem staysExact_coalesce {es : List Expr} (he : StaysExact rt f sel e)
    (hes : ∀ a ∈ es, StaysExact rt f sel a) : StaysExact rt f sel (.func .coalesce (e :: es)) := by
  obtain ⟨v, hv, hlen, hold⟩ := he.operand
  have hrest : ∃ vs, evalArgs rt f sel es = .ok vs := by
    rw [evalArgs_eq_mapM]
    refine mapM_total fun a ha => ?_
    obtain ⟨w, hw, -⟩ := hes a ha
    exact ⟨_, hw⟩
  obtain ⟨vs, hvs⟩ := hrest
  refine staysExact_of_node (eval_func rt f sel .coalesce (e :: es)) ?_ hlen fun i r hi hr => ?_
  · rw [evalArgs_cons, hv, ok_bind, hvs]
    rfl
  · obtain ⟨x, hx, hpick⟩ := hold i r hi hr
    refine ⟨x, ?_, hpick⟩
    rw [exact, exactArgs, hx]
    cases exactArgs f r es with
    | nil => rfl
    | cons b bs => cases bs <;> rfl

theorem staysExact_col {t : Table} {i : Nat} (ht : t.Shape) (hsel : sel.Of t)
    (hi : (Frame.ofTable t).cols[i]? = some (.i64 v)) :
    StaysExact rt (Frame.ofTable t) sel (.col i) := by
  have hfull : v.length = t.nrows := ht.full _ (List.mem_of_getElem? hi)
  have hgather : ∃ w, gather (.i64 v) sel = .ok (.i64 w) ∧ w.length = sel.len := by
    cases sel with
    | all n => exact ⟨v, rfl, hfull.trans hsel.symm⟩
    | ids ids =>
      obtain ⟨w, hw⟩ := mapM_total (f := index v) (l := ids) fun r hr =>
        ⟨_, index_eq_ok.mpr (List.getElem?_eq_getElem (hfull ▸ hsel r hr))⟩
      exact ⟨w, bind_pure_eq_ok.mpr ⟨w, hw, rfl⟩, mapM_length hw⟩
  obtain ⟨w, hw, hlen⟩ := hgather
  have hcov : ∀ n, sel = .all n → (Column.i64 v).len = n := by
    rintro n rfl
    exact hfull.trans hsel.symm
  refine staysExact_of_node (eval_col rt _ sel i) (by rw [hi]; exact hw) (Or.inl hlen)
    fun j r hj hr => ?_
  obtain ⟨a, hrow, hone⟩ := gather_row hcov hj hr hw
  obtain ⟨x, hx, rfl⟩ := Arr.row_i64.mp hrow
  obtain ⟨u, hu, hxu⟩ := bind_pure_eq_ok.mp hone
  obtain rfl := Arr.i64.inj hxu
  have hr : index v r = .ok x := by simpa using mapM_eq_ok.mp hu
  exact ⟨x, by rw [exact, hi]; simp [index_eq_ok.mp hr], hx⟩

end

theorem Built.child {f : Frame} {ty : DataType} {e c : Expr} (h : Built f ty e)
    (hc : c ∈ e.children) : ∃ ty', Built f ty' c := by
  cases h with
  | col hi => simp [Expr.children] at hc
  | lit x => simp [Expr.children] at hc
  | arith hop hl hr =>
    rcases List.mem_pair.mp hc with rfl | rfl
    · exact ⟨_, hl⟩
    · exact ⟨_, hr⟩
  | cmp hop hl hr =>
    rcases List.mem_pair.mp hc with rfl | rfl
    · exact ⟨_, hl⟩
    · exact ⟨_, hr⟩
  | logic hop hl hr =>
    rcases List.mem_pair.mp hc with rfl | rfl
    · exact ⟨_, hl⟩
    · exact ⟨_, hr⟩
  | neg he =>
    obtain rfl := List.mem_singleton.mp hc
    exact ⟨_, he⟩
  | not he =>
    obtain rfl := List.mem_singleton.mp hc
    exact ⟨_, he⟩
  | abs he =>
    obtain rfl := List.mem_singleton.mp hc
    exact ⟨_, he⟩
  | cast he =>
    obtain rfl := List.mem_singleton.mp hc
    exact ⟨_, he⟩
  | coalesce he hes =>
    rcases List.mem_cons.mp hc with rfl | hc
    · exact ⟨_, he⟩
    · exact ⟨_, hes c hc⟩
  | ifThen hcond ha hb =>
    simp only [Expr.children, List.mem_cons, List.not_mem_nil, or_false] at hc
    rcases hc with rfl | rfl | rfl
    · exact ⟨_, hcond⟩
    · exact ⟨_, ha⟩
    · exact ⟨_, hb⟩

theorem Built.part {f : Frame} {e d : Expr} (hd : d ∈ e.subexprs) {ty : DataType}
    (h : Built f ty e) : ∃ ty', Built f ty' d := by
  induction e using Expr.induct_children generalizing ty with
  | step e ih =>
    rcases Expr.mem_subexprs.mp hd with rfl | ⟨c, hc, hdc⟩
    · exact ⟨ty, h⟩
    · obtain ⟨ty', hty'⟩ := h.child hc
      exact ih c hc hdc hty'

theorem staysExact_of_built {rt : Runtime} {t : Table} {sel : Sel} {ty : DataType} {e : Expr}
    (ht : t.Shape) (hsel : sel.Of t) (h : Built (Frame.ofTable t) ty e) (hty : ty = .i64)
    (hif : ∀ d ∈ e.subexprs, ¬ d.IsIf)
    (hcast : ∀ d, .cast d .i64 ∈ e.subexprs → Representable (Frame.ofTable t) sel d) :
    StaysExact rt (Frame.ofTable t) sel e := by
  induction h with
  | col hi => exact staysExact_col ht hsel hi
  | lit x => exact staysExact_lit x
  | arith hop hl hr ihl ihr =>
    refine staysExact_arith hop (ihl rfl (fun d hd => hif d ?_) fun d hd => hcast d ?_)
      (ihr rfl (fun d hd => hif d ?_) fun d hd => hcast d ?_) <;>
    exact Expr.mem_subexprs_child (by simp [Expr.children]) hd
  | neg he ih =>
    refine staysExact_neg (ih rfl (fun d hd => hif d ?_) fun d hd => hcast d ?_) <;>
    exact Expr.mem_subexprs_child (by simp [Expr.children]) hd
  | abs he ih =>
    refine staysExact_abs (ih rfl (fun d hd => hif d ?_) fun d hd => hcast d ?_) <;>
    exact Expr.mem_subexprs_child (by simp [Expr.children]) hd
  | cast he ih =>
    refine staysExact_cast (ih rfl (fun d hd => hif d ?_) fun d hd => hcast d ?_)
      (hcast _ (Expr.mem_subexprs_self _)) <;>
    exact Expr.mem_subexprs_child (by simp [Expr.children]) hd
  | coalesce he hes ih ihs =>
    refine staysExact_coalesce (ih rfl (fun d hd => hif d ?_) fun d hd => hcast d ?_)
      fun a ha => ihs a ha rfl (fun d hd => hif d ?_) fun d hd => hcast d ?_
    · exact Expr.mem_subexprs_child (by simp [Expr.children]) hd
    · exact Expr.mem_subexprs_child (by simp [Expr.children]) hd
    · exact Expr.mem_subexprs_child (List.mem_cons_of_mem _ ha) hd
    · exact Expr.mem_subexprs_child (List.mem_cons_of_mem _ ha) hd
  | ifThen => exact absurd ⟨_, rfl⟩ (hif _ (Expr.mem_subexprs_self _))
  | _ => cases hty

theorem ifCall_ne_ints {args : List Arr} {v : List Int64} : ifCall args ≠ .ok (.i64 v) := by
  intro h
  obtain ⟨c, -, h⟩ := bind_eq_ok.mp h
  obtain ⟨cond, -, h⟩ := bind_eq_ok.mp h
  obtain ⟨a, -, h⟩ := bind_eq_ok.mp h
  obtain ⟨b, -, h⟩ := bind_eq_ok.mp h
  have hfloats : ∀ x y : Exec (List F64),
      (do return .f64 (← ifPick (callLen args) cond (← x) (← y))) ≠ (.ok (.i64 v) : Exec Arr) := by
    intro x y h
    obtain ⟨xs, -, h⟩ := bind_eq_ok.mp h
    obtain ⟨ys, -, h⟩ := bind_eq_ok.mp h
    obtain ⟨w, -, h⟩ := bind_pure_eq_ok.mp h
    cases h
  cases a with
  | str x =>
    cases b with
    | str y =>
      obtain ⟨w, -, h⟩ := bind_pure_eq_ok.mp h
      cases h
    | _ => exact hfloats _ _ h
  | _ => exact hfloats _ _ h

theorem not_staysExact_if {rt : Runtime} {f : Frame} {sel : Sel} {e : Expr} (he : e.IsIf) :
    ¬ StaysExact rt f sel e := by
  obtain ⟨args, rfl⟩ := he
  rintro ⟨v, hv, -⟩
  obtain ⟨as, -, hcall⟩ := bind_eq_ok.mp (eval_node (eval_func rt f sel .ifThen args) hv)
  exact ifCall_ne_ints hcall

theorem representable_of_cast {rt : Runtime} {f : Frame} {sel : Sel} {e : Expr}
    (he : StaysExact rt f sel e) (h : StaysExact rt f sel (.cast e .i64)) :
    Representable f sel e := by
  obtain ⟨v, hv, hold⟩ := staysExact_iff.mp he
  obtain ⟨w, hw, hcast⟩ := staysExact_iff.mp h
  have hnode := eval_node (eval_cast rt f sel e .i64) hw
  rw [hv, ok_bind] at hnode
  obtain ⟨u, hu, hmap⟩ := bind_pure_eq_ok.mp hnode
  obtain rfl := Except.ok.inj hu
  obtain rfl := Arr.i64.inj hmap
  intro i r hi hr x hx
  obtain ⟨y, hy, hpick⟩ := hold i r hi hr
  obtain ⟨z, hz, hround⟩ := hcast i r hi hr
  obtain rfl := Value.i64.inj (hx.symm.trans hy)
  obtain rfl : x = z := Value.i64.inj (hx.symm.trans hz)
  have hboth := pick_map F64.toI64 (pick_map F64.ofI64 hpick)
  exact Except.ok.inj (hboth.symm.trans hround)

/-- An integer expression and all its integer parts stay exact just when there is no `if`
among them, and no cast to INT of an integer that a double cannot hold. -/
theorem staysExact_iff_representable (rt : Runtime) (t : Table) (sel : Sel) (e : Expr)
    (ht : t.Shape) (hsel : sel.Of t) (he : Built (Frame.ofTable t) .i64 e) :
    (∀ d ∈ e.subexprs, Built (Frame.ofTable t) .i64 d → StaysExact rt (Frame.ofTable t) sel d) ↔
      (∀ d ∈ e.subexprs, ¬ d.IsIf) ∧
        ∀ d, .cast d .i64 ∈ e.subexprs → Representable (Frame.ofTable t) sel d := by
  constructor
  · intro h
    have hint : ∀ d ∈ e.subexprs, (d.IsIf ∨ ∃ c, d = .cast c .i64) →
        StaysExact rt (Frame.ofTable t) sel d := by
      intro d hd hform
      obtain ⟨ty, hty⟩ := he.part hd
      refine h d hd ?_
      rcases hform with ⟨args, rfl⟩ | ⟨c, rfl⟩
      · cases hty with
        | ifThen hc ha hb => exact .ifThen hc ha hb
      · cases hty with
        | cast hc => exact .cast hc
    refine ⟨fun d hd hif => not_staysExact_if hif (hint d hd (Or.inl hif)), fun d hd => ?_⟩
    have hcast := hint _ hd (Or.inr ⟨d, rfl⟩)
    have hpart : d ∈ e.subexprs :=
      Expr.mem_subexprs_trans (Expr.mem_subexprs_child (by simp [Expr.children])
        (Expr.mem_subexprs_self d)) hd
    obtain ⟨ty, hty⟩ := he.part hd
    cases hty with
    | cast hc => exact representable_of_cast (h d hpart hc) hcast
  · rintro ⟨hif, hcast⟩ d hd hbuilt
    exact staysExact_of_built ht hsel hbuilt rfl
      (fun c hc => hif c (Expr.mem_subexprs_trans hc hd))
      fun c hc => hcast c (Expr.mem_subexprs_trans hc hd)

/-- One row, with the first integer that no double holds. -/
def bigTable : Table :=
  ⟨"big", ⟨[⟨"x", .i64⟩]⟩, [.i64 [9007199254740993]], 1⟩

theorem bigTable_shape : bigTable.Shape where
  valid := by decide +kernel
  typed := List.Forall₂.cons rfl List.Forall₂.nil
  full := by simp [bigTable, Column.len]
  columns := by simp [bigTable, Column.Shape]

theorem bigTable_col : Built (Frame.ofTable bigTable) .i64 (.col 0) :=
  .col rfl

/-- `CAST(x AS INT)` is one too small, and `if(x = x, x, x)` is a DOUBLE. -/
theorem cast_and_if_inexact :
    bigTable.Shape ∧ Built (Frame.ofTable bigTable) .i64 (.cast (.col 0) .i64) ∧
      Built (Frame.ofTable bigTable) .i64
        (.func .ifThen [.binary .eq (.col 0) (.col 0), .col 0, .col 0]) ∧
      eval plainRuntime (Frame.ofTable bigTable) (.all 1) (.cast (.col 0) .i64) =
        .ok (.i64 [9007199254740992]) ∧
      ¬ StaysExact plainRuntime (Frame.ofTable bigTable) (.all 1) (.cast (.col 0) .i64) ∧
      ¬ StaysExact plainRuntime (Frame.ofTable bigTable) (.all 1)
        (.func .ifThen [.binary .eq (.col 0) (.col 0), .col 0, .col 0]) := by
  have hrounds : eval plainRuntime (Frame.ofTable bigTable) (.all 1) (.cast (.col 0) .i64) =
      .ok (.i64 [9007199254740992]) := by decide +kernel
  refine ⟨bigTable_shape, .cast bigTable_col,
    .ifThen (.cmp (by decide) bigTable_col bigTable_col) bigTable_col bigTable_col, hrounds, ?_,
    not_staysExact_if ⟨_, rfl⟩⟩
  rintro ⟨v, hv, h⟩
  obtain rfl := Arr.i64.inj (Except.ok.inj (hrounds.symm.trans hv))
  obtain ⟨x, hx, hvalue⟩ := h 0 0 (by decide) rfl
  have hexact : exact (Frame.ofTable bigTable) 0 (.cast (.col 0) .i64) = .i64 9007199254740993 := by
    decide +kernel
  obtain rfl := Value.i64.inj (hexact.symm.trans hx)
  revert hvalue
  decide

theorem staysExact_iff_representable_big :
    (∀ d ∈ (Expr.binary .add (.col 0) (.lit (.i64 1))).subexprs,
        Built (Frame.ofTable bigTable) .i64 d →
          StaysExact plainRuntime (Frame.ofTable bigTable) (.all 1) d) ↔
      (∀ d ∈ (Expr.binary .add (.col 0) (.lit (.i64 1))).subexprs, ¬ d.IsIf) ∧
        ∀ d, .cast d .i64 ∈ (Expr.binary .add (.col 0) (.lit (.i64 1))).subexprs →
          Representable (Frame.ofTable bigTable) (.all 1) d :=
  staysExact_iff_representable plainRuntime bigTable (.all 1) _ bigTable_shape rfl
    (.arith (by decide) bigTable_col (.lit 1))

end Veldb
