import Veldb.Broadcast
import Veldb.Library.Predictions

/-! The type of an expression, from the types of the columns alone: evaluation gives it whatever
the rows are, and where it exists only a panic or an unknown unit of `date_trunc` is left to go
wrong. -/

namespace Veldb

open Attempts Arr Predictions

/-- What `to_f64` takes. -/
def DataType.isNumeric : DataType → Bool
  | .i64 | .f64 | .bool => true
  | .str | .vector _ => false

/-- A type that is asked for, as a step without a value. -/
def required (b : Bool) : Option Unit :=
  if b then some () else none

def floatsType (op : BinOp) (l r : DataType) : Option DataType := do
  required l.isNumeric
  required r.isNumeric
  return if op.isCmp then .bool else .f64

def BinOp.typeOf (op : BinOp) (l r : DataType) : Option DataType :=
  if op = .and ∨ op = .or then do
    required (l = .bool)
    required (r = .bool)
    return .bool
  else
    match l, r with
    | .str, .str => if op.isCmp then some .bool else none
    | .str, _ => none
    | _, .str => none
    | .i64, .i64 =>
      if op.isCmp then some .bool else if op ≠ .div then some .i64 else floatsType op .i64 .i64
    | l, r => floatsType op l r

def Value.litType : Value → Option DataType
  | .vector _ => none
  | v => some v.typeOf

def UnOp.typeOf (op : UnOp) (v : DataType) : Option DataType :=
  match op with
  | .not => do
    required (v = .bool)
    return .bool
  | .neg =>
    match v with
    | .i64 => some .i64
    | v => do
      required v.isNumeric
      return .f64

def likeType : DataType → Option DataType
  | .str => some .bool
  | _ => none

def inListType (v : DataType) (list : List Value) : Option DataType := do
  required (list.all fun lit => (lit.litType.bind (BinOp.eq.typeOf v)).isSome)
  return .bool

def betweenType (v low : DataType) (high : Option DataType) : Option DataType := do
  let lo ← BinOp.gtEq.typeOf v low
  let hi ← BinOp.ltEq.typeOf v (← high)
  BinOp.and.typeOf lo hi

def castType (v ty : DataType) : Option DataType :=
  match ty with
  | .i64 | .f64 =>
    match v with
    | .str => some ty
    | v => do
      required v.isNumeric
      return ty
  | .bool => do
    required v.isNumeric
    return .bool
  | .str => some .str
  | .vector _ => none

def branchesType (a b : DataType) : Option DataType :=
  match a, b with
  | .str, .str => some .str
  | a, b => do
    required a.isNumeric
    required b.isNumeric
    return .f64

/-- Arguments past those a function reads are not looked at. -/
def ScalarFunc.typeOf (func : ScalarFunc) (args : List DataType) : Option DataType :=
  match func with
  | .length => do
    required ((← args[0]?) = .str)
    return .i64
  | .lower | .upper => do
    required ((← args[0]?) = .str)
    return .str
  | .abs => do
    match ← args[0]? with
    | .i64 => some .i64
    | v => do
      required v.isNumeric
      return .f64
  | .floor | .ceil | .sqrt => do
    required (← args[0]?).isNumeric
    return .f64
  | .round => do
    required (← args[0]?).isNumeric
    required (args[1]?.all DataType.isNumeric)
    return .f64
  | .substring => do
    required ((← args[0]?) = .str)
    required (← args[1]?).isNumeric
    required (args[2]?.all DataType.isNumeric)
    return .str
  | .extractHour | .extractMinute | .extractDay | .extractMonth | .extractYear => do
    required (← args[0]?).isNumeric
    return .i64
  | .dateTrunc => do
    required ((← args[0]?) = .str)
    required (← args[1]?).isNumeric
    return .i64
  | .coalesce => args[0]?
  | .ifThen => do
    required ((← args[0]?) = .bool)
    branchesType (← args[1]?) (← args[2]?)

def distanceType (query : List F32) : DataType → Option DataType
  | .vector dim => if dim.toNat = query.length then some .f64 else none
  | _ => none

namespace Expr

mutual

def typeOf (cols : List DataType) (e : Expr) : Option DataType :=
  match e with
  | .col i => cols[i]?
  | .lit v => v.litType
  | .binary op l r => do op.typeOf (← typeOf cols l) (← typeOf cols r)
  | .unary op e => do op.typeOf (← typeOf cols e)
  | .like e _ _ _ => do likeType (← typeOf cols e)
  | .inList e list _ => do inListType (← typeOf cols e) list
  | .between e low high _ => do
    betweenType (← typeOf cols e) (← typeOf cols low) (typeOf cols high)
  | .cast e ty => do castType (← typeOf cols e) ty
  | .func f args => do f.typeOf (← typesOf cols args)
  | .distance _ c query => do distanceType query (← cols[c]?)
  | .agg _ _ _ => none

def typesOf (cols : List DataType) (es : List Expr) : Option (List DataType) :=
  match es with
  | [] => some []
  | e :: es => do
    let ty ← typeOf cols e
    return ty :: (← typesOf cols es)

end

theorem typesOf_eq_mapM (cols : List DataType) (es : List Expr) :
    typesOf cols es = es.mapM (typeOf cols) := by
  induction es with
  | nil => rfl
  | cons e es ih =>
    rw [List.mapM_cons, ← ih]
    rfl

end Expr

/-- Panics are not foreseen by the types. -/
def Excuses (excused : Fault → Prop) : Prop :=
  ∀ place, excused (.crash place)

section Parts

variable {excused : Fault → Prop} {rt : Runtime} {α β γ : Type} {op : BinOp}

theorem quiet_index (hex : Excuses excused) (v : List α) (i : Nat) : Quiet excused (index v i) := by
  unfold index
  cases v[i]? with
  | some a => exact quiet_ok a
  | none => exact quiet_excused (hex _)

theorem quiet_pick (hex : Excuses excused) (v : List α) (i : Nat) : Quiet excused (pick v i) :=
  quiet_index hex v _

theorem quiet_zipMap (hex : Excuses excused) {n : Nat} {l : List α} {r : List β}
    {f : α → β → Exec γ} (hf : ∀ a b, Quiet excused (f a b)) : Quiet excused (zipMap n l r f) := by
  refine Quiet.mapM fun i _ => ?_
  exact (quiet_pick hex l i).bind fun a => (quiet_pick hex r i).bind fun b => hf a b

theorem quiet_cmpOk (hex : Excuses excused) (op : BinOp) (o : Ordering) :
    Quiet excused (cmpOk op o) := by
  cases op with
  | eq => exact quiet_ok _
  | notEq => exact quiet_ok _
  | lt => exact quiet_ok _
  | ltEq => exact quiet_ok _
  | gt => exact quiet_ok _
  | gtEq => exact quiet_ok _
  | _ => exact quiet_excused (hex _)

theorem quiet_floatCmp (hex : Excuses excused) (op : BinOp) (a b : F64) :
    Quiet excused (floatCmp op a b) := by
  unfold floatCmp
  cases a.partialCmp b with
  | some o => exact (quiet_cmpOk hex op o).bind fun _ => quiet_ok _
  | none => exact quiet_ok _

theorem quiet_floatArith (hex : Excuses excused) (op : BinOp) (a b : F64) :
    Quiet excused (floatArith rt op a b) := by
  cases op with
  | add => exact quiet_ok _
  | sub => exact quiet_ok _
  | mul => exact quiet_ok _
  | div => exact quiet_ok _
  | mod => exact quiet_ok _
  | _ => exact quiet_excused (hex _)

theorem quiet_intArith (hex : Excuses excused) (op : BinOp) (a b : Int64) :
    Quiet excused (intArith op a b) := by
  cases op with
  | add => exact quiet_ok _
  | sub => exact quiet_ok _
  | mul => exact quiet_ok _
  | mod => exact quiet_ok _
  | _ => exact quiet_excused (hex _)

theorem toF64_predicted (a : Arr) :
    Predicts excused (fun _ => ()) (required a.dataType.isNumeric) a.toF64 := by
  cases a with
  | str v => exact predicts_refused _
  | vector dim rows => exact predicts_refused _
  | _ => exact predicts_ok rfl

theorem asBool_predicted (a : Arr) :
    Predicts excused (fun _ => ()) (required (a.dataType = .bool)) a.asBool := by
  cases a with
  | bool v => exact predicts_ok rfl
  | _ => exact predicts_refused _

theorem evalFloats_predicted (hex : Excuses excused) (n : Nat) (l r : Arr) :
    Predicts excused dataType (floatsType op l.dataType r.dataType) (evalFloats rt op n l r) := by
  refine (toF64_predicted l).bind fun lf _ => (toF64_predicted r).bind fun rf _ => ?_
  by_cases hcmp : op.isCmp = true
  · rw [if_pos hcmp, if_pos hcmp]
    exact Quiet.wrapped (quiet_zipMap hex (quiet_floatCmp hex op)) fun _ => rfl
  · rw [if_neg hcmp, if_neg hcmp]
    exact Quiet.wrapped (quiet_zipMap hex (quiet_floatArith hex op)) fun _ => rfl

theorem binaryAt_predicted (hex : Excuses excused) (n : Nat) (l r : Arr) :
    Predicts excused dataType (op.typeOf l.dataType r.dataType) (binaryAt rt op l r n) := by
  unfold BinOp.typeOf binaryAt
  by_cases hlogic : op = .and ∨ op = .or
  · rw [if_pos hlogic, if_pos hlogic]
    refine (asBool_predicted l).bind fun lb _ => (asBool_predicted r).bind fun rb _ => ?_
    exact Quiet.wrapped (quiet_zipMap hex fun _ _ => quiet_ok _) fun _ => rfl
  rw [if_neg hlogic, if_neg hlogic]
  have hcmps : ∀ o : Ordering, Quiet excused (do return boolByte (← cmpOk op o)) := fun o =>
    (quiet_cmpOk hex op o).bind fun _ => quiet_ok _
  have hfloats : Predicts excused dataType (floatsType op l.dataType r.dataType)
      (evalFloats rt op n l r) := evalFloats_predicted hex n l r
  cases l with
  | str ls =>
    cases r with
    | str rs =>
      by_cases hcmp : op.isCmp = true
      · simp only [dataType, if_pos hcmp]
        exact Quiet.wrapped (quiet_zipMap hex fun _ _ => hcmps _) fun _ => rfl
      · simp only [dataType, if_neg hcmp]
        exact predicts_refused _
    | _ => exact predicts_refused _
  | i64 ls =>
    cases r with
    | str rs => exact predicts_refused _
    | i64 rs =>
      by_cases hcmp : op.isCmp = true
      · simp only [dataType, if_pos hcmp]
        exact Quiet.wrapped (quiet_zipMap hex fun _ _ => hcmps _) fun _ => rfl
      · simp only [dataType, if_neg hcmp]
        by_cases hdiv : op ≠ .div
        · rw [if_pos hdiv, if_pos hdiv]
          exact Quiet.wrapped (quiet_zipMap hex (quiet_intArith hex op)) fun _ => rfl
        · rw [if_neg hdiv, if_neg hdiv]
          exact hfloats
    | _ => exact hfloats
  | _ =>
    cases r with
    | str rs => exact predicts_refused _
    | _ => exact hfloats

theorem evalLit_predicted (v : Value) : Predicts excused dataType v.litType (evalLit v) := by
  cases v with
  | vector x => exact predicts_refused _
  | _ => exact predicts_ok rfl

theorem evalUnary_predicted (op : UnOp) (v : Arr) :
    Predicts excused dataType (op.typeOf v.dataType) (evalUnary op v) := by
  cases op with
  | not => exact (asBool_predicted v).bind fun w _ => predicts_ok rfl
  | neg =>
    have hfloats : Predicts excused dataType (do required v.dataType.isNumeric; return .f64)
        (do return .f64 ((← v.toF64).map F64.neg) : Exec Arr) :=
      (toF64_predicted v).bind fun w _ => predicts_ok rfl
    cases v with
    | i64 x => exact predicts_ok rfl
    | _ => exact hfloats

theorem evalLike_predicted (v : Arr) (pattern : String) (negated ci : Bool) :
    Predicts excused dataType (likeType v.dataType) (evalLike rt v pattern negated ci) := by
  cases v with
  | str items => exact predicts_ok rfl
  | _ => exact predicts_refused _

theorem quiet_value (hex : Excuses excused) (a : Arr) (i : Nat) : Quiet excused (a.value i) := by
  cases a with
  | i64 v => exact (quiet_pick hex v i).bind fun _ => quiet_ok _
  | f64 v => exact (quiet_pick hex v i).bind fun _ => quiet_ok _
  | bool v => exact (quiet_pick hex v i).bind fun _ => quiet_ok _
  | str v => exact (quiet_pick hex v i).bind fun _ => quiet_ok _
  | vector dim rows => exact (quiet_pick hex rows i).bind fun _ => quiet_ok _

theorem cast_predicted (hex : Excuses excused) (v : Arr) (ty : DataType) :
    Predicts excused dataType (castType v.dataType ty) (cast rt v ty) := by
  have hfloats : ∀ (g : List F64 → Arr) (ty : DataType), (∀ w, (g w).dataType = ty) →
      Predicts excused dataType (do required v.dataType.isNumeric; return ty)
        (do return g (← v.toF64)) := fun g ty hg =>
    (toF64_predicted v).bind fun w _ => predicts_ok (congrArg some (hg w).symm)
  cases ty with
  | i64 =>
    have h := hfloats (fun w => .i64 (w.map F64.toI64)) .i64 fun _ => rfl
    cases v with
    | str s => exact predicts_ok rfl
    | _ => exact h
  | f64 =>
    have h := hfloats .f64 .f64 fun _ => rfl
    cases v with
    | str s => exact predicts_ok rfl
    | _ => exact h
  | bool => exact hfloats (fun w => .bool (w.map fun x => boolByte (!x.eq F64.zero))) .bool fun _ => rfl
  | str =>
    refine Quiet.wrapped (Quiet.mapM fun i _ => ?_) fun _ => rfl
    exact (quiet_value hex v i).bind fun _ => quiet_ok _
  | vector dim => exact predicts_refused _

end Parts

section Calls

variable {excused : Fault → Prop} {rt : Runtime} {args : List Arr}

theorem index_predicted (hex : Excuses excused) (args : List Arr) (i : Nat) :
    Predicts excused dataType (args.map dataType)[i]? (index args i) := by
  unfold index
  rw [List.getElem?_map]
  cases args[i]? with
  | some a => exact predicts_ok rfl
  | none => exact predicts_excused (hex _) _

/-- An argument that may be left out. -/
theorem optional_predicted (args : List Arr) (i : Nat) :
    Predicts excused (fun _ => ()) (required ((args.map dataType)[i]?.all DataType.isNumeric))
      (args[i]?.mapM toF64) := by
  rw [List.getElem?_map]
  cases args[i]? with
  | none => exact predicts_ok rfl
  | some a => exact (toF64_predicted a).recast fun _ => rfl

theorem roundDigits_predicted (args : List Arr) (i : Nat) :
    Predicts excused (fun _ => ()) (required ((args.map dataType)[i]?.all DataType.isNumeric))
      (roundDigits args[i]?) := by
  rw [List.getElem?_map]
  cases args[i]? with
  | none => exact predicts_ok rfl
  | some a => exact (toF64_predicted a).recast fun _ => rfl

theorem quiet_checkedI64 (hex : Excuses excused) (n : Int) : Quiet excused (checkedI64 n) := by
  unfold checkedI64
  by_cases h : -2 ^ 63 ≤ n ∧ n < 2 ^ 63
  · rw [if_pos h]
    exact quiet_ok _
  · rw [if_neg h]
    exact quiet_excused (hex _)

theorem quiet_substringOf (hex : Excuses excused) (src : String) (start : F64)
    (count : Option F64) : Quiet excused (substringOf rt src start count) := by
  refine (quiet_checkedI64 hex _).bind fun from1 => ?_
  cases count with
  | none => exact quiet_ok _
  | some c => exact quiet_ok _

theorem quiet_dateStep {unit : String}
    (hunit : excused (.bail s!"date_trunc: единица '{unit}' не поддерживается")) :
    Quiet excused (dateStep unit) := by
  unfold dateStep
  split_ifs
  · exact quiet_ok _
  · exact quiet_ok _
  · exact quiet_ok _
  · exact quiet_ok _
  · exact quiet_excused hunit

theorem quiet_count (hex : Excuses excused) (count : Option (List F64)) (i : Nat) :
    Quiet excused (count.mapM (fun c => pick c i)) := by
  cases count with
  | none => exact quiet_ok _
  | some c => exact (quiet_pick hex c i).bind fun _ => quiet_ok _

theorem quiet_ifPick {α : Type} (hex : Excuses excused) (n : Nat) (cond : List UInt8)
    (x y : List α) : Quiet excused (ifPick n cond x y) := by
  refine Quiet.mapM fun i _ => (quiet_pick hex cond i).bind fun c => ?_
  split_ifs
  · exact quiet_pick hex x i
  · exact quiet_pick hex y i

theorem branches_predicted (hex : Excuses excused) (n : Nat) (cond : List UInt8) (a b : Arr) :
    Predicts excused dataType (branchesType a.dataType b.dataType) (ifBranches n cond a b) := by
  have hfloats : Predicts excused dataType
      (do required a.dataType.isNumeric; required b.dataType.isNumeric; return .f64)
      (do return .f64 (← ifPick n cond (← a.toF64) (← b.toF64))) :=
    (toF64_predicted a).bind fun x _ => (toF64_predicted b).bind fun y _ =>
      Quiet.wrapped (quiet_ifPick hex n cond x y) fun _ => rfl
  cases a with
  | str x =>
    cases b with
    | str y => exact Quiet.wrapped (quiet_ifPick hex n cond x y) fun _ => rfl
    | _ => exact hfloats
  | _ =>
    cases b with
    | _ => exact hfloats

/-- A function of one number. -/
theorem number_predicted (hex : Excuses excused) {mk : List F64 → Arr} {ty : DataType}
    (hmk : ∀ w, (mk w).dataType = ty) :
    Predicts excused dataType (do required (← (args.map dataType)[0]?).isNumeric; return ty)
      (do return mk (← (← index args 0).toF64)) :=
  (index_predicted hex args 0).bind fun v _ => (toF64_predicted v).bind fun w _ =>
    predicts_ok (congrArg some (hmk w).symm)

theorem extractCall_predicted (hex : Excuses excused) (func : ScalarFunc) :
    Predicts excused dataType (do required (← (args.map dataType)[0]?).isNumeric; return .i64)
      (extractCall func args) :=
  number_predicted hex fun _ => rfl

/-- The unit that a call of `date_trunc` reads: its first argument, in the first row. -/
def UnitOf (args : List Arr) (unit : String) : Prop :=
  ∃ units, args[0]? = some (.str units) ∧ units[0]? = some unit

theorem scalarFunc_predicted (hex : Excuses excused) (func : ScalarFunc) (args : List Arr)
    (hunits : func = .dateTrunc → ∀ u, UnitOf args u → Quiet excused (dateStep (rt.toLowercase u))) :
    Predicts excused dataType (func.typeOf (args.map dataType)) (scalarFunc rt func args) := by
  cases func with
  | length =>
    refine (index_predicted hex args 0).bind fun v _ => ?_
    cases v with
    | str s => exact predicts_ok rfl
    | _ => exact predicts_refused _
  | lower =>
    refine (index_predicted hex args 0).bind fun v _ => ?_
    cases v with
    | str s => exact predicts_ok rfl
    | _ => exact predicts_refused _
  | upper =>
    refine (index_predicted hex args 0).bind fun v _ => ?_
    cases v with
    | str s => exact predicts_ok rfl
    | _ => exact predicts_refused _
  | abs =>
    refine (index_predicted hex args 0).bind fun v _ => ?_
    have h : Predicts excused dataType (do required v.dataType.isNumeric; return .f64)
        (do return .f64 ((← v.toF64).map F64.abs)) :=
      (toF64_predicted v).bind fun w _ => predicts_ok rfl
    cases v with
    | i64 w => exact predicts_ok rfl
    | _ => exact h
  | floor => exact number_predicted hex fun _ => rfl
  | ceil => exact number_predicted hex fun _ => rfl
  | sqrt => exact number_predicted hex fun _ => rfl
  | round =>
    refine (index_predicted hex args 0).bind fun v _ => (toF64_predicted v).bind fun w _ => ?_
    exact (roundDigits_predicted args 1).bind fun k _ => predicts_ok rfl
  | substring =>
    refine (index_predicted hex args 0).bind fun v _ => ?_
    cases v with
    | str s =>
      refine (index_predicted hex args 1).bind fun b _ => (toF64_predicted b).bind fun start _ => ?_
      refine (optional_predicted args 2).bind fun count _ => ?_
      refine Quiet.wrapped (Quiet.mapM fun i _ => ?_) fun _ => rfl
      refine (quiet_pick hex s i).bind fun x => (quiet_pick hex start i).bind fun y => ?_
      exact (quiet_count hex count i).bind fun c => quiet_substringOf hex x y c
    | _ => exact predicts_refused _
  | dateTrunc =>
    refine (index_predicted hex args 0).bind fun v hv => ?_
    cases v with
    | str units =>
      refine (index_predicted hex args 1).bind fun b _ => (toF64_predicted b).bind fun secs _ => ?_
      refine Predicts.quiet_bind (quiet_index hex units 0) fun u hu => ?_
      have hstep := hunits rfl u ⟨units, index_eq_ok.mp hv, index_eq_ok.mp hu⟩
      refine Predicts.quiet_bind hstep fun step _ => ?_
      exact Quiet.wrapped (Quiet.mapM fun x _ => quiet_checkedI64 hex _) fun _ => rfl
    | _ => exact predicts_refused _
  | coalesce => exact index_predicted hex args 0
  | ifThen =>
    refine (index_predicted hex args 0).bind fun c _ => (asBool_predicted c).bind fun cond _ => ?_
    refine (index_predicted hex args 1).bind fun a _ => (index_predicted hex args 2).bind fun b _ => ?_
    exact branches_predicted hex _ cond a b
  | _ => exact extractCall_predicted hex _

end Calls

theorem BinOp.typeOf_cmp {op : BinOp} (hop : op.isCmp = true) {l r ty : DataType}
    (h : op.typeOf l r = some ty) : ty = .bool := by
  have hlogic : ¬ (op = .and ∨ op = .or) := by
    rintro (rfl | rfl) <;> cases hop
  have hfloats : ∀ l r, floatsType op l r = some ty → ty = .bool := by
    intro l r h
    obtain ⟨-, -, h⟩ := Option.bind_eq_some_iff.mp h
    obtain ⟨-, -, h⟩ := Option.bind_eq_some_iff.mp h
    rw [if_pos hop] at h
    exact (Option.some.inj h).symm
  unfold BinOp.typeOf at h
  rw [if_neg hlogic] at h
  split at h
  · rw [if_pos hop] at h
    exact (Option.some.inj h).symm
  · cases h
  · cases h
  · rw [if_pos hop] at h
    exact (Option.some.inj h).symm
  · exact hfloats _ _ h

section Evaluation

variable {excused : Fault → Prop} {rt : Runtime} {errs : LengthErrors}

theorem quiet_row (hex : Excuses excused) (s : Sel) (i : Nat) : Quiet excused (s.row i) := by
  cases s with
  | all n => exact quiet_ok _
  | ids v => exact quiet_index hex v i

theorem quiet_get (hex : Excuses excused) (t : StrColumn) (r : Nat) : Quiet excused (t.get r) := by
  intro e he
  cases e with
  | crash place => exact hex place
  | bail m => exact absurd he (get_not_bail t r m)

/-- Reading the rows of a vector column. -/
theorem quiet_vectors {α : Type} (hex : Excuses excused) (dim : UInt64) (data : List F32) (s : Sel)
    (g : List F32 → α) : Quiet excused ((List.range s.len).mapM (fun i => do
      match ← (Column.vector dim data).vectorAt (← s.row i) with
      | some v => return g v
      | none => crash "Option::unwrap")) := by
  refine Quiet.mapM fun i _ => (quiet_row hex s i).bind fun r => Quiet.bind ?_ fun o => ?_
  · simp only [Column.vectorAt]
    split_ifs
    · exact quiet_ok _
    · exact quiet_excused (hex _)
  · cases o with
    | some v => exact quiet_ok _
    | none => exact quiet_excused (hex _)

theorem gatherDense_predicted {α : Type} (hex : Excuses excused) (mk : List α → Arr)
    {ty : DataType} (hmk : ∀ v, (mk v).dataType = ty) (v : List α) (s : Sel) :
    Predicts excused dataType (some ty) (gatherDense mk v s) := by
  cases s with
  | all n => exact predicts_ok (congrArg some (hmk v).symm)
  | ids ids => exact Quiet.wrapped (Quiet.mapM fun i _ => quiet_index hex v i) hmk

theorem gather_predicted (hex : Excuses excused) (c : Column) (sel : Sel) :
    Predicts excused dataType (some c.dataType) (gather c sel) := by
  cases c with
  | i64 v => exact gatherDense_predicted hex .i64 (fun _ => rfl) v sel
  | f64 v => exact gatherDense_predicted hex .f64 (fun _ => rfl) v sel
  | bool v => exact gatherDense_predicted hex .bool (fun _ => rfl) v sel
  | str s =>
    refine Quiet.wrapped (Quiet.mapM fun i _ => ?_) fun _ => rfl
    exact (quiet_row hex sel i).bind fun r => quiet_get hex s r
  | vector dim data =>
    exact Quiet.wrapped (quiet_vectors hex dim data sel id) fun _ => rfl

theorem distances_predicted (hex : Excuses excused) (c : Column) (sel : Sel) (metric : Metric)
    (query : List F32) :
    Predicts excused dataType (distanceType query c.dataType)
      (Arr.f64 <$> distances rt c sel metric query) := by
  cases c with
  | vector dim data =>
    change Predicts excused dataType (if dim.toNat = query.length then some .f64 else none)
      (Arr.f64 <$> if dim.toNat ≠ query.length then _ else _)
    by_cases hdim : dim.toNat = query.length
    · rw [if_pos hdim, if_neg (not_not.mpr hdim), map_eq_pure_bind]
      exact Quiet.wrapped (quiet_vectors hex dim data sel _) fun _ => rfl
    · rw [if_neg hdim, if_pos hdim]
      exact predicts_refused _
  | _ => exact predicts_refused _

namespace LengthErrors

structure Excused (errs : LengthErrors) (excused : Fault → Prop) : Prop where
  pair : ∀ l r, Quiet excused (errs.pair l r)
  node : ∀ n a, Predicts excused dataType (some a.dataType) (errs.node n a)

theorem checkLen_predicted (herrs : errs.Excused excused) (n : Nat) (a : Arr) :
    Predicts excused dataType (some a.dataType) (errs.checkLen n a) := by
  unfold LengthErrors.checkLen
  split_ifs
  · exact predicts_ok rfl
  · exact herrs.node n a

theorem evalBinary_predicted (hex : Excuses excused) (herrs : errs.Excused excused) (op : BinOp)
    (l r : Arr) :
    Predicts excused dataType (op.typeOf l.dataType r.dataType) (errs.evalBinary rt op l r) := by
  have hpair : Quiet excused (errs.pairLen l.len r.len) := by
    unfold LengthErrors.pairLen
    split_ifs
    · exact quiet_ok _
    · exact quiet_ok _
    · exact quiet_ok _
    · exact herrs.pair _ _
  exact Predicts.quiet_bind hpair fun n _ => binaryAt_predicted hex n l r

theorem inListStep_predicted (hex : Excuses excused) (herrs : errs.Excused excused) (n : Nat)
    (v : Arr) (mask : List UInt8) (lit : Value) :
    Predicts excused (fun _ => ())
      (required (lit.litType.bind (BinOp.eq.typeOf v.dataType)).isSome)
      (errs.inListStep rt n v mask lit) := by
  have ht : required (lit.litType.bind (BinOp.eq.typeOf v.dataType)).isSome =
      (lit.litType.bind fun ty => (BinOp.eq.typeOf v.dataType ty).bind fun b =>
        required (b = .bool)) := by
    cases lit.litType with
    | none => rfl
    | some ty =>
      cases h : BinOp.eq.typeOf v.dataType ty with
      | none => simp only [Option.bind_some, h]; rfl
      | some b =>
        obtain rfl := BinOp.typeOf_cmp rfl h
        simp only [Option.bind_some, h]
        rfl
  rw [ht]
  refine (evalLit_predicted lit).bind fun c _ => ?_
  refine Predicts.bind (k := fun ty => (BinOp.eq.typeOf v.dataType ty).bind fun b =>
    required (b = .bool)) (checkLen_predicted herrs n c) fun c' _ => ?_
  refine (evalBinary_predicted hex herrs .eq v c').bind fun cmp _ => ?_
  exact (asBool_predicted cmp).recast fun _ => rfl

theorem evalInList_predicted (hex : Excuses excused) (herrs : errs.Excused excused) (n : Nat)
    (v : Arr) (list : List Value) (negated : Bool) :
    Predicts excused dataType (inListType v.dataType list)
      (errs.evalInList rt n v list negated) := by
  have hfold := Predicts.foldlM (f := errs.inListStep rt n v) (l := list)
    (fun mask lit _ => inListStep_predicted hex herrs n v mask lit) (List.replicate v.len 0)
  exact hfold.bind fun mask _ => predicts_ok rfl

theorem evalBetween_predicted (hex : Excuses excused) (herrs : errs.Excused excused) (v low : Arr)
    {high : Exec Arr} {ty : Option DataType} (hhigh : Predicts excused dataType ty high)
    (negated : Bool) :
    Predicts excused dataType (betweenType v.dataType low.dataType ty)
      (errs.evalBetween rt v low high negated) := by
  refine (evalBinary_predicted hex herrs .gtEq v low).bind fun lo _ => ?_
  refine hhigh.bind fun up _ => ?_
  refine (evalBinary_predicted hex herrs .ltEq v up).bind fun hi _ => ?_
  refine (evalBinary_predicted hex herrs .and lo hi).recast fun m => ?_
  cases m <;> rfl

/-- Every node has the type its operands give it; the units that `date_trunc` is given are left to
the caller. -/
theorem eval_predicted (hex : Excuses excused) (herrs : errs.Excused excused) {f : Frame}
    {sel : Sel} {e : Expr}
    (hunits : ∀ args A u, .func .dateTrunc args ∈ e.subexprs → errs.evalArgs rt f sel args = .ok A →
      UnitOf A u → Quiet excused (dateStep (rt.toLowercase u))) :
    Predicts excused dataType (e.typeOf (f.cols.map Column.dataType)) (errs.eval rt f sel e) := by
  have hnode : ∀ {e : Expr} {x : Exec Arr}, errs.eval rt f sel e = x >>= errs.checkLen sel.len →
      Predicts excused dataType (e.typeOf (f.cols.map Column.dataType)) x →
      Predicts excused dataType (e.typeOf (f.cols.map Column.dataType)) (errs.eval rt f sel e) := by
    intro e x heq hx
    have hchecked := hx.bind (k := some) fun a _ => checkLen_predicted herrs sel.len a
    rwa [Option.bind_fun_some, ← heq] at hchecked
  induction e using Expr.induct_children with
  | step e ih =>
    have ih : ∀ c ∈ e.children,
        Predicts excused dataType (c.typeOf (f.cols.map Column.dataType)) (errs.eval rt f sel c) :=
      fun c hc => ih c hc fun args A u hmem => hunits args A u (Expr.mem_subexprs_child hc hmem)
    cases e with
    | col i =>
      refine hnode rfl ?_
      rw [Expr.typeOf, List.getElem?_map]
      cases f.cols[i]? with
      | none => exact predicts_refused _
      | some c => exact gather_predicted hex c sel
    | lit v => exact hnode rfl (evalLit_predicted v)
    | binary op l r =>
      have hl := ih l (by simp [Expr.children])
      have hr := ih r (by simp [Expr.children])
      exact hnode rfl (hl.bind fun a _ => hr.bind fun b _ =>
        evalBinary_predicted hex herrs op a b)
    | unary op d =>
      have hd := ih d (by simp [Expr.children])
      exact hnode rfl (hd.bind fun a _ => evalUnary_predicted op a)
    | like d pattern negated ci =>
      have hd := ih d (by simp [Expr.children])
      exact hnode rfl (hd.bind fun a _ => evalLike_predicted a pattern negated ci)
    | inList d list negated =>
      have hd := ih d (by simp [Expr.children])
      exact hnode rfl (hd.bind fun a _ => evalInList_predicted hex herrs sel.len a list negated)
    | between d low high negated =>
      have hd := ih d (by simp [Expr.children])
      have hlow := ih low (by simp [Expr.children])
      have hhigh := ih high (by simp [Expr.children])
      exact hnode rfl (hd.bind fun a _ => hlow.bind fun b _ =>
        evalBetween_predicted hex herrs a b hhigh negated)
    | cast d ty =>
      have hd := ih d (by simp [Expr.children])
      exact hnode rfl (hd.bind fun a _ => cast_predicted hex a ty)
    | func func args =>
      have hargs : Predicts excused (List.map dataType)
          (Expr.typesOf (f.cols.map Column.dataType) args) (errs.evalArgs rt f sel args) := by
        rw [Expr.typesOf_eq_mapM, evalArgs_eq_mapM]
        exact Predicts.mapM ih
      refine hnode rfl (hargs.bind fun A hA => scalarFunc_predicted hex func A ?_)
      rintro rfl u hu
      exact hunits args A u (Expr.mem_subexprs_self _) hA hu
    | distance metric c query =>
      refine hnode rfl ?_
      rw [Expr.typeOf, List.getElem?_map]
      cases f.cols[c]? with
      | none => exact predicts_refused _
      | some col => exact distances_predicted hex col sel metric query
    | agg func arg distinct => exact predicts_refused _

end LengthErrors

/-- What no type foresees: panics, and the unit of `date_trunc`, which is a text of the data. -/
def Fault.Unforeseen : Fault → Prop
  | .crash _ => True
  | .bail m => ∃ unit : String, m = s!"date_trunc: единица '{unit}' не поддерживается"

theorem excuses_unforeseen : Excuses Fault.Unforeseen := fun _ => trivial

/-- The two errors about lengths, as panics. -/
def LengthErrors.crashing : LengthErrors where
  pair _ _ := Veldb.crash "lengths"
  node _ _ := Veldb.crash "lengths"

theorem LengthErrors.crashing_excused (hex : Excuses excused) : crashing.Excused excused where
  pair _ _ := quiet_excused (hex _)
  node _ _ := predicts_excused (hex _) _

theorem LengthErrors.source_excused : source.Excused fun _ => True where
  pair _ _ := quiet_excused trivial
  node _ _ := predicts_excused trivial _

variable {f : Frame} {sel : Sel} {N : Nat}

theorem eval_dataType {e : Expr} {a : Arr} (h : eval rt f sel e = .ok a) :
    e.typeOf (f.cols.map Column.dataType) = some a.dataType := by
  have hall : Predicts (fun _ => True) dataType (e.typeOf (f.cols.map Column.dataType))
      (eval rt f sel e) :=
    LengthErrors.eval_predicted (fun _ => trivial) LengthErrors.source_excused
      fun _ _ _ _ _ _ _ _ => trivial
  exact hall.value a h

/-- Over aligned columns an expression fails as its types say, in a panic, or on a unit that one of
its calls is given. -/
theorem eval_within {excused : Fault → Prop} (hex : Excuses excused) (hcols : ∀ c ∈ f.cols, c.len = N)
    (hsel : sel.Within N) {e : Expr}
    (hunits : ∀ args A u, .func .dateTrunc args ∈ e.subexprs → evalArgs rt f sel args = .ok A →
      UnitOf A u → Quiet excused (dateStep (rt.toLowercase u))) :
    Predicts excused dataType (e.typeOf (f.cols.map Column.dataType)) (eval rt f sel e) := by
  have heq : ∀ e, LengthErrors.crashing.eval rt f sel e = eval rt f sel e := fun e =>
    LengthErrors.eval_eq hcols hsel e
  rw [← heq]
  refine LengthErrors.eval_predicted hex (LengthErrors.crashing_excused hex)
    fun args A u hmem hA => hunits args A u hmem ?_
  rw [← hA, evalArgs_eq_mapM, LengthErrors.evalArgs_eq_mapM]
  exact mapM_congr fun a _ => (heq a).symm

theorem eval_foreseen (hcols : ∀ c ∈ f.cols, c.len = N) (hsel : sel.Within N) (e : Expr) :
    Predicts Fault.Unforeseen dataType (e.typeOf (f.cols.map Column.dataType))
      (eval rt f sel e) :=
  eval_within excuses_unforeseen hcols hsel fun _ _ _ _ _ _ => quiet_dateStep ⟨_, rfl⟩

/-- The type of an expression does not look at the rows: a value has it, and an expression that has
one is stopped by the rows alone. -/
theorem eval_typed (hcols : ∀ c ∈ f.cols, c.len = N) (hsel : sel.Within N) (e : Expr) :
    (∀ a, eval rt f sel e = .ok a →
      e.typeOf (f.cols.map Column.dataType) = some a.dataType) ∧
    ∀ m, eval rt f sel e = bail m → e.typeOf (f.cols.map Column.dataType) = none ∨
      ∃ unit : String, m = s!"date_trunc: единица '{unit}' не поддерживается" :=
  ⟨fun _ h => eval_dataType h, fun _ h => (eval_foreseen hcols hsel e).error _ h⟩

/-- Two rows of a text and an integer. -/
def namedNumbers : Frame :=
  ⟨[.str ((StrColumn.new.push "ab").push "c"), .i64 [5, 7]]⟩

/-- `length(a) + b`. -/
def lengthPlus : Expr :=
  .binary .add (.func .length [.col 0]) (.col 1)

theorem eval_typed_length :
    lengthPlus.typeOf [.str, .i64] = some .i64 ∧
    eval plainRuntime namedNumbers (.all 2) lengthPlus = .ok (.i64 [7, 8]) ∧
    (∀ a, eval plainRuntime namedNumbers (.all 2) lengthPlus = .ok a →
      lengthPlus.typeOf (namedNumbers.cols.map Column.dataType) = some a.dataType) ∧
    ∀ m, eval plainRuntime namedNumbers (.all 2) lengthPlus = bail m →
      lengthPlus.typeOf (namedNumbers.cols.map Column.dataType) = none ∨
      ∃ unit : String, m = s!"date_trunc: единица '{unit}' не поддерживается" := by
  have hcols : ∀ c ∈ namedNumbers.cols, c.len = 2 := by decide +kernel
  exact ⟨rfl, by decide +kernel, eval_typed hcols (show (Sel.all 2).Within 2 from rfl) _⟩

end Evaluation

end Veldb
