import Mathlib
import Veldb.DroppedClauses
import Veldb.PlannedQueries

/-! What a reference of `GROUP BY` or `ORDER BY` stands for: an ordinal and an alias name a
column of the answer, and any other expression stands for itself where the first item written
like it has its own place in the answer or one where the same stands. -/

namespace Veldb

open Attempts

namespace Sa

def Ident.folded (id : Ident) : Ident where
  value := toAsciiLowercase id.value

def NamePart.folded : NamePart → NamePart
  | .identifier id => .identifier id.folded
  | .function text => .function text

def DataType.folded : DataType → DataType
  | .custom name args => .custom (name.map NamePart.folded) args
  | ty => ty

def folding : Rewrite :=
  { barely with
    ident := Ident.folded
    name := fun name => name.last.map NamePart.folded
    type := fun ty => ty.bare.folded }

/-- The expression up to the letter case and the quotes of its names, without what planning
passes over. -/
def Expr.folded (e : Expr) : Expr :=
  e.rewrite folding

/-- The column an expression names. A CASE without branches is its ELSE. -/
def Expr.column (schema : Schema) (e : Expr) : Option Nat :=
  match e with
  | .identifier id => schema.indexOf id.value
  | .compoundIdentifier parts => parts.getLast?.bind (fun id => schema.indexOf id.value)
  | .nested e => e.column schema
  | .unaryOp .plus e => e.column schema
  | .case _ [] (some e) => e.column schema
  | _ => none

end Sa

/-- What stands at a place of the answer: an item or a column that `*` has put there. -/
inductive Source where
  | item (x : Sa.Expr)
  | column (i : Nat)

def itemSources (schema : Schema) : Sa.SelectItem → List Source
  | .wildcard _ => schema.fields.zipIdx.map (fun f => .column f.2)
  | .unnamedExpr x => [.item x]
  | .exprWithAlias x _ => [.item x]
  | .other _ => []

def sources (schema : Schema) (raw : List Sa.SelectItem) : List Source :=
  (raw.map (itemSources schema)).flatten

namespace Source

def bound (tx : Texts) (schema : Schema) : Source → Exec Expr
  | .item x => bindExpr tx schema x
  | .column i => .ok (.col i)

/-- The item is the expression but for the case of names, or the expression names the column. -/
def Shows (schema : Schema) (e : Sa.Expr) : Source → Prop
  | .item x => x.folded = e.folded
  | .column i => e.column schema = some i

/-- The item means what the expression means, or the expression names the column. -/
def Means (tx : Texts) (schema : Schema) (e : Sa.Expr) : Source → Prop
  | .item x => bindExpr tx schema x = bindExpr tx schema e
  | .column i => e.column schema = some i

end Source

section Folding

variable {tx : Texts} {schema : Schema}

theorem lower_toList (s : String) :
    (toAsciiLowercase s).toList.map Char.toLower = s.toList.map Char.toLower := by
  simp [toAsciiLowercase]

theorem toAsciiLowercase_idem (s : String) :
    toAsciiLowercase (toAsciiLowercase s) = toAsciiLowercase s :=
  congrArg String.ofList (lower_toList s)

theorem eqIgnoreAsciiCase_lower (a b : String) :
    eqIgnoreAsciiCase a (toAsciiLowercase b) = eqIgnoreAsciiCase a b := by
  rw [eqIgnoreAsciiCase, eqIgnoreAsciiCase, lower_toList]

theorem lower_eqIgnoreAsciiCase (a b : String) :
    eqIgnoreAsciiCase (toAsciiLowercase a) b = eqIgnoreAsciiCase a b := by
  rw [eqIgnoreAsciiCase, eqIgnoreAsciiCase, lower_toList]

theorem indexOf_folded (id : Sa.Ident) : schema.indexOf id.folded.value = schema.indexOf id.value := by
  unfold Schema.indexOf
  simp only [Sa.Ident.folded, eqIgnoreAsciiCase_lower]

theorem identOf_folded (name : Sa.ObjectName) :
    Agree (toAsciiLowercase <$> identOf tx name) (identOf tx (name.map Sa.NamePart.folded)) := by
  unfold identOf
  rw [List.getLast?_map]
  cases name.getLast? with
  | none => exact agree_error _ _
  | some part =>
    cases part with
    | identifier id => exact Agree.refl _
    | function text => exact agree_error _ _

theorem mapType_folded (ty : Sa.DataType) : Agree (mapType tx ty) (mapType tx ty.folded) := by
  cases ty with
  | custom name args =>
    have hname := @identOf_folded tx name
    simp only [mapType, Sa.DataType.folded]
    cases hn : identOf tx name with
    | error e =>
      rw [hn] at hname
      cases hn' : identOf tx (name.map Sa.NamePart.folded) with
      | error e' => exact agree_error _ _
      | ok n =>
        rw [hn'] at hname
        cases (hname n).mpr rfl
    | ok n =>
      rw [hn] at hname
      rw [(hname _).mp rfl, ok_bind, ok_bind, lower_eqIgnoreAsciiCase]
      exact agree_guard (Agree.refl _)
  | _ => exact Agree.refl _

theorem folding_unseen : Sa.folding.Unseen tx schema where
  ident id := by
    unfold bindColumn
    rw [show (Sa.folding.ident id).value = id.folded.value from rfl, indexOf_folded]
    cases schema.indexOf id.value with
    | none => exact agree_error _ _
    | some i => exact Agree.refl _
  type ty := (mapType_bare tx ty).trans (mapType_folded ty.bare)
  name name := by
    have hlast := ((identOf_last tx name).map toAsciiLowercase).trans (identOf_folded name.last)
    refine Agree.trans ?_ (hlast.map toAsciiLowercase)
    cases identOf tx name with
    | error e => exact agree_error _ _
    | ok n => exact Agree.of_eq (congrArg Except.ok (toAsciiLowercase_idem n).symm)
  args := bindFunction_used

theorem bind_folded (e : Sa.Expr) : Agree (bindExpr tx schema e) (bindExpr tx schema e.folded) :=
  bind_rewrite folding_unseen e

/-- Expressions that differ in the case of names only are bound alike. -/
theorem bind_eq_of_folded {x e : Sa.Expr} {y : Expr} (h : x.folded = e.folded)
    (hx : bindExpr tx schema x = .ok y) : bindExpr tx schema e = .ok y := by
  rw [bind_folded e y, ← h]
  exact (bind_folded x y).mp hx

theorem bindColumn_eq_col {name : String} {i : Nat} :
    bindColumn schema name = .ok (.col i) ↔ schema.indexOf name = some i := by
  unfold bindColumn
  cases schema.indexOf name with
  | none => simp [bail]
  | some j => simp

def Expr.NoColumn : Expr → Prop
  | .col _ => False
  | _ => True

theorem not_col {x : Exec Expr} (h : Gives Expr.NoColumn x) (i : Nat) : ¬ x = .ok (.col i) :=
  fun hx => h _ hx

theorem noColumn_bindMinus (e : Expr) : Gives Expr.NoColumn (bindMinus e) := by
  have hother : ∀ e, Gives Expr.NoColumn (.ok (.unary .neg e) : Exec Expr) :=
    fun _ => gives_ok trivial
  cases e with
  | lit v =>
    cases v with
    | i64 n => exact gives_bind fun _ => gives_pure trivial
    | f64 x => exact gives_ok trivial
    | _ => exact hother _
  | _ => exact hother _

theorem noColumn_bindLike {e : Exec Expr} {pattern : Sa.Expr} {negated ci : Bool} :
    Gives Expr.NoColumn (bindLike tx e pattern negated ci) := by
  refine gives_bind fun v => ?_
  cases v with
  | str pat => exact gives_bind fun _ => gives_pure trivial
  | _ => exact gives_error _

theorem noColumn_bindWhens {operand : Option (Exec Expr)} {w : Sa.CaseWhen}
    {conditions : List Sa.CaseWhen} {out : Expr} :
    Gives Expr.NoColumn (bindWhens tx schema operand (w :: conditions) out) := by
  obtain ⟨condition, result⟩ := w
  exact gives_bind fun _ => gives_bind fun _ => gives_bind fun _ => gives_pure trivial

theorem noColumn_bindAggregate {func : AggFunc} {name lname : String} {args : Arguments} :
    Gives Expr.NoColumn (bindAggregate func name lname args) := by
  unfold bindAggregate
  by_cases hcount : (args.wildcard || args.plain.isEmpty) = true
  · rw [if_pos hcount]
    exact gives_check (gives_ok trivial)
  · rw [if_neg hcount]
    rcases args.plain with - | ⟨p, - | ⟨q, rest⟩⟩
    · exact gives_error _
    · exact gives_bind fun _ => gives_pure trivial
    · exact gives_error _

theorem noColumn_bindDistance {metric : Metric} {name : String} {args : Arguments} :
    Gives Expr.NoColumn (bindDistance tx schema metric name args) := by
  unfold bindDistance
  rcases args.plain with - | ⟨p, - | ⟨q, - | ⟨r, rest⟩⟩⟩
  · exact gives_error _
  · exact gives_error _
  · refine gives_bind fun column => ?_
    cases column with
    | col c =>
      refine gives_bind fun field => ?_
      cases field.ty with
      | vector dim => exact gives_bind fun _ => gives_check (gives_pure trivial)
      | _ => exact gives_error _
    | _ => exact gives_error _
  · exact gives_error _

theorem noColumn_bindScalar {name lname : String} {args : Arguments} :
    Gives Expr.NoColumn (bindScalar name lname args) := by
  refine gives_bind fun func => gives_bind fun bound => ?_
  by_cases harity : arityOk func bound.length = true
  · rw [if_pos harity]
    exact gives_pure trivial
  · rw [if_neg harity]
    exact gives_error _

theorem noColumn_bindFunction {name : Sa.ObjectName} {hasOver : Bool} {args : Exec Arguments} :
    Gives Expr.NoColumn (bindFunction tx schema name hasOver args) := by
  refine gives_bind fun n => gives_check (gives_bind fun a => ?_)
  unfold bindCall
  cases AggFunc.fromName (toAsciiLowercase n) with
  | some func => exact noColumn_bindAggregate
  | none =>
    cases Metric.fromName (toAsciiLowercase n) with
    | some metric => exact noColumn_bindDistance
    | none => exact noColumn_bindScalar

/-- Only what names a column is bound to one. -/
theorem bindExpr_eq_col (e : Sa.Expr) {i : Nat} :
    bindExpr tx schema e = .ok (.col i) ↔ e.column schema = some i := by
  match e with
  | .identifier id => exact bindColumn_eq_col
  | .compoundIdentifier parts =>
    simp only [bindExpr, Sa.Expr.column]
    cases parts.getLast? with
    | none => exact iff_of_false nofun nofun
    | some last => exact bindColumn_eq_col
  | .nested e => exact bindExpr_eq_col e
  | .unaryOp op e =>
    cases op with
    | plus => exact bindExpr_eq_col e
    | not =>
      refine iff_of_false (not_col ?_ i) nofun
      exact gives_bind fun _ => gives_pure trivial
    | minus => exact iff_of_false (not_col (gives_bind fun _ => noColumn_bindMinus _) i) nofun
    | other text => exact iff_of_false nofun nofun
  | .case operand [] none => exact iff_of_false nofun nofun
  | .case operand [] (some e) =>
    refine Iff.trans ?_ (bindExpr_eq_col e)
    simp only [bindExpr, bindOption, Option.getD_some, bindWhens]
    cases bindExpr tx schema e <;> rfl
  | .case operand (w :: conditions) elseResult =>
    exact iff_of_false (not_col (gives_bind fun _ => noColumn_bindWhens) i) nofun
  | .value _ =>
    refine iff_of_false (not_col ?_ i) nofun
    exact gives_bind fun _ => gives_pure trivial
  | .binaryOp _ _ _ | .between _ _ _ _ =>
    refine iff_of_false (not_col ?_ i) nofun
    exact gives_bind fun _ => gives_bind fun _ => gives_bind fun _ => gives_pure trivial
  | .like _ _ _ _ | .iLike _ _ _ _ => exact iff_of_false (not_col noColumn_bindLike i) nofun
  | .inList _ _ _ | .cast _ _ _ | .extract _ _ _ =>
    refine iff_of_false (not_col ?_ i) nofun
    exact gives_bind fun _ => gives_bind fun _ => gives_pure trivial
  | .substring _ _ count _ _ =>
    refine iff_of_false (not_col (gives_bind fun _ => gives_bind fun _ => ?_) i) nofun
    cases bindOption tx schema count with
    | none => exact gives_pure trivial
    | some c => exact gives_bind fun _ => gives_pure trivial
  | .function _ _ _ _ _ => exact iff_of_false (not_col noColumn_bindFunction i) nofun
  | .isNull _ | .isNotNull _ | .array _ _ | .other _ => exact iff_of_false nofun nofun

end Folding

section References

variable (tx : Texts) (schema : Schema) (raw : List Sa.SelectItem) (bound : List Projection)

/-- The item is written like the expression, up to the case of letters. -/
def Written (item : Sa.SelectItem) (e : Sa.Expr) : Prop :=
  ∃ t, itemText tx item = some t ∧ eqIgnoreAsciiCase t (tx.display e) = true

/-- The first item written like the expression. -/
def FirstWritten (e : Sa.Expr) (i : Nat) : Prop :=
  (∃ item, raw[i]? = some item ∧ Written tx item e) ∧
    ∀ j < i, ∀ item, raw[j]? = some item → ¬ Written tx item e

/-- At the place of the first item written like the expression the answer has the expression. -/
def PairsRight (e : Sa.Expr) : Prop :=
  ∀ i s, FirstWritten tx raw e i → (sources schema raw)[i]? = some s → s.Shows schema e

def Sa.Expr.IsOrdinal (e : Sa.Expr) : Prop :=
  ∃ n long, e = .value (.number n long)

/-- An identifier that is the alias of a column of the answer and not a column of the table. -/
def AbsentAlias (e : Sa.Expr) : Prop :=
  ∃ id, e = .identifier id ∧ schema.indexOf id.value = none ∧
    ∃ p ∈ bound, eqIgnoreAsciiCase p.aliasName id.value = true

variable {tx schema raw bound} {e : Sa.Expr} {parts : List (List Projection)}

theorem refText_eq_some {x : Expr} : refText tx raw bound (tx.display e) = some x ↔
    ∃ i p, FirstWritten tx raw e i ∧ bound[i]? = some p ∧ p.expr = x := by
  have hwritten : ∀ item, (itemText tx item).any (fun t => eqIgnoreAsciiCase t (tx.display e)) ↔
      Written tx item e := by
    intro item
    cases h : itemText tx item <;> simp [Written, h]
  unfold refText
  rw [Option.map_eq_some_iff]
  constructor
  · rintro ⟨⟨item, p⟩, hfind, rfl⟩
    obtain ⟨hpred, i, hi, hget, hbefore⟩ := List.find?_eq_some_iff_getElem.mp hfind
    have hzip : (raw.zip bound)[i]? = some (item, p) := by rw [List.getElem?_eq_getElem hi, hget]
    obtain ⟨hitem, hp⟩ := List.getElem?_zip_eq_some.mp hzip
    refine ⟨i, p, ⟨⟨item, hitem, (hwritten item).mp hpred⟩, fun j hj other hother hw => ?_⟩, hp, rfl⟩
    have hj' := hbefore j hj
    obtain ⟨hlen, hraw⟩ := List.getElem?_eq_some_iff.mp hother
    simp only [List.getElem_zip, hraw, Bool.not_eq_true', Bool.eq_false_iff] at hj'
    exact hj' ((hwritten other).mpr hw)
  · rintro ⟨i, p, ⟨⟨item, hitem, hw⟩, hbefore⟩, hp, rfl⟩
    have hzip : (raw.zip bound)[i]? = some (item, p) :=
      List.getElem?_zip_eq_some.mpr ⟨hitem, hp⟩
    obtain ⟨hi, hget⟩ := List.getElem?_eq_some_iff.mp hzip
    refine ⟨(item, p), List.find?_eq_some_iff_getElem.mpr
      ⟨(hwritten item).mpr hw, i, hi, hget, fun j hj => ?_⟩, rfl⟩
    have hlen : j < raw.length := hj.trans (List.getElem?_eq_some_iff.mp hitem).1
    have hnot := hbefore j hj _ (List.getElem?_eq_getElem hlen)
    simp only [List.getElem_zip, Bool.not_eq_true', Bool.eq_false_iff]
    exact fun h => hnot ((hwritten _).mp h)

theorem bindOutputRef_some {x : Expr} (h : outputRef tx schema raw bound e = .ok (some x)) :
    bindOutputRef tx schema raw bound e = .ok x := by
  rw [bindOutputRef, h]
  rfl

theorem bindOutputRef_none (h : outputRef tx schema raw bound e = .ok none) :
    bindOutputRef tx schema raw bound e = bindExpr tx schema e := by
  rw [bindOutputRef, h]
  rfl

theorem refAlias_eq_some {id : String} {x : Expr} (h : refAlias schema bound id = some x) :
    schema.indexOf id = none ∧ ∃ p ∈ bound, eqIgnoreAsciiCase p.aliasName id = true ∧ p.expr = x := by
  unfold refAlias at h
  cases hfind : bound.find? (fun p => eqIgnoreAsciiCase p.aliasName id) with
  | none =>
    rw [hfind] at h
    cases h
  | some p =>
    rw [hfind] at h
    have hindex : schema.indexOf id = none := by
      by_contra hne
      simp [hne] at h
    simp only [hindex, if_true, Option.some.injEq] at h
    exact ⟨hindex, p, List.mem_of_find?_eq_some hfind, by simpa using List.find?_some hfind, h⟩

theorem refAlias_eq_none {id : Sa.Ident} (h : ¬ AbsentAlias schema bound (.identifier id)) :
    refAlias schema bound id.value = none := by
  cases href : refAlias schema bound id.value with
  | none => rfl
  | some x =>
    obtain ⟨hindex, p, hp, halias, -⟩ := refAlias_eq_some href
    exact absurd ⟨id, rfl, hindex, p, hp, halias⟩ h

/-- Past the ordinals and the aliases the text decides. -/
theorem outputRef_text (hord : ¬ e.IsOrdinal) (halias : ¬ AbsentAlias schema bound e) :
    outputRef tx schema raw bound e = .ok (refText tx raw bound (tx.display e)) := by
  have hid : refIdentifier schema bound e = none := by
    cases e with
    | identifier id => exact refAlias_eq_none halias
    | _ => rfl
  cases e with
  | value v =>
    cases v with
    | number n long => exact absurd ⟨n, long, rfl⟩ hord
    | _ => rfl
  | identifier id =>
    have hid : refAlias schema bound id.value = none := hid
    simp only [outputRef, refIdentifier, hid, Option.none_or]
  | _ => rfl

theorem indexOf_eq_none {name : String} (h : schema.indexOf name = none) :
    ∀ f ∈ schema.fields, eqIgnoreAsciiCase f.name name = false := by
  intro f hf
  simpa using List.findIdx?_eq_none_iff.mp h f hf

/-- The expression of a select item and the name of its column. -/
def ItemNamed (tx : Texts) (item : Sa.SelectItem) (x : Sa.Expr) (name : String) : Prop :=
  (∃ a, item = .exprWithAlias x a ∧ name = a.value) ∨ item = .unnamedExpr x ∧ name = tx.display x

theorem planItem_named {item : Sa.SelectItem} {ps : List Projection} {p : Projection}
    (h : planItem tx schema item = .ok ps) (hp : p ∈ ps)
    (habsent : ∀ f ∈ schema.fields, f.name ≠ p.aliasName) :
    ∃ x, ItemNamed tx item x p.aliasName ∧ bindExpr tx schema x = .ok p.expr := by
  cases item with
  | wildcard o =>
    obtain rfl := Except.ok.inj h
    obtain ⟨⟨f, i⟩, hf, rfl⟩ := List.mem_map.mp hp
    exact absurd rfl (habsent f (List.fst_mem_of_mem_zipIdx hf))
  | unnamedExpr x =>
    obtain ⟨y, hy, rfl⟩ := bind_pure_eq_ok.mp h
    obtain rfl := List.mem_singleton.mp hp
    exact ⟨x, Or.inr ⟨rfl, rfl⟩, hy⟩
  | exprWithAlias x a =>
    obtain ⟨y, hy, rfl⟩ := bind_pure_eq_ok.mp h
    obtain rfl := List.mem_singleton.mp hp
    exact ⟨x, Or.inl ⟨a, rfl, rfl⟩, hy⟩
  | other text => cases h

theorem bindOutputRef_ordinal {n : String} {long : Bool} {k : Nat} {p : Projection}
    (hn : parseUsize n = .ok (k + 1)) (hp : bound[k]? = some p) :
    bindOutputRef tx schema raw bound (.value (.number n long)) = .ok p.expr := by
  have hk : k < bound.length := (List.getElem?_eq_some_iff.mp hp).1
  refine bindOutputRef_some ?_
  rw [outputRef, refOrdinal, hn, withContext_ok, ok_bind, if_neg (by omega), Nat.add_sub_cancel,
    index_eq_ok.mpr hp]
  rfl

theorem bindOutputRef_alias {id : Sa.Ident} (hparts : raw.mapM (planItem tx schema) = .ok parts)
    (h : AbsentAlias schema parts.flatten (.identifier id)) :
    ∃ item ∈ raw, ∃ x name y, ItemNamed tx item x name ∧ eqIgnoreAsciiCase name id.value = true ∧
      bindExpr tx schema x = .ok y ∧
        bindOutputRef tx schema raw parts.flatten (.identifier id) = .ok y := by
  obtain ⟨id', hid, hindex, p₀, hp₀, halias₀⟩ := h
  obtain rfl := Sa.Expr.identifier.inj hid
  cases hfind : parts.flatten.find? (fun p => eqIgnoreAsciiCase p.aliasName id.value) with
  | none => exact absurd halias₀ (List.find?_eq_none.mp hfind p₀ hp₀)
  | some p =>
    have halias : eqIgnoreAsciiCase p.aliasName id.value = true := by
      simpa using List.find?_some hfind
    obtain ⟨ps, hps, hp⟩ := List.mem_flatten.mp (List.mem_of_find?_eq_some hfind)
    obtain ⟨item, hitem, hplan⟩ := exists_of_mem_mapM hparts hps
    have habsent : ∀ f ∈ schema.fields, f.name ≠ p.aliasName := by
      intro f hf heq
      have hno := indexOf_eq_none hindex f hf
      rw [heq, halias] at hno
      cases hno
    obtain ⟨x, hnamed, hx⟩ := planItem_named hplan hp habsent
    refine ⟨item, hitem, x, p.aliasName, p.expr, hnamed, halias, hx, bindOutputRef_some ?_⟩
    have href : refAlias schema parts.flatten id.value = some p.expr := by
      rw [refAlias, hfind]
      exact if_pos hindex
    simp only [outputRef, refIdentifier, href, Option.some_or]

theorem planItem_sources {item : Sa.SelectItem} {ps : List Projection}
    (h : planItem tx schema item = .ok ps) :
    List.Forall₂ (fun s p => s.bound tx schema = .ok p.expr) (itemSources schema item) ps := by
  cases item with
  | wildcard options =>
    obtain rfl := Except.ok.inj h
    exact List.forall₂_map_left_iff.mpr (List.forall₂_map_right_iff.mpr
      (List.forall₂_same.mpr fun _ _ => rfl))
  | unnamedExpr x =>
    obtain ⟨y, hy, rfl⟩ := bind_pure_eq_ok.mp h
    exact List.Forall₂.cons hy List.Forall₂.nil
  | exprWithAlias x a =>
    obtain ⟨y, hy, rfl⟩ := bind_pure_eq_ok.mp h
    exact List.Forall₂.cons hy List.Forall₂.nil
  | other text => cases h

/-- The answer has at every place what stands there. -/
theorem sources_bound (hparts : raw.mapM (planItem tx schema) = .ok parts) :
    List.Forall₂ (fun s p => s.bound tx schema = .ok p.expr) (sources schema raw) parts.flatten := by
  refine List.rel_flatten (List.forall₂_map_left_iff.mpr ?_)
  exact (mapM_eq_ok.mp hparts).imp fun item ps h => planItem_sources h

theorem source_place (hparts : raw.mapM (planItem tx schema) = .ok parts) {i : Nat} {s : Source}
    (hs : (sources schema raw)[i]? = some s) :
    ∃ p, parts.flatten[i]? = some p ∧ s.bound tx schema = .ok p.expr := by
  have hrel := sources_bound hparts
  obtain ⟨hi, rfl⟩ := List.getElem?_eq_some_iff.mp hs
  have hi' : i < parts.flatten.length := hrel.length_eq ▸ hi
  exact ⟨_, List.getElem?_eq_getElem hi', hrel.get hi hi'⟩

/-- The reference stands for what the answer has at the place of the first item written like it. -/
theorem bindOutputRef_source (hparts : raw.mapM (planItem tx schema) = .ok parts)
    (hord : ¬ e.IsOrdinal) (halias : ¬ AbsentAlias schema parts.flatten e) {i : Nat} {s : Source}
    (hfirst : FirstWritten tx raw e i) (hs : (sources schema raw)[i]? = some s) :
    bindOutputRef tx schema raw parts.flatten e = s.bound tx schema := by
  obtain ⟨p, hp, hbound⟩ := source_place hparts hs
  have htext := @outputRef_text tx _ raw _ _ hord halias
  rw [refText_eq_some.mpr ⟨i, p, hfirst, hp, rfl⟩] at htext
  rw [bindOutputRef_some htext, hbound]

/-- Where no item is written like it, or the answer ends before that item, it stands for itself. -/
theorem bindOutputRef_self (hparts : raw.mapM (planItem tx schema) = .ok parts)
    (hord : ¬ e.IsOrdinal) (halias : ¬ AbsentAlias schema parts.flatten e)
    (hnone : ∀ i s, FirstWritten tx raw e i → (sources schema raw)[i]? ≠ some s) :
    bindOutputRef tx schema raw parts.flatten e = bindExpr tx schema e := by
  have htext := @outputRef_text tx _ raw _ _ hord halias
  cases href : refText tx raw parts.flatten (tx.display e) with
  | none =>
    rw [href] at htext
    exact bindOutputRef_none htext
  | some x =>
    obtain ⟨i, p, hfirst, hp, -⟩ := refText_eq_some.mp href
    have hi : i < (sources schema raw).length := by
      rw [(sources_bound hparts).length_eq]
      exact (List.getElem?_eq_some_iff.mp hp).1
    exact absurd (List.getElem?_eq_getElem hi) (hnone i _ hfirst)

theorem Source.bound_eq_iff {s : Source} :
    s.bound tx schema = bindExpr tx schema e ↔ s.Means tx schema e := by
  cases s with
  | item x => exact Iff.rfl
  | column i => exact eq_comm.trans (bindExpr_eq_col e)

/-- What shows the expression means it. -/
theorem Source.Shows.means {s : Source} {y : Expr} (h : s.Shows schema e)
    (hs : s.bound tx schema = .ok y) : s.Means tx schema e := by
  cases s with
  | item x => exact hs.trans (bind_eq_of_folded h hs).symm
  | column i => exact h

/-- Ordinals and aliases always stand for the column they name. Any other reference stands for
itself where the first item written like it has a place at which the answer has the same, and
it does not where the answer has something else there. -/
theorem bindOutputRef_resolves (hparts : raw.mapM (planItem tx schema) = .ok parts) :
    (∀ n long k p, parseUsize n = .ok (k + 1) → parts.flatten[k]? = some p →
      bindOutputRef tx schema raw parts.flatten (.value (.number n long)) = .ok p.expr) ∧
    (∀ id, AbsentAlias schema parts.flatten (.identifier id) →
      ∃ item ∈ raw, ∃ x name y, ItemNamed tx item x name ∧ eqIgnoreAsciiCase name id.value = true ∧
        bindExpr tx schema x = .ok y ∧
          bindOutputRef tx schema raw parts.flatten (.identifier id) = .ok y) ∧
    ∀ e : Sa.Expr, ¬ e.IsOrdinal → ¬ AbsentAlias schema parts.flatten e →
      (PairsRight tx schema raw e →
        bindOutputRef tx schema raw parts.flatten e = bindExpr tx schema e) ∧
      ∀ i s, FirstWritten tx raw e i → (sources schema raw)[i]? = some s →
        (bindOutputRef tx schema raw parts.flatten e = bindExpr tx schema e ↔
          s.Means tx schema e) := by
  refine ⟨fun _ _ _ _ => bindOutputRef_ordinal, fun _ => bindOutputRef_alias hparts,
    fun e hord halias => ?_⟩
  have hmeans : ∀ i s, FirstWritten tx raw e i → (sources schema raw)[i]? = some s →
      (bindOutputRef tx schema raw parts.flatten e = bindExpr tx schema e ↔
        s.Means tx schema e) := by
    intro i s hfirst hs
    rw [bindOutputRef_source hparts hord halias hfirst hs]
    exact Source.bound_eq_iff
  refine ⟨fun hpairs => ?_, hmeans⟩
  by_cases hplace : ∃ i s, FirstWritten tx raw e i ∧ (sources schema raw)[i]? = some s
  · obtain ⟨i, s, hfirst, hs⟩ := hplace
    obtain ⟨p, -, hbound⟩ := source_place hparts hs
    exact (hmeans i s hfirst hs).mpr ((hpairs i s hfirst hs).means hbound)
  · exact bindOutputRef_self hparts hord halias fun i s hfirst hs => hplace ⟨i, s, hfirst, hs⟩

end References

def abSchema : Schema :=
  ⟨[⟨"a", .i64⟩, ⟨"b", .i64⟩]⟩

/-- `SELECT *, a FROM t ORDER BY a` over `t (a INT, b INT)`, the item in quotes or without. -/
def starQuery (quoteStyle : Option Char) : Sa.Query where
  body := .select {
    projection := [.wildcard [], .unnamedExpr (.identifier ⟨"a", quoteStyle⟩)]
    from_ := [⟨.table [.identifier "t"], []⟩] }
  orderBy := some (.expressions [{ expr := .identifier "a" }])

/-- The second item is paired with the second column of `*`, so the rows are ordered by `b`. -/
theorem starQuery_orders_by_b :
    bindOutputRef plainTexts abSchema [.wildcard [], .unnamedExpr (.identifier "a")]
        [⟨.col 0, "a"⟩, ⟨.col 1, "b"⟩, ⟨.col 0, "a"⟩] (.identifier "a") = .ok (.col 1) ∧
      bindExpr plainTexts abSchema (.identifier "a") = .ok (.col 0) ∧
      (planQuery plainTexts (fun _ => some abSchema) (starQuery none)).map (·.orderBy) =
        .ok [⟨.col 1, true⟩] :=
  ⟨rfl, rfl, rfl⟩

/-- An item in quotes is not written like the name. -/
example : (planQuery plainTexts (fun _ => some abSchema) (starQuery (some (Char.ofNat 34)))).map (·.orderBy) =
    .ok [⟨.col 0, true⟩] := rfl

/-- `SELECT b, A, * FROM t ORDER BY a`: the item has its place before `*`. -/
theorem bindOutputRef_resolves_before_star :
    bindOutputRef plainTexts abSchema
      [.unnamedExpr (.identifier "b"), .unnamedExpr (.identifier "A"), .wildcard []]
      [[⟨.col 1, "b"⟩], [⟨.col 0, "A"⟩], [⟨.col 0, "a"⟩, ⟨.col 1, "b"⟩]].flatten (.identifier "a") =
        bindExpr plainTexts abSchema (.identifier "a") := by
  have hparts : [Sa.SelectItem.unnamedExpr (.identifier "b"), .unnamedExpr (.identifier "A"),
      .wildcard []].mapM (planItem plainTexts abSchema) =
        .ok [[⟨.col 1, "b"⟩], [⟨.col 0, "A"⟩], [⟨.col 0, "a"⟩, ⟨.col 1, "b"⟩]] := rfl
  obtain ⟨-, -, htext⟩ := bindOutputRef_resolves hparts
  refine (htext (.identifier "a") (by simp [Sa.Expr.IsOrdinal]) ?_).1 ?_
  · rintro ⟨id, hid, hindex, -⟩
    obtain rfl := Sa.Expr.identifier.inj hid
    exact absurd hindex (by decide)
  · rintro i s ⟨⟨item, hitem, t, ht, heq⟩, hbefore⟩ hs
    match i with
    | 0 =>
      obtain rfl := Option.some.inj hitem
      obtain rfl := Option.some.inj ht
      exact absurd heq (by decide)
    | 1 =>
      obtain rfl := Option.some.inj hs
      rfl
    | i + 2 =>
      have hA : Written plainTexts (.unnamedExpr (.identifier "A")) (.identifier "a") :=
        ⟨_, rfl, by decide⟩
      exact absurd hA (hbefore 1 (by omega) _ rfl)

end Veldb
