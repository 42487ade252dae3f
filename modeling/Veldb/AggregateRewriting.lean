import Veldb.GroupValues
import Veldb.GroupingCheck

/-! Expressions rewritten onto the frame of keys and aggregates against their meaning in
each group: aggregates of the group's rows and the group's keys, put together structurally. -/

namespace Veldb

open Attempts

/-- The computation of a node from what its children give. -/
def nodeOf (rt : Runtime) (n : Nat) (e : Expr) (rs : List (Exec Arr)) : Exec Arr :=
  match e, rs with
  | .lit v, _ => evalLit v
  | .binary op _ _, [l, r] => do evalBinary rt op (← l) (← r)
  | .unary op _, [a] => do evalUnary op (← a)
  | .like _ pattern negated ci, [a] => do evalLike rt (← a) pattern negated ci
  | .inList _ list negated, [a] => do evalInList rt n (← a) list negated
  | .between _ _ _ negated, [a, low, high] => do evalBetween rt (← a) (← low) high negated
  | .cast _ ty, [a] => do cast rt (← a) ty
  | .func func _, rs => do scalarFunc rt func (← rs.mapM id)
  | _, _ => bail "выражение ссылается на базовую таблицу"

mutual

/-- Structural evaluation of one value, with the value of some subexpressions given. -/
def evalWith (rt : Runtime) (leaf : Expr → Option (Exec Arr)) (e : Expr) : Exec Arr :=
  match leaf e with
  | some r => r
  | none =>
    nodeOf rt 1 e (match e with
      | .binary _ l r => [evalWith rt leaf l, evalWith rt leaf r]
      | .unary _ e => [evalWith rt leaf e]
      | .like e _ _ _ => [evalWith rt leaf e]
      | .inList e _ _ => [evalWith rt leaf e]
      | .between e low high _ => [evalWith rt leaf e, evalWith rt leaf low, evalWith rt leaf high]
      | .cast e _ => [evalWith rt leaf e]
      | .func _ args => evalWithArgs rt leaf args
      | .agg _ arg _ => evalWithArg rt leaf arg
      | .col _ => []
      | .lit _ => []
      | .distance _ _ _ => []) >>= checkLen 1

def evalWithArgs (rt : Runtime) (leaf : Expr → Option (Exec Arr)) (as : List Expr) :
    List (Exec Arr) :=
  match as with
  | [] => []
  | a :: as => evalWith rt leaf a :: evalWithArgs rt leaf as

def evalWithArg (rt : Runtime) (leaf : Expr → Option (Exec Arr)) (a : Option Expr) :
    List (Exec Arr) :=
  match a with
  | none => []
  | some a => [evalWith rt leaf a]

end

/-- What stands for a subexpression in group `g`: an aggregate of the group's rows, or the
group's key. -/
def leafOf (rt : Runtime) (plan : Select) (f : Frame) (sel : Sel) (keys : List Arr)
    (groupOf : List Nat) (g : Nat) (e : Expr) : Option (Exec Arr) :=
  if e.isAgg then some (aggOf rt f sel (members groupOf g) e)
  else
    match plan.groupBy.findIdx? (fun k => e.eq k) with
    | some i => keys[i]?.map (fun key => keyOf key groupOf g)
    | none => none

/-- The parts of an expression that structural evaluation comes to: nothing below an aggregate
or an expression equal to a key. -/
inductive Reached (keys : List Expr) : Expr → Expr → Prop
  | self (e : Expr) : Reached keys e e
  | child {e c d : Expr} (hagg : e.isAgg = false) (hkey : ∀ k ∈ keys, e.eq k = false)
      (hc : c ∈ e.children) (h : Reached keys c d) : Reached keys e d

section Evaluation

variable {rt : Runtime} {f : Frame} {sel : Sel}

theorem evalWithArgs_eq_map (leaf : Expr → Option (Exec Arr)) (as : List Expr) :
    evalWithArgs rt leaf as = as.map (evalWith rt leaf) := by
  induction as with
  | nil => rfl
  | cons a as ih => rw [evalWithArgs, ih, List.map_cons]

theorem evalWith_leaf {leaf : Expr → Option (Exec Arr)} {e : Expr} {r : Exec Arr}
    (h : leaf e = some r) : evalWith rt leaf e = r := by
  rw [evalWith.eq_def, h]

theorem evalWith_node {leaf : Expr → Option (Exec Arr)} {e : Expr} (h : leaf e = none) :
    evalWith rt leaf e = nodeOf rt 1 e (e.children.map (evalWith rt leaf)) >>= checkLen 1 := by
  rw [evalWith.eq_def, h]
  cases e with
  | func func args =>
    simp only [Expr.children, evalWithArgs_eq_map]
  | agg func arg distinct => cases arg <;> rfl
  | _ => rfl

/-- A node that reads neither a column nor the rows of a group. -/
def Expr.IsInner : Expr → Prop
  | .col _ => False
  | .distance _ _ _ => False
  | .agg _ _ _ => False
  | _ => True

theorem eval_inner {e : Expr} (h : e.IsInner) :
    eval rt f sel e = nodeOf rt sel.len e (e.children.map (eval rt f sel)) >>= checkLen sel.len := by
  cases e with
  | col i => exact h.elim
  | distance metric c query => exact h.elim
  | agg func arg distinct => exact h.elim
  | lit v => exact eval_lit rt f sel v
  | binary op l r => exact eval_binary rt f sel op l r
  | unary op e => exact eval_unary rt f sel op e
  | like e pattern negated ci => exact eval_like rt f sel e pattern negated ci
  | inList e list negated => exact eval_inList rt f sel e list negated
  | between e low high negated => exact eval_between rt f sel e low high negated
  | cast e ty => exact eval_cast rt f sel e ty
  | func func args =>
    rw [eval_func, evalArgs_eq_mapM]
    simp only [Expr.children, nodeOf, List.mapM_map]
    rfl

theorem nodeOf_substitute {pats : List (Expr × Expr)} {e : Expr} {n : Nat} {rs : List (Exec Arr)}
    (h : pats.find? (fun p => e.eq p.1) = none) :
    nodeOf rt n (e.substitute pats) rs = nodeOf rt n e rs ∧
      ((e.substitute pats).IsInner ↔ e.IsInner) := by
  rw [Expr.substitute.eq_def, h]
  refine ⟨?_, by cases e <;> exact Iff.rfl⟩
  obtain _ | ⟨a, _ | ⟨b, _ | ⟨c, _ | ⟨d, rs⟩⟩⟩⟩ := rs <;> cases e <;> rfl

end Evaluation

theorem find_numbered (l : List Expr) (e : Expr) (s m : Nat) :
    (((l.zipIdx m).map (fun a => (a.1, Expr.col (s + a.2)))).find? (fun p => e.eq p.1)).map Prod.snd =
      (l.findIdx? (fun k => e.eq k)).map (fun i => .col (s + (m + i))) := by
  induction l generalizing m with
  | nil => rfl
  | cons k l ih =>
    rw [List.zipIdx_cons, List.map_cons, List.find?_cons, List.findIdx?_cons]
    cases hk : e.eq k with
    | true => simp
    | false =>
      simp only [Bool.false_eq_true, if_false, ih, Option.map_map]
      congr 1
      funext i
      simp only [Function.comp_apply, Expr.col.injEq]
      omega

namespace Select

variable {plan : Select} {e : Expr}

/-- Where the rewriting puts an aggregate, if it knows it, and then a key. -/
theorem find_pats (plan : Select) (e : Expr) :
    (plan.pats.find? (fun p => e.eq p.1)).map Prod.snd =
      ((plan.aggs.findIdx? (fun a => e.eq a)).map
        (fun j => Expr.col (plan.groupBy.length + j))).or
      ((plan.groupBy.findIdx? (fun k => e.eq k)).map .col) := by
  rw [pats, List.find?_append, Option.map_or, find_numbered]
  have hkeys := find_numbered plan.groupBy e 0 0
  simp only [Nat.zero_add] at hkeys ⊢
  rw [hkeys]

theorem rewrite_found {x : Expr}
    (h : (plan.pats.find? (fun p => e.eq p.1)).map Prod.snd = some x) : plan.rewrite e = x := by
  obtain ⟨p, hp, rfl⟩ := Option.map_eq_some_iff.mp h
  rw [rewrite, Expr.substitute.eq_def, hp]

end Select

theorem F64.eq_self_of_eq {a b : F64} (h : a.eq b = true) : b.eq b = true := by
  unfold F64.eq F64.partialCmp at *
  cases ha : a.isNaN <;> cases hb : b.isNaN <;> simp_all

theorem F32.eq_self_of_eq {a b : F32} (h : a.eq b = true) : b.eq b = true := by
  unfold F32.eq at *
  simp only at *
  split_ifs at h with hnan
  rw [if_neg (by simp at hnan ⊢; omega)]
  simp

theorem zip_all_self {α : Type} (eq : α → α → Bool) (heq : ∀ a b, eq a b = true → eq b b = true)
    {l r : List α} (hlen : l.length = r.length) (h : (l.zip r).all (fun p => eq p.1 p.2) = true) :
    (r.zip r).all (fun p => eq p.1 p.2) = true := by
  induction l generalizing r with
  | nil =>
    obtain rfl := List.length_eq_zero_iff.mp hlen.symm
    rfl
  | cons a l ih =>
    cases r with
    | nil => cases hlen
    | cons b r =>
      obtain ⟨hab, h⟩ := Bool.and_eq_true_iff.mp h
      exact Bool.and_eq_true_iff.mpr ⟨heq a b hab, ih (Nat.succ.inj hlen) h⟩

theorem Value.eq_self_of_eq {v w : Value} (h : v.eq w = true) : w.eq w = true := by
  cases v with
  | f64 a =>
    cases w with
    | f64 b => exact F64.eq_self_of_eq h
    | _ => cases h
  | vector a =>
    cases w with
    | vector b =>
      obtain ⟨hlen, h⟩ := Bool.and_eq_true_iff.mp h
      exact Bool.and_eq_true_iff.mpr
        ⟨beq_self_eq_true _, zip_all_self F32.eq (fun _ _ => F32.eq_self_of_eq) (beq_iff_eq.mp hlen) h⟩
    | _ => cases h
  | i64 a =>
    cases w with
    | i64 b => exact beq_self_eq_true b
    | _ => cases h
  | bool a =>
    cases w with
    | bool b => exact beq_self_eq_true b
    | _ => cases h
  | str a =>
    cases w with
    | str b => exact beq_self_eq_true b
    | _ => cases h

namespace Expr

theorem eqArgs_forall₂ {as bs : List Expr} (h : eqArgs as bs = true) :
    List.Forall₂ (fun a b => a.eq b = true) as bs := by
  induction as generalizing bs with
  | nil =>
    cases bs with
    | nil => exact List.Forall₂.nil
    | cons b bs => cases h
  | cons a as ih =>
    cases bs with
    | nil => cases h
    | cons b bs =>
      obtain ⟨hab, hrest⟩ := Bool.and_eq_true_iff.mp h
      exact List.Forall₂.cons hab (ih hrest)

theorem eq_children {e d : Expr} (h : e.eq d = true) :
    List.Forall₂ (fun a b => a.eq b = true) e.children d.children := by
  cases e with
  | col i =>
    cases d with
    | col j => exact .nil
    | _ => cases h
  | lit v =>
    cases d with
    | lit w => exact .nil
    | _ => cases h
  | binary op l r =>
    cases d with
    | binary op' l' r' =>
      simp only [eq, Bool.and_eq_true] at h
      exact .cons h.1.2 (.cons h.2 .nil)
    | _ => cases h
  | unary op e =>
    cases d with
    | unary op' e' => exact .cons (Bool.and_eq_true_iff.mp h).2 .nil
    | _ => cases h
  | like e pattern negated ci =>
    cases d with
    | like e' pattern' negated' ci' =>
      simp only [eq, Bool.and_eq_true] at h
      exact .cons h.1.1.1 .nil
    | _ => cases h
  | inList e list negated =>
    cases d with
    | inList e' list' negated' =>
      simp only [eq, Bool.and_eq_true] at h
      exact .cons h.1.1 .nil
    | _ => cases h
  | between e low high negated =>
    cases d with
    | between e' low' high' negated' =>
      simp only [eq, Bool.and_eq_true] at h
      exact .cons h.1.1.1 (.cons h.1.1.2 (.cons h.1.2 .nil))
    | _ => cases h
  | cast e ty =>
    cases d with
    | cast e' ty' => exact .cons (Bool.and_eq_true_iff.mp h).1 .nil
    | _ => cases h
  | func func args =>
    cases d with
    | func func' args' => exact eqArgs_forall₂ (Bool.and_eq_true_iff.mp h).2
    | _ => cases h
  | distance metric c query =>
    cases d with
    | distance metric' c' query' => exact .nil
    | _ => cases h
  | agg func arg distinct =>
    cases d with
    | agg func' arg' distinct' =>
      simp only [eq, Bool.and_eq_true] at h
      have harg := h.1.2
      cases arg with
      | none =>
        cases arg' with
        | none => exact .nil
        | some a' => cases harg
      | some a =>
        cases arg' with
        | none => cases harg
        | some a' => exact .cons harg .nil
    | _ => cases h

theorem eqArgs_self {as bs : List Expr} (hself : ∀ a ∈ as, ∀ b, a.eq b = true → b.eq b = true)
    (h : eqArgs as bs = true) : eqArgs bs bs = true := by
  induction as generalizing bs with
  | nil =>
    cases bs with
    | nil => rfl
    | cons b bs => cases h
  | cons a as ih =>
    cases bs with
    | nil => cases h
    | cons b bs =>
      obtain ⟨ha, has⟩ := List.forall_mem_cons.mp hself
      obtain ⟨hab, h⟩ := Bool.and_eq_true_iff.mp h
      exact Bool.and_eq_true_iff.mpr ⟨ha b hab, ih has h⟩

/-- What some expression equals is equal to itself: there is no NaN in it. -/
theorem eq_self_of_eq {e d : Expr} (h : e.eq d = true) : d.eq d = true := by
  induction e using Expr.induct generalizing d with
  | col i =>
    cases d with
    | col j => exact beq_self_eq_true j
    | _ => cases h
  | lit v =>
    cases d with
    | lit w => exact Value.eq_self_of_eq h
    | _ => cases h
  | binary op l r hl hr =>
    cases d with
    | binary op' l' r' =>
      simp only [eq, Bool.and_eq_true] at h ⊢
      exact ⟨⟨beq_self_eq_true _, hl h.1.2⟩, hr h.2⟩
    | _ => cases h
  | unary op e he =>
    cases d with
    | unary op' e' =>
      simp only [eq, Bool.and_eq_true] at h ⊢
      exact ⟨beq_self_eq_true _, he h.2⟩
    | _ => cases h
  | like e pattern negated ci he =>
    cases d with
    | like e' pattern' negated' ci' =>
      simp only [eq, Bool.and_eq_true] at h ⊢
      exact ⟨⟨⟨he h.1.1.1, beq_self_eq_true _⟩, beq_self_eq_true _⟩, beq_self_eq_true _⟩
    | _ => cases h
  | inList e list negated he =>
    cases d with
    | inList e' list' negated' =>
      simp only [eq, valuesEq, Bool.and_eq_true] at h ⊢
      exact ⟨⟨he h.1.1, beq_self_eq_true _, zip_all_self Value.eq (fun _ _ => Value.eq_self_of_eq)
        (beq_iff_eq.mp h.1.2.1) h.1.2.2⟩, beq_self_eq_true _⟩
    | _ => cases h
  | between e low high negated he hl hh =>
    cases d with
    | between e' low' high' negated' =>
      simp only [eq, Bool.and_eq_true] at h ⊢
      exact ⟨⟨⟨he h.1.1.1, hl h.1.1.2⟩, hh h.1.2⟩, beq_self_eq_true _⟩
    | _ => cases h
  | func f args ih =>
    cases d with
    | func f' args' =>
      simp only [eq, Bool.and_eq_true] at h ⊢
      exact ⟨beq_self_eq_true _, eqArgs_self (fun a ha b => ih a ha) h.2⟩
    | _ => cases h
  | distance metric c query =>
    cases d with
    | distance metric' c' query' =>
      simp only [eq, Bool.and_eq_true] at h ⊢
      exact ⟨⟨beq_self_eq_true _, beq_self_eq_true _⟩, beq_self_eq_true _,
        zip_all_self F32.eq (fun _ _ => F32.eq_self_of_eq) (beq_iff_eq.mp h.2.1) h.2.2⟩
    | _ => cases h
  | agg f arg distinct ih =>
    cases d with
    | agg f' arg' distinct' =>
      simp only [eq, Bool.and_eq_true] at h ⊢
      refine ⟨⟨beq_self_eq_true _, ?_⟩, beq_self_eq_true _⟩
      cases arg with
      | none =>
        cases arg' with
        | none => rfl
        | some a' => cases h.1.2
      | some a =>
        cases arg' with
        | none => cases h.1.2
        | some a' => exact ih a rfl h.1.2
    | _ => cases h
  | cast e ty he =>
    cases d with
    | cast e' ty' =>
      simp only [eq, Bool.and_eq_true] at h ⊢
      exact ⟨he h.1, beq_self_eq_true _⟩
    | _ => cases h

theorem agg_of_eq {e d a : Expr} (h : e.eq d = true) (ha : a ∈ e.subexprs)
    (hagg : a.isAgg = true) : ∃ b ∈ d.subexprs, b.isAgg = true := by
  induction e using Expr.induct_children generalizing d with
  | step e ih =>
    rcases mem_subexprs.mp ha with rfl | ⟨c, hc, hac⟩
    · exact ⟨d, mem_subexprs_self d, isAgg_of_eq h ▸ hagg⟩
    · obtain ⟨i, hi, rfl⟩ := List.mem_iff_getElem.mp hc
      have hrel := eq_children h
      have hi' : i < d.children.length := hrel.length_eq ▸ hi
      obtain ⟨b, hb, hbagg⟩ := ih _ hc (hrel.get hi hi') hac
      exact ⟨b, mem_subexprs_child (List.getElem_mem hi') hb, hbagg⟩

end Expr

theorem Reached.mem_subexprs {keys : List Expr} {e d : Expr} (h : Reached keys e d) :
    d ∈ e.subexprs := by
  induction h with
  | self e => exact Expr.mem_subexprs_self e
  | child _ _ hc _ ih => exact Expr.mem_subexprs_child hc ih

theorem Reached.trans {keys : List Expr} {e d b : Expr} (h : Reached keys e d)
    (h' : Reached keys d b) : Reached keys e b := by
  induction h with
  | self _ => exact h'
  | child hagg hkey hc _ ih => exact .child hagg hkey hc (ih h')

theorem Reached.stray {keys : List Expr} {e d : Expr} {i : Nat} (h : Reached keys e d)
    (hd : d.Stray keys i) : e.Stray keys i := by
  induction h with
  | self _ => exact hd
  | child hagg hkey hc _ ih => exact .child hkey hagg hc (ih hd)

/-- An aggregate stands below no key when the keys have none. -/
theorem Reached.past_keys {keys : List Expr} {e d : Expr} (h : Reached [] e d)
    (hd : d.isAgg = true) (hkeys : ∀ k ∈ keys, ∀ b ∈ k.subexprs, b.isAgg = false) :
    Reached keys e d := by
  induction h with
  | self e => exact .self e
  | @child e c d hagg _ hc hcd ih =>
    refine .child hagg (fun k hk => ?_) hc (ih hd)
    by_contra hek
    obtain ⟨b, hb, hbagg⟩ := Expr.agg_of_eq (Bool.eq_true_of_not_eq_false hek)
      (Expr.mem_subexprs_child hc hcd.mem_subexprs) hd
    rw [hkeys k hk b hb] at hbagg
    cases hbagg

section Collected

variable {aggs : List Expr} {e d : Expr}

theorem collectAggs_agg (he : e.isAgg = true) : collectAggs e aggs =
    if aggs.any (fun a => e.eq a) then aggs else aggs ++ [e] := by
  rw [collectAggs, Expr.walk_eq]
  simp only [he, if_true]

theorem collectAggs_inner (he : e.isAgg = false) :
    collectAggs e aggs = e.children.foldl (fun aggs c => collectAggs c aggs) aggs := by
  rw [collectAggs, Expr.walk_eq]
  simp only [he, Bool.false_eq_true, if_false]
  rfl

theorem mem_collectAggs (e : Expr) (h : d ∈ aggs) : d ∈ collectAggs e aggs := by
  refine Expr.walk_invariant (I := fun aggs : List Expr => d ∈ aggs) e (fun node _ aggs h => ?_) h
  by_cases hnode : node.isAgg = true
  · simp only [hnode, if_true]
    split_ifs
    · exact h
    · exact List.mem_append_left _ h
  · simp only [hnode]
    exact h

theorem mem_collected (es : List Expr) (h : d ∈ aggs) :
    d ∈ es.foldl (fun aggs e => collectAggs e aggs) aggs :=
  List.foldlRecOn (motive := fun aggs : List Expr => d ∈ aggs) es _ h
    fun _ haggs e _ => mem_collectAggs e haggs

/-- No aggregate is collected that equals one collected before. -/
theorem collectAggs_pairwise (e : Expr) (h : aggs.Pairwise (fun q p => p.eq q = false)) :
    (collectAggs e aggs).Pairwise (fun q p => p.eq q = false) := by
  refine Expr.walk_invariant (I := fun aggs : List Expr => aggs.Pairwise (fun q p => p.eq q = false))
    e (fun node _ aggs h => ?_) h
  by_cases hnode : node.isAgg = true
  · simp only [hnode, if_true]
    split_ifs with hany
    · exact h
    · refine List.pairwise_append.mpr ⟨h, List.pairwise_singleton _ _, fun q hq p hp => ?_⟩
      rw [List.mem_singleton.mp hp, ← Bool.not_eq_true]
      exact fun heq => hany (List.any_eq_true.mpr ⟨q, hq, heq⟩)
  · simp only [hnode]
    exact h

/-- Every aggregate the walk comes to is collected, or equal to one that was. -/
theorem collectAggs_covers {keys : List Expr} (h : Reached keys e d) (hd : d.isAgg = true)
    (aggs : List Expr) : ∃ p ∈ collectAggs e aggs, p = d ∨ d.eq p = true := by
  induction h generalizing aggs with
  | self e =>
    rw [collectAggs_agg hd]
    split_ifs with hany
    · obtain ⟨p, hp, heq⟩ := List.any_eq_true.mp hany
      exact ⟨p, hp, Or.inr heq⟩
    · exact ⟨e, by simp, Or.inl rfl⟩
  | @child e c d hagg _ hc _ ih =>
    rw [collectAggs_inner hagg]
    obtain ⟨l₁, l₂, hl⟩ := List.append_of_mem hc
    rw [hl, List.foldl_append, List.foldl_cons]
    obtain ⟨p, hp, heq⟩ := ih hd (l₁.foldl (fun aggs c => collectAggs c aggs) aggs)
    exact ⟨p, mem_collected l₂ hp, heq⟩

/-- Only aggregates that the walk comes to are collected. -/
theorem reached_of_collected (h : d ∈ collectAggs e aggs) :
    d ∈ aggs ∨ (d.isAgg = true ∧ Reached [] e d) := by
  induction e using Expr.induct_children generalizing aggs with
  | step e ih =>
    cases he : e.isAgg with
    | true =>
      rw [collectAggs_agg he] at h
      split_ifs at h with hany
      · exact Or.inl h
      · rcases List.mem_append.mp h with h | h
        · exact Or.inl h
        · obtain rfl := List.mem_singleton.mp h
          exact Or.inr ⟨he, .self d⟩
    | false =>
      rw [collectAggs_inner he] at h
      have hfold : ∀ (l : List Expr) (aggs : List Expr), l ⊆ e.children →
          d ∈ l.foldl (fun aggs c => collectAggs c aggs) aggs →
          d ∈ aggs ∨ (d.isAgg = true ∧ Reached [] e d) := by
        intro l
        induction l with
        | nil => exact fun aggs _ h => Or.inl h
        | cons c l ihl =>
          intro aggs hl h
          have hc : c ∈ e.children := hl (by simp)
          rcases ihl _ (fun x hx => hl (by simp [hx])) h with h | h
          · rcases ih c hc h with h | ⟨hd, hcd⟩
            · exact Or.inl h
            · exact Or.inr ⟨hd, .child he (by simp) hc hcd⟩
          · exact Or.inr h
      exact hfold e.children aggs (List.Subset.refl _) h

end Collected

namespace Select

variable {plan : Select} {d : Expr}

theorem aggs_eq (plan : Select) :
    plan.aggs = (plan.projection.map (·.expr) ++ (plan.orderBy.map (·.expr) ++
      plan.having.toList)).foldl (fun aggs e => collectAggs e aggs) [] := by
  unfold aggs
  rw [List.foldl_append, List.foldl_append, List.foldl_map, List.foldl_map]
  cases plan.having <;> rfl

theorem mem_outputs {e : Expr} : e ∈ plan.outputs ↔
    e ∈ plan.projection.map (·.expr) ++ (plan.orderBy.map (·.expr) ++ plan.having.toList) := by
  simp only [outputs, List.mem_append]
  tauto

theorem aggs_covers {e : Expr} {keys : List Expr} (he : e ∈ plan.outputs)
    (h : Reached keys e d) (hd : d.isAgg = true) : ∃ p ∈ plan.aggs, p = d ∨ d.eq p = true := by
  rw [aggs_eq]
  obtain ⟨l₁, l₂, hl⟩ := List.append_of_mem (mem_outputs.mp he)
  rw [hl, List.foldl_append, List.foldl_cons]
  obtain ⟨p, hp, heq⟩ := collectAggs_covers h hd (l₁.foldl (fun aggs c => collectAggs c aggs) [])
  exact ⟨p, mem_collected l₂ hp, heq⟩

theorem aggs_pairwise (plan : Select) : plan.aggs.Pairwise (fun q p => p.eq q = false) := by
  rw [aggs_eq]
  exact List.foldlRecOn (motive := fun aggs : List Expr =>
    aggs.Pairwise (fun q p => p.eq q = false)) _ _ List.Pairwise.nil
      fun aggs haggs e _ => collectAggs_pairwise e haggs

theorem aggs_reached (h : d ∈ plan.aggs) :
    d.isAgg = true ∧ ∃ e ∈ plan.outputs, Reached [] e d := by
  rw [aggs_eq] at h
  have hfold : ∀ (l aggs : List Expr), l ⊆ plan.outputs →
      d ∈ l.foldl (fun aggs e => collectAggs e aggs) aggs →
      d ∈ aggs ∨ (d.isAgg = true ∧ ∃ e ∈ plan.outputs, Reached [] e d) := by
    intro l
    induction l with
    | nil => exact fun aggs _ h => Or.inl h
    | cons c l ih =>
      intro aggs hl h
      rcases ih _ (fun x hx => hl (by simp [hx])) h with h | h
      · rcases reached_of_collected h with h | ⟨hd, hcd⟩
        · exact Or.inl h
        · exact Or.inr ⟨hd, c, hl (by simp), hcd⟩
      · exact Or.inr h
  rcases hfold _ [] (fun e he => mem_outputs.mpr he) h with h | h
  · cases h
  · exact h

end Select

end Veldb
