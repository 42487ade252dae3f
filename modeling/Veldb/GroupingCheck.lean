import Veldb.Library.Attempts
import Veldb.SelectRun

/-! References to base columns that the grouping of a query leaves without a meaning. The rewriting
leaves them where they stand, as numbers of columns of the frame of keys and aggregates. -/

namespace Veldb

open Attempts

namespace Expr

/-- A base column is referred to neither inside an aggregate call nor inside a
subexpression equal to a grouping expression. -/
inductive Stray (keys : List Expr) : Expr → Nat → Prop
  | col {i : Nat} (hkey : ∀ k ∈ keys, (Expr.col i).eq k = false) : Stray keys (.col i) i
  | distance {metric : Metric} {i : Nat} {query : List F32}
      (hkey : ∀ k ∈ keys, (Expr.distance metric i query).eq k = false) :
      Stray keys (.distance metric i query) i
  | child {e c : Expr} {i : Nat} (hkey : ∀ k ∈ keys, e.eq k = false) (hagg : e.isAgg = false)
      (hc : c ∈ e.children) (h : Stray keys c i) : Stray keys e i

theorem isAgg_of_eq {e d : Expr} (h : e.eq d = true) : e.isAgg = d.isAgg := by
  cases e <;> cases d <;> simp_all [eq, isAgg]

theorem substituteArgs_eq_map (pats : List (Expr × Expr)) (as : List Expr) :
    substituteArgs pats as = as.map (substitute pats) := by
  induction as with
  | nil => rfl
  | cons a as ih => rw [substituteArgs, ih, List.map_cons]

theorem children_substitute {pats : List (Expr × Expr)} {e : Expr}
    (h : pats.find? (fun p => e.eq p.1) = none) :
    (e.substitute pats).children = e.children.map (substitute pats) := by
  rw [substitute.eq_def, h]
  cases e with
  | func f args => exact substituteArgs_eq_map pats args
  | agg f arg distinct => cases arg <;> rfl
  | _ => rfl

theorem walkArgs_eq_foldl {σ : Type} (f : Expr → σ → Bool × σ) (as : List Expr) (s : σ) :
    walkArgs f as s = as.foldl (fun s a => walk f a s) s := by
  induction as generalizing s with
  | nil => rfl
  | cons a as ih => rw [walkArgs, ih, List.foldl_cons]

theorem walk_eq {σ : Type} (f : Expr → σ → Bool × σ) (e : Expr) (s : σ) :
    walk f e s = if (f e s).1 then (f e s).2
      else e.children.foldl (fun s c => walk f c s) (f e s).2 := by
  rw [walk.eq_def]
  cases e with
  | func g args => simp only [children, walkArgs_eq_foldl]
  | agg g arg distinct => cases arg <;> rfl
  | _ => rfl

theorem walk_invariant {σ : Type} {I : σ → Prop} {f : Expr → σ → Bool × σ} (e : Expr) {s : σ}
    (hf : ∀ d ∈ e.subexprs, ∀ s, I s → I (f d s).2) (hs : I s) : I (walk f e s) := by
  induction e using Expr.induct_children generalizing s with
  | step e ih =>
    have hhere : I (f e s).2 := hf e (mem_subexprs_self e) s hs
    rw [walk_eq]
    split_ifs
    · exact hhere
    · refine List.foldlRecOn _ _ hhere ?_
      intro s hs c hc
      exact ih c hc (fun d hd => hf d (mem_subexprs_child hc hd)) hs

end Expr

variable {rt : Runtime} {f : Frame} {sel : Sel} {a : Arr}

theorem eval_children {e : Expr} (h : eval rt f sel e = .ok a) :
    ∀ c ∈ e.children, ∃ b, eval rt f sel c = .ok b := by
  cases e with
  | binary op l r =>
    have hb := eval_node (eval_binary rt f sel op l r) h
    obtain ⟨x, hx, hb⟩ := bind_eq_ok.mp hb
    obtain ⟨y, hy, -⟩ := bind_eq_ok.mp hb
    simp [Expr.children, hx, hy]
  | unary op e =>
    obtain ⟨x, hx, -⟩ := bind_eq_ok.mp (eval_node (eval_unary rt f sel op e) h)
    simp [Expr.children, hx]
  | like e pattern negated ci =>
    obtain ⟨x, hx, -⟩ := bind_eq_ok.mp (eval_node (eval_like rt f sel e pattern negated ci) h)
    simp [Expr.children, hx]
  | inList e list negated =>
    obtain ⟨x, hx, -⟩ := bind_eq_ok.mp (eval_node (eval_inList rt f sel e list negated) h)
    simp [Expr.children, hx]
  | between e low high negated =>
    have hb := eval_node (eval_between rt f sel e low high negated) h
    obtain ⟨x, hx, hb⟩ := bind_eq_ok.mp hb
    obtain ⟨y, hy, hb⟩ := bind_eq_ok.mp hb
    obtain ⟨_, _, hb⟩ := bind_eq_ok.mp hb
    obtain ⟨z, hz, -⟩ := bind_eq_ok.mp hb
    simp [Expr.children, hx, hy, hz]
  | cast e ty =>
    obtain ⟨x, hx, -⟩ := bind_eq_ok.mp (eval_node (eval_cast rt f sel e ty) h)
    simp [Expr.children, hx]
  | func g args =>
    obtain ⟨A, hA, -⟩ := bind_eq_ok.mp (eval_node (eval_func rt f sel g args) h)
    rw [evalArgs_eq_mapM] at hA
    intro c hc
    obtain ⟨y, -, hy⟩ := mapM_mem hA hc
    exact ⟨y, hy⟩
  | agg g arg distinct =>
    rw [eval_agg] at h
    cases h
  | col i => simp [Expr.children]
  | lit v => simp [Expr.children]
  | distance m c q => simp [Expr.children]

theorem eval_subexprs {e : Expr} (h : eval rt f sel e = .ok a) :
    ∀ d ∈ e.subexprs, ∃ b, eval rt f sel d = .ok b := by
  induction e using Expr.induct_children generalizing a with
  | step e ih =>
    intro d hd
    rcases Expr.mem_subexprs.mp hd with rfl | ⟨c, hc, hdc⟩
    · exact ⟨a, h⟩
    · obtain ⟨b, hb⟩ := eval_children h c hc
      exact ih c hc hb d hdc

theorem collectAggs_isAgg {aggs : List Expr} (e : Expr) (h : ∀ d ∈ aggs, d.isAgg = true) :
    ∀ d ∈ collectAggs e aggs, d.isAgg = true := by
  refine Expr.walk_invariant (I := fun aggs : List Expr => ∀ d ∈ aggs, d.isAgg = true) e ?_ h
  intro node _ aggs haggs
  by_cases hnode : node.isAgg = true
  · simp only [hnode, if_true]
    split_ifs
    · exact haggs
    · exact List.forall_mem_append.mpr ⟨haggs, List.forall_mem_singleton.mpr hnode⟩
  · simp only [hnode]
    exact haggs

namespace Select

theorem aggs_isAgg (plan : Select) : ∀ d ∈ plan.aggs, d.isAgg = true := by
  have hfold : ∀ {α : Type} (g : α → Expr) (l : List α) (aggs : List Expr),
      (∀ d ∈ aggs, d.isAgg = true) →
      ∀ d ∈ l.foldl (fun aggs x => collectAggs (g x) aggs) aggs, d.isAgg = true := by
    intro α g l aggs h
    exact List.foldlRecOn (motive := fun aggs : List Expr => ∀ d ∈ aggs, d.isAgg = true) l _ h
      (fun aggs haggs x _ => collectAggs_isAgg (g x) haggs)
  have hordered := hfold (·.expr) plan.orderBy _ (hfold (·.expr) plan.projection [] (by simp))
  unfold aggs
  cases plan.having with
  | none => exact hordered
  | some e => exact collectAggs_isAgg e hordered

def outputs (plan : Select) : List Expr :=
  plan.projection.map (·.expr) ++ (plan.having.toList ++ plan.orderBy.map (·.expr))

def Stray (plan : Select) (i : Nat) : Prop :=
  ∃ e ∈ plan.outputs, e.Stray plan.groupBy i

def IllGrouped (plan : Select) : Prop := ∃ i, plan.Stray i

def width (plan : Select) : Nat :=
  plan.groupBy.length + plan.aggs.length

theorem outputs_rewritten (plan : Select) :
    plan.rewritten.outputs = plan.outputs.map plan.rewrite := by
  unfold outputs rewritten
  cases plan.having <;> simp [Function.comp_def]

end Select

def twoRows : Table :=
  ⟨"t", ⟨[⟨"a", .i64⟩, ⟨"b", .i64⟩]⟩, [.i64 [1, 2], .i64 [10, 10]], 2⟩

end Veldb
