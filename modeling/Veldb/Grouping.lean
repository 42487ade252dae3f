import Veldb.AggregateRewriting
import Veldb.TextColumn

/-! The groups of a selection with the frame of their keys and aggregates, and what the
rewriting makes of an expression in one group. -/

namespace Veldb

open Attempts

/-- The groups of a selection, and the frame of their keys and aggregates. -/
structure Grouping (rt : Runtime) (plan : Select) (f : Frame) (sel : Sel) where
  keys : List Arr
  groupOf : List Nat
  ngroups : Nat
  columns : List Column
  keys_eq : plan.groupBy.mapM (eval rt f sel) = .ok keys
  groups_eq : assignGroups keys sel.len = .ok (groupOf, ngroups)
  columns_eq : groupColumns rt plan f sel = .ok (columns, ngroups)

/-- An expression of the answer or a part of one, above aggregates and keys. -/
def Select.Part (plan : Select) (d : Expr) : Prop :=
  ∃ e ∈ plan.outputs, Reached plan.groupBy e d

/-- A selection of groups. -/
def Sel.Within (n : Nat) : Sel → Prop
  | .all m => m = n
  | .ids v => ∀ r ∈ v, r < n

theorem Sel.Within.row_lt {s : Sel} {n i r : Nat} (h : s.Within n) (hi : i < s.len)
    (hr : s.row i = .ok r) : r < n := by
  cases s with
  | all m =>
    obtain rfl := Except.ok.inj hr
    exact lt_of_lt_of_eq hi h
  | ids v => exact h r (List.mem_of_getElem? (index_eq_ok.mp hr))

theorem Sel.Within.len_zero {s : Sel} (h : s.Within 0) : s.len = 0 := by
  cases s with
  | all m => exact h
  | ids v => exact List.length_eq_zero_iff.mpr (List.eq_nil_iff_forall_not_mem.mpr fun r hr =>
      absurd (h r hr) (Nat.not_lt_zero r))

section Columns

variable {rt : Runtime} {n : Nat} {c : Column} {vals : Nat → Exec Arr}

theorem gather_one {a : Arr} {g : Nat} (h : gather c (.ids [g]) = .ok a) :
    a.len = 1 ∧ a.dataType = c.dataType := by
  cases c with
  | i64 v => obtain ⟨w, hw, rfl⟩ := bind_pure_eq_ok.mp h; exact ⟨mapM_length hw, rfl⟩
  | f64 v => obtain ⟨w, hw, rfl⟩ := bind_pure_eq_ok.mp h; exact ⟨mapM_length hw, rfl⟩
  | bool v => obtain ⟨w, hw, rfl⟩ := bind_pure_eq_ok.mp h; exact ⟨mapM_length hw, rfl⟩
  | str s => obtain ⟨w, hw, rfl⟩ := bind_pure_eq_ok.mp h; exact ⟨mapM_range_length hw, rfl⟩
  | vector dim data => obtain ⟨w, hw, rfl⟩ := bind_pure_eq_ok.mp h; exact ⟨mapM_range_length hw, rfl⟩

theorem eval_col_one {f : Frame} {i g : Nat} (hc : f.cols[i]? = some c) :
    eval rt f (.ids [g]) (.col i) = gather c (.ids [g]) := by
  rw [eval_col, hc, Option.elim_some]
  cases h : gather c (.ids [g]) with
  | error e => rfl
  | ok a => exact checkLen_one (gather_one h).1 _

theorem gather_text {s : StrColumn} {g : Nat} {t : String} :
    gather (.str s) (.ids [g]) = .ok (.str [t]) ↔ s.get g = .ok t := by
  have hone : (List.range (Sel.ids [g]).len).mapM (fun i => do s.get (← (Sel.ids [g]).row i)) =
      (fun t => [t]) <$> s.get g := by
    change [0].mapM (fun i => do s.get (← (Sel.ids [g]).row i)) = _
    rw [List.mapM_cons, List.mapM_nil]
    change (s.get g >>= fun t => pure [t]) = _
    cases s.get g <;> rfl
  rw [gather, hone]
  cases s.get g with
  | error e => simp [Functor.map, Except.map, bind, Except.bind]
  | ok t' => simp [Functor.map, Except.map, bind, Except.bind, pure, Except.pure]

/-- A column gives back the values it was filled with, unless these are texts too long
for one arena. -/
theorem Stores.reads_iff (h : Stores n c vals) :
    (∀ g, g < n → gather c (.ids [g]) = vals g) ↔
      ∀ texts : List String, texts.length = n →
        (∀ g s, texts[g]? = some s → vals g = .ok (.str [s])) →
          StrColumn.textBytes texts < 2 ^ 32 := by
  cases h with
  | @text texts _ hlen hvals =>
    constructor
    · intro hread texts' hlen' hvals'
      have heq : texts' = texts := by
        refine List.ext_getElem (hlen'.trans hlen.symm) fun g hg' hg => ?_
        have h' := hvals' g _ (List.getElem?_eq_getElem hg')
        have h := hvals g _ (List.getElem?_eq_getElem hg)
        simpa using h'.symm.trans h
      rw [heq, ← StrColumn.get_pushed_iff]
      intro g s hs
      obtain ⟨hg, -⟩ := List.getElem?_eq_some_iff.mp hs
      exact gather_text.mp ((hread g (hlen ▸ hg)).trans (hvals g s hs))
    · intro hfit g hg
      have hs := List.getElem?_eq_getElem (hlen.symm ▸ hg : g < texts.length)
      rw [hvals g _ hs, gather_text]
      exact (StrColumn.get_pushed_iff texts).mpr (hfit texts hlen hvals) g _ hs
  | entries hty hread =>
    refine iff_of_true hread fun texts hlen hvals => ?_
    cases texts with
    | nil => decide
    | cons s texts =>
      have h0 := (hread 0 (by rw [← hlen]; simp)).trans (hvals 0 s rfl)
      exact absurd (gather_one h0).2.symm hty

section NotBail

variable {α β : Type}

theorem bind_not_bail {x : Exec α} {f : α → Exec β} (hx : ∀ m, x ≠ bail m)
    (hf : ∀ a m, f a ≠ bail m) (m : String) : (x >>= f) ≠ bail m := by
  cases x with
  | error e => exact fun h => hx m (congrArg Except.error (Except.error.inj h))
  | ok a => exact hf a m

theorem pure_not_bail (a : α) (m : String) : (pure a : Exec α) ≠ bail m := by
  intro h
  cases h

theorem mapM_not_bail {f : α → Exec β} (hf : ∀ a m, f a ≠ bail m) (l : List α)
    (m : String) : l.mapM f ≠ bail m := by
  induction l generalizing m with
  | nil => exact nofun
  | cons a l ih =>
    rw [List.mapM_cons]
    exact bind_not_bail (hf a) (fun _ => bind_not_bail ih fun _ => pure_not_bail _) m

theorem index_not_bail (v : List α) (i : Nat) (m : String) : index v i ≠ bail m := by
  intro h
  unfold index at h
  split at h <;> cases h

theorem get_not_bail (s : StrColumn) (i : Nat) (m : String) : s.get i ≠ bail m := by
  refine bind_not_bail (fun m => ?_) (fun b m => ?_) m
  · unfold StrColumn.getBytes
    split
    · split_ifs <;> exact nofun
    · exact nofun
  · cases fromUtf8 b <;> exact nofun

theorem row_not_bail (s : Sel) (i : Nat) (m : String) : s.row i ≠ bail m := by
  cases s with
  | all n => exact nofun
  | ids v => exact index_not_bail v i m

theorem gather_not_bail (c : Column) (s : Sel) (m : String) : gather c s ≠ bail m := by
  have hdense : ∀ {α : Type} (mk : List α → Arr) (v : List α) m, gatherDense mk v s ≠ bail m := by
    intro α mk v
    cases s with
    | all n => exact nofun
    | ids ids => exact bind_not_bail (mapM_not_bail (index_not_bail v) ids) fun _ => pure_not_bail _
  cases c with
  | i64 v => exact hdense _ v m
  | f64 v => exact hdense _ v m
  | bool v => exact hdense _ v m
  | str t =>
    refine bind_not_bail (mapM_not_bail (fun i => ?_) _) (fun _ => pure_not_bail _) m
    exact bind_not_bail (row_not_bail s i) (fun r => get_not_bail t r)
  | vector dim data =>
    refine bind_not_bail (mapM_not_bail (fun i => ?_) _) (fun _ => pure_not_bail _) m
    refine bind_not_bail (row_not_bail s i) fun r => bind_not_bail (fun m => ?_) fun v m => ?_
    · intro h
      simp only [Column.vectorAt] at h
      split_ifs at h <;> cases h
    · intro h
      cases v <;> cases h
end NotBail

theorem Stores.not_bail {g : Nat} (h : Stores n c vals) (hg : g < n) (m : String) :
    vals g ≠ bail m := by
  intro hbail
  cases h with
  | @text texts _ hlen hvals =>
    have hs := List.getElem?_eq_getElem (hlen.symm ▸ hg : g < texts.length)
    exact bail_ne_ok m _ (hbail.symm.trans (hvals g _ hs))
  | entries _ hread => exact gather_not_bail c _ m ((hread g hg).trans hbail)

end Columns

namespace Grouping

variable {rt : Runtime} {plan : Select} {f : Frame} {sel : Sel} (G : Grouping rt plan f sel)

def frame : Frame :=
  ⟨G.columns⟩

def leaf (g : Nat) : Expr → Option (Exec Arr) :=
  leafOf rt plan f sel G.keys G.groupOf g

/-- The aggregate over the rows of the group. -/
def aggIn (g : Nat) : Expr → Exec Arr :=
  aggOf rt f sel (members G.groupOf g)

/-- The value of an expression in a group, aggregates and keys being leaves. -/
def meaning (g : Nat) : Expr → Exec Arr :=
  evalWith rt (G.leaf g)

theorem exists_of_columns {cols : List Column} {n : Nat}
    (h : groupColumns rt plan f sel = .ok (cols, n)) :
    ∃ G : Grouping rt plan f sel, G.columns = cols ∧ G.ngroups = n := by
  obtain ⟨keys, hkeys, hrest⟩ := bind_eq_ok.mp h
  obtain ⟨⟨groupOf, ngroups⟩, hgroups, hrest⟩ := bind_eq_ok.mp hrest
  obtain ⟨keyCols, -, hrest⟩ := bind_eq_ok.mp hrest
  obtain ⟨aggCols, -, hend⟩ := bind_pure_eq_ok.mp hrest
  obtain ⟨-, rfl⟩ := Prod.mk.inj hend
  exact ⟨⟨keys, groupOf, ngroups, cols, hkeys, hgroups, h⟩, rfl, rfl⟩

theorem columns_split : ∃ keyCols aggCols, G.columns = keyCols ++ aggCols ∧
    G.keys.mapM (fun a => do return (← pickFirstPerGroup a G.groupOf G.ngroups).intoColumn) =
      .ok keyCols ∧
    plan.aggs.mapM (fun agg => runAgg rt agg f sel G.groupOf G.ngroups) = .ok aggCols := by
  have h := G.columns_eq
  rw [groupColumns, G.keys_eq, ok_bind, G.groups_eq, ok_bind] at h
  obtain ⟨keyCols, hkey, h⟩ := bind_eq_ok.mp h
  obtain ⟨aggCols, hagg, hend⟩ := bind_pure_eq_ok.mp h
  exact ⟨keyCols, aggCols, (Prod.mk.inj hend).1.symm, hkey, hagg⟩

theorem length_groupOf : G.groupOf.length = sel.len :=
  assignGroups_length G.groups_eq

theorem length_keys : G.keys.length = plan.groupBy.length :=
  mapM_length G.keys_eq

theorem covers {s : Sel} (h : s.Within G.ngroups) : s.Covers G.frame := by
  rintro m rfl
  obtain rfl : m = G.ngroups := h
  exact groupColumns_covers G.columns_eq _ rfl

theorem keys_plain (G : Grouping rt plan f sel) : ∀ k ∈ plan.groupBy, ∀ b ∈ k.subexprs, b.isAgg = false := by
  intro k hk b hb
  obtain ⟨a, -, ha⟩ := mapM_mem G.keys_eq hk
  obtain ⟨v, hv⟩ := eval_subexprs ha b hb
  cases b with
  | agg func arg distinct =>
    rw [eval_agg] at hv
    cases hv
  | _ => rfl

theorem key_column {i : Nat} (hi : i < plan.groupBy.length) : ∃ key c, G.keys[i]? = some key ∧
    G.columns[i]? = some c ∧ Stores G.ngroups c (keyOf key G.groupOf) := by
  obtain ⟨keyCols, aggCols, hcols, hkey, -⟩ := G.columns_split
  have hlt : i < G.keys.length := G.length_keys ▸ hi
  obtain ⟨c, hpick, hc⟩ := mapM_getElem hkey hlt
  obtain ⟨a, ha, rfl⟩ := bind_pure_eq_ok.mp hpick
  refine ⟨G.keys[i], a.intoColumn, List.getElem?_eq_getElem hlt, ?_, ?_⟩
  · rw [hcols, List.getElem?_append_left (mapM_length hkey ▸ hlt), hc]
  · refine pickFirst_stores (fun dim rows hvec => ?_) ha
    exact assignGroups_vector (hvec ▸ List.getElem_mem hlt) G.groups_eq

theorem agg_column {j : Nat} {p : Expr} (hp : plan.aggs[j]? = some p)
    (hrow : ∀ a ∈ p.children, Rowwise rt f sel a) :
    ∃ c, G.columns[plan.groupBy.length + j]? = some c ∧
      Stores G.ngroups c (fun g => G.aggIn g p) := by
  obtain ⟨keyCols, aggCols, hcols, hkey, hagg⟩ := G.columns_split
  obtain ⟨hj, rfl⟩ := List.getElem?_eq_some_iff.mp hp
  obtain ⟨c, hrun, hc⟩ := mapM_getElem hagg hj
  refine ⟨c, ?_, runAgg_stores G.length_groupOf hrow hrun⟩
  have hlen : keyCols.length = plan.groupBy.length := (mapM_length hkey).trans G.length_keys
  rw [hcols, List.getElem?_append_right (by omega), ← hc]
  congr 1
  omega

theorem eval_column {d : Expr} {i : Nat} {c : Column}
    (hfind : (plan.pats.find? (fun p => d.eq p.1)).map Prod.snd = some (.col i))
    (hc : G.columns[i]? = some c) (g : Nat) :
    eval rt G.frame (.ids [g]) (plan.rewrite d) = gather c (.ids [g]) := by
  rw [Select.rewrite_found hfind]
  exact eval_col_one hc

theorem agg_rewritten {d p : Expr} (hfind : plan.aggs.find? (fun a => d.eq a) = some p)
    (hrow : ∀ a ∈ p.children, Rowwise rt f sel a) :
    ∃ c, Stores G.ngroups c (fun g => G.aggIn g p) ∧
      ∀ g, eval rt G.frame (.ids [g]) (plan.rewrite d) = gather c (.ids [g]) := by
  obtain ⟨heq, j, hj, rfl, hfirst⟩ := List.find?_eq_some_iff_getElem.mp hfind
  have hidx : plan.aggs.findIdx? (fun a => d.eq a) = some j :=
    List.findIdx?_eq_some_iff_getElem.mpr ⟨hj, heq, fun k hk => by simpa using hfirst k hk⟩
  obtain ⟨c, hc, hstores⟩ := G.agg_column (List.getElem?_eq_getElem hj) hrow
  refine ⟨c, hstores, G.eval_column ?_ hc⟩
  rw [plan.find_pats, hidx]
  rfl

/-- What the rewriting makes of an expression that is no aggregate: the column of a key, or
the same node over rewritten parts. -/
theorem leaf_cases {d : Expr} (hagg : d.isAgg = false) :
    (∃ c vals, (∀ g, G.leaf g d = some (vals g)) ∧ Stores G.ngroups c vals ∧
      ∀ g, eval rt G.frame (.ids [g]) (plan.rewrite d) = gather c (.ids [g])) ∨
    ((∀ g, G.leaf g d = none) ∧ (∀ k ∈ plan.groupBy, d.eq k = false) ∧
      plan.pats.find? (fun p => d.eq p.1) = none) := by
  have haggs : plan.aggs.findIdx? (fun a => d.eq a) = none := by
    rw [List.findIdx?_eq_none_iff]
    intro a ha
    rw [← Bool.not_eq_true]
    intro heq
    rw [Expr.isAgg_of_eq heq, plan.aggs_isAgg a ha] at hagg
    cases hagg
  have hpats := plan.find_pats d
  rw [haggs, Option.map_none, Option.none_or] at hpats
  cases hi : plan.groupBy.findIdx? (fun k => d.eq k) with
  | none =>
    right
    refine ⟨fun g => ?_, fun k hk => ?_, ?_⟩
    · rw [leaf, leafOf, hagg, hi]
      rfl
    · exact List.findIdx?_eq_none_iff.mp hi k hk
    · rw [hi, Option.map_none, Option.map_eq_none_iff] at hpats
      exact hpats
  | some i =>
    left
    obtain ⟨hlt, -⟩ := List.findIdx?_eq_some_iff_getElem.mp hi
    obtain ⟨key, c, hkey, hc, hstores⟩ := G.key_column hlt
    refine ⟨c, keyOf key G.groupOf, fun g => ?_, hstores, G.eval_column ?_ hc⟩
    · rw [leaf, leafOf, hagg, hi]
      simp only [Bool.false_eq_true, if_false, hkey, Option.map_some]
    · rw [hpats, hi]
      rfl

theorem leaf_agg {d : Expr} (hagg : d.isAgg = true) (g : Nat) : G.leaf g d = some (G.aggIn g d) :=
  if_pos hagg

/-- In a group by itself the rewritten expression has the structural value when the leaves
have theirs. -/
theorem eval_rewrite {e : Expr} {g : Nat} (hstray : ∀ i, ¬ e.Stray plan.groupBy i)
    (hleaf : ∀ d r, Reached plan.groupBy e d → G.leaf g d = some r →
      eval rt G.frame (.ids [g]) (plan.rewrite d) = r) :
    eval rt G.frame (.ids [g]) (plan.rewrite e) = G.meaning g e := by
  induction e using Expr.induct_children with
  | step e ih =>
    cases hagg : e.isAgg with
    | true =>
      have hl := G.leaf_agg hagg g
      rw [hleaf e _ (.self e) hl, meaning, evalWith_leaf hl]
    | false =>
      rcases G.leaf_cases hagg with ⟨c, vals, hvals, -, -⟩ | ⟨hnone, hkey, hpats⟩
      · rw [hleaf e _ (.self e) (hvals g), meaning, evalWith_leaf (hvals g)]
      have hinner : e.IsInner := by
        cases e with
        | col i => exact absurd (.col hkey) (hstray i)
        | distance metric i query => exact absurd (.distance hkey) (hstray i)
        | agg func arg distinct => cases hagg
        | _ => trivial
      have hchildren : (plan.rewrite e).children.map (eval rt G.frame (.ids [g])) =
          e.children.map (evalWith rt (G.leaf g)) := by
        rw [Select.rewrite, Expr.children_substitute hpats, List.map_map]
        refine List.map_congr_left fun c hc => ?_
        exact ih c hc (fun i hi => hstray i (.child hkey hagg hc hi))
          fun d r hd hr => hleaf d r (.child hagg hkey hc hd) hr
      have hsame : nodeOf rt 1 (plan.rewrite e) (e.children.map (evalWith rt (G.leaf g))) =
            nodeOf rt 1 e (e.children.map (evalWith rt (G.leaf g))) ∧
          ((plan.rewrite e).IsInner ↔ e.IsInner) := nodeOf_substitute hpats
      rw [eval_inner (hsame.2.mpr hinner), hchildren, meaning, evalWith_node (hnone g)]
      exact congrArg (· >>= checkLen 1) hsame.1

end Grouping

end Veldb
