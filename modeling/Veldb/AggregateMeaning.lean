import Veldb.Grouping

/-! Rewriting onto the frame of keys and aggregates keeps the meaning of an expression in
every group, except where a call over the frame takes an argument from its first row. -/

namespace Veldb

open Attempts

namespace Grouping

variable {rt : Runtime} {plan : Select} {f : Frame} {sel : Sel} (G : Grouping rt plan f sel)

/-- At each selected group the value of the rewritten expression is the structural one. -/
def Means (s : Sel) (d : Expr) : Prop :=
  ∀ a, eval rt G.frame s (plan.rewrite d) = .ok a → ∀ i, i < s.len →
    ∃ r b v, s.row i = .ok r ∧ G.meaning r d = .ok b ∧ b.value 0 = .ok v ∧ a.value i = .ok v

/-- Rewriting keeps the meaning of the answer's expressions and their parts, over a selection
of groups and in each group alone, and the aggregates are those of the rows' own values. -/
structure Preserved (s : Sel) : Prop where
  arguments : ∀ p ∈ plan.aggs, ∀ a ∈ p.children, ∀ c ∈ a.subexprs, RowLocal rt f sel c
  alone : ∀ d, plan.Part d → ∀ g, g < G.ngroups →
    eval rt G.frame (.ids [g]) (plan.rewrite d) = G.meaning g d
  together : ∀ d, plan.Part d → G.Means s d

/-- When rewriting does so: calls agree on the arguments they share, over the rows and over
the groups; equal aggregates have equal values; and no column of texts outgrows its arena. -/
structure Faithful (s : Sel) : Prop where
  arguments : ∀ p ∈ plan.aggs, ∀ a ∈ p.children, ∀ c ∈ a.subexprs, SharedAgrees rt f sel c
  calls : ∀ d, plan.Part d → SharedAgrees rt G.frame s (plan.rewrite d)
  identified : ∀ d, plan.Part d → d.isAgg = true → ∀ g, g < G.ngroups →
    ∃ p, plan.aggs.find? (fun a => d.eq a) = some p ∧ G.aggIn g d = G.aggIn g p
  texts : ∀ d, plan.Part d → ∀ texts : List String, texts.length = G.ngroups →
    (∀ g s, texts[g]? = some s → G.leaf g d = some (.ok (.str [s]))) →
      StrColumn.textBytes texts < 2 ^ 32

section

variable {G} {s : Sel}

theorem part_self (G : Grouping rt plan f sel) {p : Expr} (hp : p ∈ plan.aggs) : plan.Part p := by
  obtain ⟨hagg, e, he, hreach⟩ := Select.aggs_reached hp
  exact ⟨e, he, hreach.past_keys hagg G.keys_plain⟩

theorem rewrite_first {d p : Expr} (hfind : plan.aggs.find? (fun a => d.eq a) = some p) :
    plan.rewrite d = plan.rewrite p := by
  have hfound : ∀ {x : Expr} {j : Nat}, plan.aggs.findIdx? (fun a => x.eq a) = some j →
      plan.rewrite x = .col (plan.groupBy.length + j) := by
    intro x j hx
    refine Select.rewrite_found ?_
    rw [plan.find_pats, hx]
    rfl
  obtain ⟨heq, j, hj, hjp, hfirst⟩ := List.find?_eq_some_iff_getElem.mp hfind
  have hself := Expr.eq_self_of_eq heq
  have hd : plan.aggs.findIdx? (fun a => d.eq a) = some j :=
    List.findIdx?_eq_some_iff_getElem.mpr ⟨hj, hjp ▸ heq, fun k hk => by simpa using hfirst k hk⟩
  have hp : plan.aggs.findIdx? (fun a => p.eq a) = some j := by
    refine List.findIdx?_eq_some_iff_getElem.mpr ⟨hj, hjp.symm ▸ hself, fun k hk => ?_⟩
    have hpair := List.pairwise_iff_getElem.mp plan.aggs_pairwise k j (by omega) hj hk
    rw [hjp] at hpair
    simp [hpair]
  rw [hfound hd, hfound hp]

theorem found_of_alone (G : Grouping rt plan f sel) {d : Expr} {g : Nat}
    (hrow : ∀ p ∈ plan.aggs, ∀ a ∈ p.children, Rowwise rt f sel a) (hd : plan.Part d)
    (hagg : d.isAgg = true) (hg : g < G.ngroups)
    (halone : eval rt G.frame (.ids [g]) (plan.rewrite d) = G.meaning g d) :
    ∃ p, plan.aggs.find? (fun a => d.eq a) = some p := by
  rw [← Option.isSome_iff_exists, ← Option.ne_none_iff_isSome]
  intro hnone
  -- an aggregate with a NaN in it is collected, and then evaluated over the frame
  have hmem : d ∈ plan.aggs := by
    obtain ⟨e, he, hreach⟩ := hd
    obtain ⟨p, hp, rfl | heq⟩ := Select.aggs_covers he hreach hagg
    · exact hp
    · exact absurd heq (List.find?_eq_none.mp hnone p hp)
  have hpats : plan.pats.find? (fun p => d.eq p.1) = none := by
    refine List.find?_eq_none.mpr fun p hp heq => ?_
    rcases List.mem_append.mp hp with hp | hp
    · obtain ⟨q, hq, rfl⟩ := List.mem_map.mp hp
      exact List.find?_eq_none.mp hnone _ (List.fst_mem_of_mem_zipIdx hq) heq
    · obtain ⟨q, hq, rfl⟩ := List.mem_map.mp hp
      have hplain := G.keys_plain _ (List.fst_mem_of_mem_zipIdx hq) _ (Expr.mem_subexprs_self _)
      rw [← Expr.isAgg_of_eq heq, hagg] at hplain
      cases hplain
  have hbail : ∃ m, eval rt G.frame (.ids [g]) (plan.rewrite d) = bail m := by
    rw [Select.rewrite, Expr.substitute.eq_def, hpats]
    cases d with
    | agg func arg distinct => exact ⟨_, eval_agg rt G.frame (.ids [g]) func _ distinct⟩
    | _ => cases hagg
  obtain ⟨m, hm⟩ := hbail
  obtain ⟨j, hj⟩ := List.getElem?_of_mem hmem
  obtain ⟨c, -, hstores⟩ := G.agg_column hj (hrow d hmem)
  refine hstores.not_bail hg m ?_
  rw [← hm, halone, meaning, evalWith_leaf (G.leaf_agg hagg g)]

/-- What an aggregate or a key is rewritten to is a column of its values, once aggregates that
compare equal have equal values. -/
theorem leaf_stored {d : Expr} (hrow : ∀ p ∈ plan.aggs, ∀ a ∈ p.children, Rowwise rt f sel a)
    (hident : d.isAgg = true → ∀ g, g < G.ngroups →
      ∃ p, plan.aggs.find? (fun a => d.eq a) = some p ∧ G.aggIn g d = G.aggIn g p)
    (hpos : 0 < G.ngroups) :
    (∃ c vals, (∀ g, G.leaf g d = some (vals g)) ∧ Stores G.ngroups c vals ∧
      ∀ g, eval rt G.frame (.ids [g]) (plan.rewrite d) = gather c (.ids [g])) ∨
    ∀ g, G.leaf g d = none := by
  cases hagg : d.isAgg with
  | true =>
    obtain ⟨p, hp, -⟩ := hident hagg 0 hpos
    obtain ⟨c, hstores, heval⟩ := G.agg_rewritten hp (hrow p (List.mem_of_find?_eq_some hp))
    refine .inl ⟨c, fun g => G.aggIn g d, G.leaf_agg hagg, hstores.congr fun g hg => ?_, heval⟩
    obtain ⟨q, hq, heq⟩ := hident hagg g hg
    rw [hp] at hq
    rw [heq, Option.some.inj hq]
  | false =>
    rcases G.leaf_cases hagg with hstored | ⟨hnone, -, -⟩
    · exact .inl hstored
    · exact .inr hnone

theorem leaf_reads_iff {d : Expr} (hrow : ∀ p ∈ plan.aggs, ∀ a ∈ p.children, Rowwise rt f sel a)
    (hident : d.isAgg = true → ∀ g, g < G.ngroups →
      ∃ p, plan.aggs.find? (fun a => d.eq a) = some p ∧ G.aggIn g d = G.aggIn g p) :
    (∀ g, g < G.ngroups → ∀ r, G.leaf g d = some r →
      eval rt G.frame (.ids [g]) (plan.rewrite d) = r) ↔
    ∀ texts : List String, texts.length = G.ngroups →
      (∀ g s, texts[g]? = some s → G.leaf g d = some (.ok (.str [s]))) →
        StrColumn.textBytes texts < 2 ^ 32 := by
  rcases Nat.eq_zero_or_pos G.ngroups with hzero | hpos
  · refine iff_of_true (fun g hg => by omega) fun texts hlen _ => ?_
    obtain rfl := List.length_eq_zero_iff.mp (hlen.trans hzero)
    decide
  · rcases G.leaf_stored hrow hident hpos with ⟨c, vals, hvals, hstores, heval⟩ | hnone
    · simp only [hvals, heval, Option.some.injEq, forall_eq']
      exact hstores.reads_iff
    · refine iff_of_true (fun g _ r hr => ?_) fun texts hlen hleaf => ?_
      · cases (hnone g).symm.trans hr
      · have hs := List.getElem?_eq_getElem (hlen.symm ▸ hpos : 0 < texts.length)
        cases (hnone 0).symm.trans (hleaf 0 _ hs)

theorem alone_iff (hill : ¬ plan.IllGrouped)
    (hrow : ∀ p ∈ plan.aggs, ∀ a ∈ p.children, Rowwise rt f sel a) :
    (∀ d, plan.Part d → ∀ g, g < G.ngroups →
      eval rt G.frame (.ids [g]) (plan.rewrite d) = G.meaning g d) ↔
    (∀ d, plan.Part d → d.isAgg = true → ∀ g, g < G.ngroups →
      ∃ p, plan.aggs.find? (fun a => d.eq a) = some p ∧ G.aggIn g d = G.aggIn g p) ∧
    (∀ d, plan.Part d → ∀ texts : List String, texts.length = G.ngroups →
      (∀ g s, texts[g]? = some s → G.leaf g d = some (.ok (.str [s]))) →
        StrColumn.textBytes texts < 2 ^ 32) := by
  constructor
  · intro h
    have hident : ∀ d, plan.Part d → d.isAgg = true → ∀ g, g < G.ngroups →
        ∃ p, plan.aggs.find? (fun a => d.eq a) = some p ∧ G.aggIn g d = G.aggIn g p := by
      intro d hd hagg g hg
      obtain ⟨p, hp⟩ := G.found_of_alone hrow hd hagg hg (h d hd g hg)
      have hmem := List.mem_of_find?_eq_some hp
      have hfirst := h p (part_self G hmem) g hg
      rw [← rewrite_first hp, h d hd g hg, meaning, evalWith_leaf (G.leaf_agg hagg g),
        evalWith_leaf (G.leaf_agg (plan.aggs_isAgg p hmem) g)] at hfirst
      exact ⟨p, hp, hfirst⟩
    refine ⟨hident, fun d hd => (G.leaf_reads_iff hrow (hident d hd)).mp fun g hg r hr => ?_⟩
    rw [h d hd g hg, meaning, evalWith_leaf hr]
  · rintro ⟨hident, htexts⟩ d ⟨e, he, hreach⟩ g hg
    refine G.eval_rewrite (fun i hi => hill ⟨i, e, he, hreach.stray hi⟩) fun b r hb hr => ?_
    have hpart : plan.Part b := ⟨e, he, hreach.trans hb⟩
    exact (G.leaf_reads_iff hrow (hident b hpart)).mpr (htexts b hpart) g hg r hr

theorem part_of_rewritten {e x : Expr}
    (hfound : ∀ d, Reached plan.groupBy e d → d.isAgg = true →
      ∃ p, plan.aggs.find? (fun a => d.eq a) = some p)
    (hx : x ∈ (plan.rewrite e).subexprs) :
    ∃ d, Reached plan.groupBy e d ∧ plan.rewrite d = x := by
  induction e using Expr.induct_children with
  | step e ih =>
    rcases Expr.mem_subexprs.mp hx with rfl | ⟨c, hc, hxc⟩
    · exact ⟨e, .self e, rfl⟩
    cases hpats : plan.pats.find? (fun p => e.eq p.1) with
    | some p =>
      obtain ⟨i, hi⟩ : ∃ i, plan.rewrite e = .col i := by
        have hmap := plan.find_pats e
        rw [hpats] at hmap
        have hcol : ∃ i, p.2 = .col i := by
          rcases Option.or_eq_some_iff.mp hmap.symm with h | ⟨-, h⟩
          · obtain ⟨j, -, hj⟩ := Option.map_eq_some_iff.mp h
            exact ⟨_, hj.symm⟩
          · obtain ⟨j, -, hj⟩ := Option.map_eq_some_iff.mp h
            exact ⟨_, hj.symm⟩
        obtain ⟨i, hi⟩ := hcol
        exact ⟨i, Select.rewrite_found (by rw [hpats, Option.map_some, hi])⟩
      rw [hi] at hc
      cases hc
    | none =>
      have hmiss := List.find?_eq_none.mp hpats
      have hagg : e.isAgg = false := by
        rw [← Bool.not_eq_true]
        intro hagg
        obtain ⟨p, hp⟩ := hfound e (.self e) hagg
        obtain ⟨j, hj⟩ := List.getElem?_of_mem (List.mem_of_find?_eq_some hp)
        refine hmiss (p, .col (plan.groupBy.length + j)) ?_ (List.find?_some hp)
        exact List.mem_append_left _ (List.mem_map.mpr
          ⟨(p, j), List.mem_zipIdx_iff_getElem?.mpr hj, rfl⟩)
      have hkey : ∀ k ∈ plan.groupBy, e.eq k = false := by
        intro k hk
        rw [← Bool.not_eq_true]
        obtain ⟨i, hi⟩ := List.getElem?_of_mem hk
        exact hmiss (k, .col i) (List.mem_append_right _ (List.mem_map.mpr
          ⟨(k, i), List.mem_zipIdx_iff_getElem?.mpr hi, rfl⟩))
      rw [Select.rewrite, Expr.children_substitute hpats] at hc
      obtain ⟨b, hb, rfl⟩ := List.mem_map.mp hc
      obtain ⟨d, hd, hdx⟩ := ih b hb (fun d hd => hfound d (.child hagg hkey hb hd)) hxc
      exact ⟨d, .child hagg hkey hb hd, hdx⟩

/-- Over the groups, too, an expression is row-local with its parts exactly when its calls
agree on what they share. -/
theorem rowLocal_iff_calls (hs : s.Within G.ngroups)
    (hfound : ∀ d, plan.Part d → d.isAgg = true → 0 < G.ngroups →
      ∃ p, plan.aggs.find? (fun a => d.eq a) = some p) :
    (∀ d, plan.Part d → RowLocal rt G.frame s (plan.rewrite d)) ↔
      ∀ d, plan.Part d → SharedAgrees rt G.frame s (plan.rewrite d) := by
  rcases Nat.eq_zero_or_pos G.ngroups with hzero | hpos
  · have hlen := (hzero ▸ hs : s.Within 0).len_zero
    refine iff_of_true (fun d _ a _ i hi => ?_) fun d _ func args _ _ i _ _ _ _ hi => ?_ <;> omega
  have hsub : ∀ {P : Expr → Prop}, (∀ d, plan.Part d → P (plan.rewrite d)) → ∀ d, plan.Part d →
      ∀ x ∈ (plan.rewrite d).subexprs, P x := by
    rintro P h d ⟨e, he, hreach⟩ x hx
    obtain ⟨b, hb, rfl⟩ := part_of_rewritten
      (fun b hb hagg => hfound b ⟨e, he, hreach.trans hb⟩ hagg hpos) hx
    exact h b ⟨e, he, hreach.trans hb⟩
  constructor
  · intro h d hd
    exact (rowLocal_iff_agrees rt G.frame s _ (G.covers hs)).mp (hsub h d hd) _
      (Expr.mem_subexprs_self _)
  · intro h d hd
    exact (rowLocal_iff_agrees rt G.frame s _ (G.covers hs)).mpr (hsub h d hd) _
      (Expr.mem_subexprs_self _)

theorem means_iff {d : Expr} (hs : s.Within G.ngroups)
    (halone : ∀ g, g < G.ngroups → eval rt G.frame (.ids [g]) (plan.rewrite d) = G.meaning g d) :
    G.Means s d ↔ RowLocal rt G.frame s (plan.rewrite d) := by
  refine forall_congr' fun a => forall_congr' fun _ => forall_congr' fun i =>
    forall_congr' fun hi => ?_
  constructor
  · rintro ⟨r, b, v, hr, hb, hv⟩
    exact ⟨r, b, v, hr, (halone r (hs.row_lt hi hr)).trans hb, hv⟩
  · rintro ⟨r, b, v, hr, hb, hv⟩
    exact ⟨r, b, v, hr, (halone r (hs.row_lt hi hr)).symm.trans hb, hv⟩

/-- Rewriting keeps the meaning of the answer in every group exactly when calls agree on the
arguments they share, equal aggregates have equal values, and texts fit. -/
theorem preserved_iff_faithful (G : Grouping rt plan f sel) (s : Sel) (hcov : sel.Covers f)
    (hill : ¬ plan.IllGrouped) (hs : s.Within G.ngroups) : G.Preserved s ↔ G.Faithful s := by
  have harguments : (∀ p ∈ plan.aggs, ∀ a ∈ p.children, ∀ c ∈ a.subexprs, RowLocal rt f sel c) ↔
      ∀ p ∈ plan.aggs, ∀ a ∈ p.children, ∀ c ∈ a.subexprs, SharedAgrees rt f sel c :=
    forall₂_congr fun p _ => forall₂_congr fun a _ => rowLocal_iff_agrees rt f sel a hcov
  constructor
  · intro h
    have hargs := harguments.mp h.arguments
    have hrow : ∀ p ∈ plan.aggs, ∀ a ∈ p.children, Rowwise rt f sel a :=
      fun p hp a ha => rowwise_of_agrees hcov a (hargs p hp a ha)
    obtain ⟨hident, htexts⟩ := (alone_iff hill hrow).mp h.alone
    refine ⟨hargs, ?_, hident, htexts⟩
    refine (rowLocal_iff_calls hs fun d hd hagg hpos => ?_).mp fun d hd => ?_
    · exact (hident d hd hagg 0 hpos).imp fun p hp => hp.1
    · exact (means_iff hs (h.alone d hd)).mp (h.together d hd)
  · intro h
    have hrow : ∀ p ∈ plan.aggs, ∀ a ∈ p.children, Rowwise rt f sel a :=
      fun p hp a ha => rowwise_of_agrees hcov a (h.arguments p hp a ha)
    have halone := (alone_iff hill hrow).mpr ⟨h.identified, h.texts⟩
    refine ⟨harguments.mpr h.arguments, halone, fun d hd => ?_⟩
    refine (means_iff hs (halone d hd)).mpr ?_
    refine (rowLocal_iff_calls hs fun d hd hagg hpos => ?_).mpr h.calls d hd
    exact (h.identified d hd hagg 0 hpos).imp fun p hp => hp.1

end

end Grouping

/-- `SELECT date_trunc(u, sum(x)) FROM t GROUP BY u` -/
def unitPlan : Select where
  table := some "t"
  filter := none
  groupBy := [.col 0]
  having := none
  projection := [⟨.func .dateTrunc [.col 0, .agg .sum (some (.col 1)) false], "date_trunc"⟩]
  orderBy := []
  limit := none
  offset := 0

/-- The groups `minute` and `hour`, each with the sum 3725. -/
def unitGroups : Grouping plainRuntime unitPlan unitFrame (.all 2) where
  keys := [.str ["minute", "hour"]]
  groupOf := [0, 1]
  ngroups := 2
  columns := unitFrame.cols
  keys_eq := by decide +kernel
  groups_eq := by decide +kernel
  columns_eq := by decide +kernel

theorem unitPlan_grouped : ¬ unitPlan.IllGrouped := by
  rintro ⟨i, e, he, hstray⟩
  obtain rfl := List.mem_singleton.mp he
  cases hstray with
  | child _ _ hc h =>
    rcases List.mem_pair.mp hc with rfl | rfl
    · cases h with
      | col hkey => exact absurd (hkey (.col 0) (List.mem_singleton_self _)) (by decide)
      | child _ _ hc _ => cases hc
    · cases h with
      | child _ hagg _ _ => cases hagg

theorem covers_unitFrame : (Sel.all 2).Covers unitFrame := by
  rintro n hn c hc
  obtain rfl := Sel.all.inj hn
  revert c
  decide

theorem preserved_iff_faithful_units :
    unitGroups.Preserved (.all 2) ↔ unitGroups.Faithful (.all 2) :=
  Grouping.preserved_iff_faithful unitGroups (.all 2) covers_unitFrame unitPlan_grouped rfl

theorem dateTrunc_takes_first_group : ¬ unitPlan.IllGrouped ∧
    ∃ e ∈ unitPlan.outputs, ¬ unitGroups.Means (.all unitGroups.ngroups) e := by
  refine ⟨unitPlan_grouped, _, List.mem_singleton_self _, fun h => ?_⟩
  have hall : eval plainRuntime unitGroups.frame (.all 2) (unitPlan.rewrite
      (.func .dateTrunc [.col 0, .agg .sum (some (.col 1)) false])) =
        .ok (.i64 [3720, 3720]) := by decide +kernel
  have hone : unitGroups.meaning 1
      (.func .dateTrunc [.col 0, .agg .sum (some (.col 1)) false]) = .ok (.i64 [3600]) := by
    decide +kernel
  obtain ⟨r, b, v, hr, hb, hbv, hav⟩ := h _ hall 1 (by decide)
  obtain rfl := Except.ok.inj hr
  obtain rfl := Except.ok.inj (hone.symm.trans hb)
  have hvalue := Except.ok.inj (hbv.trans hav.symm)
  revert hvalue
  decide

end Veldb
