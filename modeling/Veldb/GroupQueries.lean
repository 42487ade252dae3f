import Veldb.AggregateMeaning
import Veldb.GroupPartition
import Veldb.GroupSemantics
import Veldb.QueryTypes
import Veldb.RowQueries

/-! A query gives the answer over the rows of its table. With groups, a row of the frame of keys and
aggregates stands for the rows of one group, and the rewritten expressions have there the values
that the expressions themselves have for these rows. -/

namespace Veldb

open Attempts Arr Comparisons FirstOccurrences

section Marks

variable {α : Type}

theorem marked_map (p : α → Bool) (l : List α) : marked l (l.map p) = l.filter p := by
  induction l with
  | nil => rfl
  | cons a l ih => rw [List.map_cons, marked_cons, ih, List.filter_cons]

theorem members_eq_marked (groupOf : List Nat) (g : Nat) :
    members groupOf g = marked (List.range groupOf.length) (groupOf.map (· == g)) := by
  have hmap : groupOf.map (· == g) =
      (List.range groupOf.length).map (fun i => groupOf[i]? == some g) := by
    refine List.ext_getElem (by simp) fun i hi hi' => ?_
    have hlt : i < groupOf.length := by simpa using hi
    simp [hlt]
  rw [hmap, marked_map]
  rfl

/-- The places of one key. -/
theorem members_numbers {κ : Type} [BEq κ] [LawfulBEq κ] {l : List κ} {k : κ} {g : Nat}
    (hg : (firsts l)[g]? = some k) :
    members (numbers l) g = marked (List.range l.length) (l.map (· == k)) := by
  obtain ⟨hlt, rfl⟩ := List.getElem?_eq_some_iff.mp hg
  rw [members_eq_marked, length_numbers, numbers, List.map_map]
  congr 1
  refine List.map_congr_left fun x hx => ?_
  rw [Bool.eq_iff_iff, Function.comp_apply, beq_iff_eq, beq_iff_eq]
  constructor
  · rintro rfl
    exact (List.getElem_idxOf _).symm
  · rintro rfl
    exact (nodup_firsts l).idxOf_getElem g hlt

end Marks

theorem rowKeys_of_assign {keys : List Arr} {is : List Nat} {s s' : List (Bytes × Nat) × List Nat}
    (h : is.foldlM (assignStep keys) s = .ok s') : ∃ bufs, is.mapM (rowKey keys) = .ok bufs := by
  induction is generalizing s with
  | nil => exact ⟨[], rfl⟩
  | cons i is ih =>
    rw [List.foldlM_cons] at h
    obtain ⟨s₁, hstep, h⟩ := bind_eq_ok.mp h
    obtain ⟨b, hb, -⟩ := bind_eq_ok.mp hstep
    obtain ⟨bufs, hbufs⟩ := ih h
    exact ⟨b :: bufs, by rw [List.mapM_cons, hb, ok_bind, hbufs]; rfl⟩

/-- A column that no row is read of is any column of its type. -/
theorem reads_empty {c : Column} {s : Sel} (hs : s.len = 0) (hc : ∀ n, s = .all n → c.len = n) :
    c.Reads (Column.empty c.dataType) s (.all 0) := by
  have hdense : ∀ {α : Type} (mk : List α → Arr) (v : List α), (∀ n, s = .all n → v.length = n) →
      gatherDense mk v s = .ok (mk []) := by
    intro α mk v hv
    cases s with
    | all n =>
      obtain rfl : n = 0 := hs
      rw [gatherDense, List.length_eq_zero_iff.mp (hv 0 rfl)]
    | ids ids =>
      obtain rfl := List.length_eq_zero_iff.mp hs
      rfl
  cases c with
  | i64 v => exact ⟨hdense _ v hc, fun _ _ _ => rfl⟩
  | f64 v => exact ⟨hdense _ v hc, fun _ _ _ => rfl⟩
  | bool v => exact ⟨hdense _ v hc, fun _ _ _ => rfl⟩
  | str t =>
    refine ⟨?_, fun _ _ _ => rfl⟩
    simp only [gather, hs]
    rfl
  | vector dim data =>
    refine ⟨?_, fun rt metric q => ?_⟩
    · simp only [gather, hs]
      rfl
    · simp only [distances, hs]
      rfl

section Groups

variable {rt : Runtime} {plan : Select} {f : Frame} {sel : Sel} {rows picked : List (List Value)}
  (G : Grouping rt plan f sel)

theorem gives_rows (hrows : f.HoldsRows rows) {e : Expr} (he : e.SharesLiterals) :
    f.Gives rt (cell rt) rows e e :=
  ⟨he, fun i row hi => eval_row (hrows i row hi) e⟩

namespace Grouping

/-- The keys of a row are its entries in the keys of the selection. -/
theorem rowKeys_at (hrows : f.HoldsRows rows) (hcov : sel.Covers f) (hat : Stands rows sel.rows picked)
    (hkeys : ∀ k ∈ plan.groupBy, k.SharesLiterals) {i : Nat} {row : List Value}
    (hi : picked[i]? = some row) :
    ∃ ks, plan.rowKeys rt row = .ok ks ∧ G.keys.mapM (fun k => k.row i) = .ok ks := by
  have hall := mapM_eq_ok.mp G.keys_eq
  unfold Select.rowKeys
  generalize G.keys = keys at hall
  generalize plan.groupBy = groupBy at hall hkeys
  induction hall with
  | nil => exact ⟨[], rfl, rfl⟩
  | @cons k key groupBy keys hk _ ih =>
    obtain ⟨hlit, hlits⟩ := List.forall_mem_cons.mp hkeys
    obtain ⟨v, hv, hcell⟩ := eval_stands (gives_rows hrows hlit) hcov hat hk hi
    obtain ⟨ks, hks, hks'⟩ := ih hlits
    refine ⟨v :: ks, ?_, ?_⟩
    · rw [List.mapM_cons, hcell, hks]
      rfl
    · rw [List.mapM_cons, hv, hks']
      rfl

/-- No row has a key whose text is beyond the 32 bits of its length. -/
def ShortKeys (rt : Runtime) (plan : Select) (picked : List (List Value)) : Prop :=
  ∀ row ∈ picked, ∀ k ∈ plan.groupBy, ∀ s, cell rt row k = .ok (.str [s]) → (utf8 s).length < 2 ^ 32

theorem short_keys (hrows : f.HoldsRows rows) (hcov : sel.Covers f) (hat : Stands rows sel.rows picked)
    (hkeys : ∀ k ∈ plan.groupBy, k.SharesLiterals) (hshort : ShortKeys rt plan picked)
    (hpos : 0 < sel.len) : ∀ k ∈ G.keys, k.Short := by
  rintro key hkey v rfl s hs
  obtain ⟨k, hk, heval⟩ := exists_of_mem_mapM G.keys_eq hkey
  obtain ⟨i, hi, hpick⟩ : ∃ i < sel.len, pick v i = .ok s := by
    rcases eval_sized heval with hlen | hlen
    · obtain ⟨i, hi, rfl⟩ := List.mem_iff_getElem.mp hs
      exact ⟨i, hlen ▸ hi, pick_of_index hlen (hlen ▸ hi) (index_eq_ok.mpr (List.getElem?_eq_getElem hi))⟩
    · obtain ⟨x, rfl⟩ := List.length_eq_one_iff.mp hlen
      obtain rfl := List.mem_singleton.mp hs
      exact ⟨0, hpos, rfl⟩
  have hplace := List.getElem?_eq_getElem ((stands_length hat).symm ▸ hi : i < picked.length)
  obtain ⟨c, hc, hcell⟩ := eval_stands (gives_rows hrows (hkeys k hk)) hcov hat heval hplace
  obtain rfl := Except.ok.inj (hc.symm.trans (row_str.mpr ⟨s, hpick, rfl⟩))
  exact hshort _ (List.mem_of_getElem? hplace) k hk s hcell

/-- The groups of the rows are the groups of the numbers that stand for them. -/
theorem groups_eq_members (hrows : f.HoldsRows rows) (hcov : sel.Covers f)
    (hat : Stands rows sel.rows picked) (hkeys : ∀ k ∈ plan.groupBy, k.SharesLiterals)
    (hshort : ShortKeys rt plan picked) (hn : sel.len < 2 ^ 32) :
    ∃ gs, plan.groups rt picked = .ok gs ∧ gs.length = G.ngroups ∧
      ∀ (g : Nat) group, gs[g]? = some group →
        Stands picked (members G.groupOf g) group ∧ (group = [] → sel.len = 0) := by
  have hlen := stands_length hat
  have hassign := G.groups_eq
  unfold Select.groups
  by_cases hnone : plan.groupBy = []
  · have hnokeys : G.keys = [] := List.length_eq_zero_iff.mp (by rw [G.length_keys, hnone]; rfl)
    rw [hnokeys] at hassign
    obtain ⟨hgroup, hcount⟩ := Prod.mk.inj (Except.ok.inj hassign)
    rw [hnone]
    refine ⟨[picked], rfl, hcount, fun g group hg => ?_⟩
    obtain ⟨rfl, rfl⟩ : g = 0 ∧ picked = group := by
      cases g with
      | zero => exact ⟨rfl, Option.some.inj hg⟩
      | succ g => cases hg
    have hall : members G.groupOf 0 = List.range picked.length := by
      rw [← hgroup, members_eq_marked, List.map_replicate, List.length_replicate, hlen]
      have hconst := marked_const (List.range sel.len) true
      rwa [List.length_range] at hconst
    refine ⟨hall ▸ stands_range picked, ?_⟩
    rintro rfl
    exact hlen.symm
  · have hkne : G.keys ≠ [] := by
      intro h
      have hlk := G.length_keys
      rw [h] at hlk
      exact hnone (List.length_eq_zero_iff.mp hlk.symm)
    obtain ⟨bufs, hbufs⟩ : ∃ bufs, (List.range sel.len).mapM (rowKey G.keys) = .ok bufs := by
      rw [assignGroups, if_neg (by simpa using hkne)] at hassign
      obtain ⟨s, hs, -⟩ := bind_eq_ok.mp hassign
      exact rowKeys_of_assign hs
    obtain ⟨hgroupOf, hcount⟩ := Prod.mk.inj (Except.ok.inj
      ((assignGroups_eq hkne hn hbufs).symm.trans hassign))
    obtain ⟨kl, hkl⟩ : ∃ kl, picked.mapM (plan.rowKeys rt) = .ok kl := by
      refine mapM_total fun row hrow => ?_
      obtain ⟨i, hi⟩ := List.getElem?_of_mem hrow
      obtain ⟨ks, hks, -⟩ := G.rowKeys_at hrows hcov hat hkeys hi
      exact ⟨ks, hks⟩
    have hkl_len := mapM_length hkl
    have hblen := mapM_range_length hbufs
    have hentry : ∀ i, i < kl.length →
        ∃ ks, kl[i]? = some ks ∧ G.keys.mapM (fun k => k.row i) = .ok ks := by
      intro i hi
      have hip : i < picked.length := hkl_len ▸ hi
      obtain ⟨ks, hks, hget⟩ := mapM_getElem hkl hip
      obtain ⟨ks', hks', hrow⟩ := G.rowKeys_at hrows hcov hat hkeys (List.getElem?_eq_getElem hip)
      obtain rfl := Except.ok.inj (hks.symm.trans hks')
      exact ⟨ks, hget, hrow⟩
    have hsame : ∀ i j, i < kl.length → j < kl.length → (kl[i]? = kl[j]? ↔ bufs[i]? = bufs[j]?) := by
      intro i j hi hj
      have hin : i < sel.len := by omega
      have hjn : j < sel.len := by omega
      have hlong := G.short_keys hrows hcov hat hkeys hshort (Nat.zero_lt_of_lt hin)
      obtain ⟨ki, hki, hrowi⟩ := hentry i hi
      obtain ⟨kj, hkj, hrowj⟩ := hentry j hj
      have hib : i < bufs.length := by omega
      rw [← numbers_eq_iff (l := bufs) hib, sameGroup_iff hlong hbufs hin hjn, hki, hkj,
        Option.some.injEq]
      constructor
      · rintro rfl k hk
        obtain ⟨n, hn, rfl⟩ := List.mem_iff_getElem.mp hk
        obtain ⟨v, hv, hgetv⟩ := mapM_getElem hrowi hn
        obtain ⟨w, hw, hgetw⟩ := mapM_getElem hrowj hn
        rw [hv, hw, Option.some.inj (hgetv.symm.trans hgetw)]
      · intro h
        exact Except.ok.inj (hrowi.symm.trans ((mapM_congr h).trans hrowj))
    obtain ⟨hnumbers, hfirsts⟩ := numbers_congr (by omega) hsame
    rw [if_neg (by simpa using hnone), hkl]
    refine ⟨_, rfl, ?_, fun g group hg => ?_⟩
    · rw [List.length_map, hfirsts, hcount]
    · rw [List.getElem?_map] at hg
      obtain ⟨k, hk, rfl⟩ := Option.map_eq_some_iff.mp hg
      have hmem : members G.groupOf g = marked (List.range picked.length) (kl.map (· == k)) := by
        rw [← hgroupOf, ← hnumbers, members_numbers hk, hkl_len]
      have hstands := stands_marked (stands_range picked) (kl.map (· == k))
      rw [← hmem] at hstands
      refine ⟨hstands, fun hempty => ?_⟩
      obtain ⟨i, hi⟩ := exists_of_lt (List.getElem?_eq_some_iff.mp hk).1
      rw [hnumbers, hgroupOf] at hi
      rw [hempty] at hstands
      have hno := List.length_eq_zero_iff.mp hstands.length_eq
      have hin := mem_members.mpr hi
      rw [hno] at hin
      cases hin

theorem argOf_eq_rows {group : List (List Value)} {is : List Nat} (hrows : f.HoldsRows rows)
    (hcov : sel.Covers f) (hat : Stands rows sel.rows picked) (hgroup : Stands picked is group)
    (hempty : group = [] → sel.len = 0) (a : Expr) :
    argOf rt f sel is a = argRows rt f.types group a := by
  have hcells : is.mapM (fun i => do eval rt f (.ids [← sel.row i]) a) = group.mapM (cell rt · a) := by
    clear hempty
    induction hgroup with
    | nil => rfl
    | @cons i row is group hi _ ih =>
      obtain ⟨r, hr, -, hrow⟩ := stands_row hat hi
      rw [List.mapM_cons, List.mapM_cons, ih, hr, ok_bind, eval_row (hrows r row hrow) a]
  unfold argOf argRows
  rw [hcells]
  refine bind_congr_ok fun cells hcells => ?_
  cases cells with
  | cons c cells => rfl
  | nil =>
    have hnone := hempty (List.length_eq_zero_iff.mp (mapM_length hcells).symm)
    have hsame : eval rt f sel a = eval rt ⟨f.types.map Column.empty⟩ (.all 0) a := by
      refine eval_reads ?_ hnone a
      rw [Frame.types, List.map_map]
      refine List.forall₂_map_right_iff.mpr (List.forall₂_same.mpr fun c hc => ?_)
      exact reads_empty hnone fun n hall => hcov n hall c hc
    change (eval rt f sel a >>= fun v => v.select []) = _
    rw [hsame]

theorem aggOf_eq_rows {group : List (List Value)} {is : List Nat} (hrows : f.HoldsRows rows)
    (hcov : sel.Covers f) (hat : Stands rows sel.rows picked) (hgroup : Stands picked is group)
    (hempty : group = [] → sel.len = 0) (d : Expr) :
    aggOf rt f sel is d = aggRows rt f.types group d := by
  cases d with
  | agg func arg distinct =>
    cases arg with
    | none => rw [aggOf, aggRows, hgroup.length_eq]
    | some a =>
      cases distinct <;> cases func <;>
        rw [aggOf, aggRows, argOf_eq_rows hrows hcov hat hgroup hempty, hgroup.length_eq]
  | _ => rfl

/-- Aggregates and keys of a group are those of its rows. -/
theorem leaf_eq_rows {g : Nat} {group : List (List Value)} (hrows : f.HoldsRows rows)
    (hcov : sel.Covers f) (hat : Stands rows sel.rows picked)
    (hkeys : ∀ k ∈ plan.groupBy, k.SharesLiterals)
    (hgroup : Stands picked (members G.groupOf g) group) (hempty : group = [] → sel.len = 0)
    (d : Expr) : G.leaf g d = groupLeaf rt plan f.types group d := by
  unfold leaf leafOf groupLeaf
  cases hagg : d.isAgg with
  | true => simp only [if_true, aggOf_eq_rows hrows hcov hat hgroup hempty]
  | false =>
    simp only [Bool.false_eq_true, if_false]
    cases hfind : plan.groupBy.findIdx? (fun k => d.eq k) with
    | none =>
      have hnone : plan.groupBy.find? (fun k => d.eq k) = none :=
        List.find?_eq_none.mpr fun k hk => by simpa using List.findIdx?_eq_none_iff.mp hfind k hk
      rw [hnone, Option.map_none]
    | some i =>
      obtain ⟨hi, heq, hfirst⟩ := List.findIdx?_eq_some_iff_getElem.mp hfind
      have hsome : plan.groupBy.find? (fun k => d.eq k) = some plan.groupBy[i] :=
        List.find?_eq_some_iff_getElem.mpr ⟨heq, i, hi, rfl, fun j hj => by simpa using hfirst j hj⟩
      obtain ⟨key, heval, hkey⟩ := mapM_getElem G.keys_eq hi
      simp only [hkey, hsome, Option.map_some, keyOf, keyRows]
      generalize members G.groupOf g = is at hgroup
      cases hgroup with
      | nil => rfl
      | @cons i row is group hrow _ =>
        obtain ⟨v, hv, hcell⟩ :=
          eval_stands (gives_rows hrows (hkeys _ (List.getElem_mem hi))) hcov hat heval hrow
        simp only [List.head?_cons, hv, hcell]

end Grouping

/-- Expressions that are taken for the same aggregate are the same. -/
def Select.TellsApart (plan : Select) : Prop :=
  ∀ d, plan.Part d → d.isAgg = true → d.eq d = true ∧ ∀ p ∈ plan.aggs, d.eq p = true → p = d

/-- No column of the frame of the groups gets texts beyond its arena. -/
def TextsFit (rt : Runtime) (plan : Select) (types : List DataType) (gs : List (List (List Value))) :
    Prop :=
  ∀ d, plan.Part d → ∀ texts : List String, texts.length = gs.length →
    (∀ (g : Nat) s group, texts[g]? = some s → gs[g]? = some group →
      groupLeaf rt plan types group d = some (.ok (.str [s]))) → StrColumn.textBytes texts < 2 ^ 32

/-- The frame of the groups gives every output the value it has for the rows of the group. -/
theorem gives_groups {gs : List (List (List Value))} (hrows : f.HoldsRows rows) (hcov : sel.Covers f)
    (hat : Stands rows sel.rows picked) (hkeys : ∀ k ∈ plan.groupBy, k.SharesLiterals)
    (hargs : ∀ p ∈ plan.aggs, ∀ a ∈ p.children, a.SharesLiterals)
    (hill : ¬ plan.IllGrouped) (hapart : plan.TellsApart) (hfit : TextsFit rt plan f.types gs)
    (hlen : gs.length = G.ngroups) (hgroups : ∀ (g : Nat) group, gs[g]? = some group →
      Stands picked (members G.groupOf g) group ∧ (group = [] → sel.len = 0))
    {e : Expr} (he : e ∈ plan.outputs) (hlit : (plan.rewrite e).SharesLiterals) :
    G.frame.Gives rt (groupCell rt plan f.types) gs (plan.rewrite e) e := by
  have hleaf : ∀ (g : Nat) group, gs[g]? = some group →
      G.leaf g = groupLeaf rt plan f.types group := fun g group hg =>
    funext (G.leaf_eq_rows hrows hcov hat hkeys (hgroups g group hg).1 (hgroups g group hg).2)
  have hrowwise : ∀ p ∈ plan.aggs, ∀ a ∈ p.children, Rowwise rt f sel a := fun p hp a ha =>
    rowwise_of_agrees hcov a (agrees_of_literals a (hargs p hp a ha))
  have hident : ∀ d, plan.Part d → d.isAgg = true → ∀ g, g < G.ngroups →
      ∃ p, plan.aggs.find? (fun a => d.eq a) = some p ∧ G.aggIn g d = G.aggIn g p := by
    intro d hd hagg g hg
    obtain ⟨hself, hsame⟩ := hapart d hd hagg
    obtain ⟨e, he, hreach⟩ := hd
    obtain ⟨q, hq, hqd⟩ := Select.aggs_covers he hreach hagg
    have heq : d.eq q = true := by
      rcases hqd with rfl | heq
      · exact hself
      · exact heq
    obtain ⟨p, hp⟩ : ∃ p, plan.aggs.find? (fun a => d.eq a) = some p := by
      rw [← Option.isSome_iff_exists, List.find?_isSome]
      exact ⟨q, hq, heq⟩
    obtain rfl := hsame p (List.mem_of_find?_eq_some hp) (List.find?_some hp)
    exact ⟨p, hp, rfl⟩
  have htexts : ∀ d, plan.Part d → ∀ texts : List String, texts.length = G.ngroups →
      (∀ g s, texts[g]? = some s → G.leaf g d = some (.ok (.str [s]))) →
        StrColumn.textBytes texts < 2 ^ 32 := by
    intro d hd texts htl hvals
    refine hfit d hd texts (htl.trans hlen.symm) fun g s group hs hg => ?_
    rw [← hleaf g group hg]
    exact hvals g s hs
  refine ⟨hlit, fun g group hg => ?_⟩
  have hlt : g < G.ngroups := hlen ▸ (List.getElem?_eq_some_iff.mp hg).1
  have halone := (Grouping.alone_iff (G := G) hill hrowwise).mpr ⟨hident, htexts⟩ e
    ⟨e, he, .self e⟩ g hlt
  rw [halone, Grouping.meaning, hleaf g group hg, groupCell]

end Groups

section Outputs

variable {plan : Select}

theorem projection_mem_outputs {p : Projection} (h : p ∈ plan.projection) : p.expr ∈ plan.outputs :=
  List.mem_append_left _ (List.mem_map_of_mem h)

theorem having_mem_outputs {e : Expr} (h : plan.having = some e) : e ∈ plan.outputs :=
  List.mem_append_right _ (List.mem_append_left _ (by simp [h]))

theorem order_mem_outputs {k : OrderKey} (h : k ∈ plan.orderBy) : k.expr ∈ plan.outputs :=
  List.mem_append_right _ (List.mem_append_right _ (List.mem_map_of_mem h))

end Outputs

/-- What a plan keeps to besides what the planner sees to. -/
structure Select.Regular (plan : Select) : Prop where
  filter : ∀ e ∈ plan.filter, e.SharesLiterals
  keys : ∀ k ∈ plan.groupBy, k.SharesLiterals
  args : ∀ p ∈ plan.aggs, ∀ a ∈ p.children, a.SharesLiterals
  outputs : ∀ e ∈ plan.outputs,
    if plan.isAggregate then (plan.rewrite e).SharesLiterals else e.SharesLiterals
  grouped : plan.isAggregate = true → ¬ plan.IllGrouped
  apart : plan.isAggregate = true → plan.TellsApart

/-- The texts of the groups fit what the engine keeps them in. -/
def Select.Fits (rt : Runtime) (plan : Select) (types : List DataType) (rows : List (List Value)) :
    Prop :=
  plan.isAggregate = true → ∀ picked, chosen (cell rt) plan.filter rows = .ok picked →
    Grouping.ShortKeys rt plan picked ∧
      ∀ gs, plan.groups rt picked = .ok gs → TextsFit rt plan types gs

/-- A group has a row, but for the one group of a query without keys. -/
theorem assignGroups_count {keys : List Arr} {n ngroups : Nat} {groupOf : List Nat}
    (h : assignGroups keys n = .ok (groupOf, ngroups)) : ngroups ≤ max n 1 := by
  have hlen := assignGroups_length h
  unfold assignGroups at h
  by_cases hkeys : keys.isEmpty = true
  · rw [if_pos hkeys] at h
    obtain ⟨-, rfl⟩ := Prod.mk.inj (pure_eq_ok.mp h)
    exact Nat.le_max_right _ _
  · rw [if_neg hkeys] at h
    obtain ⟨s, hs, hend⟩ := bind_pure_eq_ok.mp h
    obtain ⟨rfl, rfl⟩ := Prod.mk.inj hend
    have hcount := foldlM_invariant (I := fun s => s.1.length ≤ s.2.length) (fun s i s' hstep hs => by
      obtain ⟨buf, -, hstep⟩ := bind_eq_ok.mp hstep
      cases hl : s.1.lookup buf with
      | some id =>
        rw [hl] at hstep
        obtain rfl := pure_eq_ok.mp hstep
        simp only [List.length_append]
        omega
      | none =>
        rw [hl] at hstep
        obtain rfl := pure_eq_ok.mp hstep
        simpa using hs) hs (Nat.le_refl _)
    omega

/-- The answer of a query is the answer over the rows of its table. -/
theorem runSelect_answer {rt : Runtime} {plan : Select} {table : Option Table}
    {rows : List (List Value)} (hrt : rt.Sorting) (hsel : Partitions rt.selectNthUnstableBy)
    (hlimit : ∀ k ∈ plan.limit, k < 2 ^ 63) (hoffset : plan.offset < 2 ^ 63) (hplan : plan.Regular)
    (hcols : ∀ c ∈ (sourceFrame table).cols, c.len = sourceRows table)
    (hn : sourceRows table < 2 ^ 32) (hrows : (sourceFrame table).HoldsRows rows)
    (hlen : rows.length = sourceRows table) (hfits : plan.Fits rt (sourceFrame table).types rows)
    {r : QueryResult} (h : runSelect rt plan table = .ok r) :
    plan.answer rt (sourceFrame table).types rows = .ok r.rows := by
  obtain ⟨s, hs, h⟩ := bind_eq_ok.mp h
  have hall : (Sel.all (sourceRows table)).Within (sourceRows table) := rfl
  have hwithin := runFilter_within hs
  have hcov := covers_within hcols hwithin
  have hshort := lt_of_le_of_lt (runFilter_len hs) hn
  obtain ⟨picked, hpicked, hat⟩ := chosen_of_runFilter hlen hn (covers_within hcols hall)
    (fun e he => gives_rows hrows (hplan.filter e he)) hs
  unfold Select.answer
  rw [hpicked, ok_bind]
  by_cases hagg : plan.isAggregate = true
  · rw [if_pos hagg] at h ⊢
    obtain ⟨g, hg, h⟩ := bind_eq_ok.mp h
    obtain ⟨⟨cols, n⟩, hgcols, hg⟩ := bind_eq_ok.mp hg
    obtain ⟨_, _, hpure⟩ := bind_eq_ok.mp hg
    obtain rfl := pure_eq_ok.mp hpure
    obtain ⟨G, rfl, rfl⟩ := Grouping.exists_of_columns hgcols
    obtain ⟨hkeys, htexts⟩ := hfits hagg picked hpicked
    obtain ⟨gs, hgs, hgl, hmem⟩ := G.groups_eq_members hrows hcov hat hplan.keys hkeys hshort
    have hgives : ∀ e ∈ plan.outputs, G.frame.Gives rt (groupCell rt plan (sourceFrame table).types) gs
        (plan.rewrite e) e := fun e he =>
      gives_groups G hrows hcov hat hplan.keys hplan.args (hplan.grouped hagg) (hplan.apart hagg)
        (htexts gs hgs) hgl hmem he (by simpa [hagg] using hplan.outputs e he)
    have hcount : G.ngroups < 2 ^ 32 := by
      have hmax := assignGroups_count G.groups_eq
      omega
    rw [hgs, ok_bind]
    have hstands : Stands gs (Sel.all G.ngroups).rows gs := hgl ▸ stands_range gs
    have hwhole : (Sel.all G.ngroups).Within G.ngroups := rfl
    have hhaving : Option.Rel (G.frame.Gives rt (groupCell rt plan (sourceFrame table).types) gs)
        plan.rewritten.having plan.having := by
      simp only [Select.rewritten]
      cases hh : plan.having with
      | none => exact .none
      | some e => exact .some (hgives e (having_mem_outputs hh))
    have horder : List.Forall₂ (GivesKey rt G.frame (groupCell rt plan (sourceFrame table).types) gs)
        plan.rewritten.orderBy plan.orderBy :=
      List.forall₂_map_left_iff.mpr (List.forall₂_same.mpr fun k hk =>
        ⟨hgives k.expr (order_mem_outputs hk), rfl⟩)
    have hprojection : List.Forall₂ (fun p' p =>
        G.frame.Gives rt (groupCell rt plan (sourceFrame table).types) gs p'.expr p.expr)
        plan.rewritten.projection plan.projection :=
      List.forall₂_map_left_iff.mpr (List.forall₂_same.mpr fun p hp =>
        hgives p.expr (projection_mem_outputs hp))
    obtain ⟨left, hleft, hpage⟩ := page_of_finishSelect plan hrt hsel hlimit hoffset
      (groupColumns_covers hgcols _ rfl) hcount.le hwhole hcount hstands hhaving horder hprojection h
    rw [hleft, ok_bind]
    exact hpage
  · rw [if_neg hagg] at h ⊢
    have hgives : ∀ e ∈ plan.outputs, (sourceFrame table).Gives rt (cell rt) rows e e := fun e he =>
      gives_rows hrows (by simpa [hagg] using hplan.outputs e he)
    obtain ⟨left, hleft, hpage⟩ := page_of_finishSelect plan hrt hsel
      hlimit hoffset hcols hn.le hwithin hshort hat .none
      (List.forall₂_same.mpr fun k hk => ⟨hgives _ (order_mem_outputs hk), rfl⟩)
      (List.forall₂_same.mpr fun p hp => hgives _ (projection_mem_outputs hp)) h
    have hsame : chosen (cell rt) none picked = .ok picked := chosen_const (b := true) fun i x _ => rfl
    obtain rfl := Except.ok.inj (hsame.symm.trans hleft)
    exact hpage

theorem sumsByKeyPlan_part {d : Expr} (h : sumsByKeyPlan.Part d) :
    d = .col 1 ∨ d = .agg .sum (some (.col 0)) false := by
  obtain ⟨e, he, hd⟩ := h
  rcases List.mem_pair.mp he with rfl | rfl
  · cases hd with
    | self => exact .inl rfl
    | child _ _ hc _ => cases hc
  · cases hd with
    | self => exact .inr rfl
    | child hagg _ _ _ => cases hagg

theorem shares_col (i : Nat) : (Expr.col i).SharesLiterals := by
  intro func args k d h
  simp [Expr.subexprs] at h

theorem sumsByKeyPlan_aggs : sumsByKeyPlan.aggs = [.agg .sum (some (.col 0)) false] := by
  rfl

theorem sumsByKeyPlan_regular : sumsByKeyPlan.Regular where
  filter := nofun
  keys k hk := by
    obtain rfl := List.mem_singleton.mp hk
    exact shares_col 1
  args p hp a ha := by
    rw [sumsByKeyPlan_aggs] at hp
    obtain rfl := List.mem_singleton.mp hp
    obtain rfl := List.mem_singleton.mp ha
    exact shares_col 0
  outputs e he := by
    have hpats : sumsByKeyPlan.pats = [(.agg .sum (some (.col 0)) false, .col 1), (.col 1, .col 0)] := by
      rw [Select.pats, sumsByKeyPlan_aggs]
      rfl
    rcases List.mem_pair.mp he with rfl | rfl
    · have hkey : sumsByKeyPlan.rewrite (.col 1) = .col 0 := by
        rw [Select.rewrite, hpats]
        rfl
      exact hkey ▸ shares_col 0
    · have hagg : sumsByKeyPlan.rewrite (.agg .sum (some (.col 0)) false) = .col 1 := by
        rw [Select.rewrite, hpats]
        rfl
      exact hagg ▸ shares_col 1
  grouped _ := by
    rintro ⟨i, e, he, hstray⟩
    rcases List.mem_pair.mp he with rfl | rfl
    · cases hstray with
      | col hkey => exact absurd (hkey (.col 1) (List.mem_singleton_self _)) (by decide)
      | child _ _ hc _ => cases hc
    · cases hstray with
      | child _ hagg _ _ => cases hagg
  apart _ := by
    intro d hd hagg
    rcases sumsByKeyPlan_part hd with rfl | rfl
    · cases hagg
    · refine ⟨by decide, fun p hp _ => ?_⟩
      rw [sumsByKeyPlan_aggs] at hp
      exact List.mem_singleton.mp hp

/-- `SELECT b, sum(a) FROM t GROUP BY b` over the rows `(1, 10)` and `(2, 10)`. -/
theorem runSelect_answer_sums :
    sumsByKeyPlan.answer plainRuntime [.i64, .i64] [[.i64 1, .i64 10], [.i64 2, .i64 10]] =
      .ok [[.i64 10, .i64 3]] := by
  have hpicked : chosen (cell plainRuntime) none [[.i64 1, .i64 10], [.i64 2, .i64 10]] =
      .ok [[.i64 1, .i64 10], [.i64 2, .i64 10]] := rfl
  have hgroups : sumsByKeyPlan.groups plainRuntime [[.i64 1, .i64 10], [.i64 2, .i64 10]] =
      .ok [[[.i64 1, .i64 10], [.i64 2, .i64 10]]] := by decide +kernel
  have hrows : (sourceFrame (some twoRows)).HoldsRows [[.i64 1, .i64 10], [.i64 2, .i64 10]] := by
    intro i row hrow
    match i, hrow with
    | 0, rfl => exact .cons (holds_of_get rfl nofun rfl) (.cons (holds_of_get rfl nofun rfl) .nil)
    | 1, rfl => exact .cons (holds_of_get rfl nofun rfl) (.cons (holds_of_get rfl nofun rfl) .nil)
  have hfits : sumsByKeyPlan.Fits plainRuntime (sourceFrame (some twoRows)).types
      [[.i64 1, .i64 10], [.i64 2, .i64 10]] := by
    intro _ picked hfilter
    obtain rfl := Except.ok.inj (hpicked.symm.trans hfilter)
    refine ⟨fun row hrow k hk s hs => ?_, fun gs hgs d hd texts hlen htexts => ?_⟩
    · obtain rfl := List.mem_singleton.mp hk
      have hkey : cell plainRuntime row (.col 1) = .ok (.i64 [10]) := by
        rcases List.mem_pair.mp hrow with rfl | rfl <;> rfl
      cases hkey.symm.trans hs
    obtain rfl := Except.ok.inj (hgroups.symm.trans hgs)
    obtain ⟨s, rfl⟩ := List.length_eq_one_iff.mp hlen
    have hleaf := htexts 0 s _ rfl rfl
    rcases sumsByKeyPlan_part hd with rfl | rfl
    · have hkey : groupLeaf plainRuntime sumsByKeyPlan (sourceFrame (some twoRows)).types
          [[.i64 1, .i64 10], [.i64 2, .i64 10]] (.col 1) = some (.ok (.i64 [10])) := rfl
      cases hkey.symm.trans hleaf
    · have hagg : groupLeaf plainRuntime sumsByKeyPlan (sourceFrame (some twoRows)).types
          [[.i64 1, .i64 10], [.i64 2, .i64 10]] (.agg .sum (some (.col 0)) false) =
            some (.ok (.i64 [3])) := by decide +kernel
      cases hagg.symm.trans hleaf
  have hrun : runSelect plainRuntime sumsByKeyPlan (some twoRows) =
      .ok ⟨["b", ""], [.i64, .i64], [[.i64 10, .i64 3]]⟩ := by decide +kernel
  exact runSelect_answer plainRuntime_sorting plainRuntime_partitions (by decide) (by decide)
    sumsByKeyPlan_regular (by decide) (by decide) hrows rfl hfits hrun

end Veldb
