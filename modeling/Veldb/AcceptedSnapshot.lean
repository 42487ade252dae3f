import Veldb.QueryCrashes
import Veldb.TextChars

/-! What the checks of a loaded snapshot are enough for: everything but offsets that cut a
character of a text in two. -/

namespace Veldb

open Attempts Comparisons Reads

namespace StrColumn

variable {c : StrColumn}

theorem accepted_built (h : fromParts c.buf c.offsets = .ok c) : c.Built :=
  Built.fromParts h

end StrColumn

/-- The expressions of a plan. -/
def Select.parts (plan : Select) : List Expr :=
  plan.filter.toList ++ (plan.groupBy ++ plan.outputs)

/-- A call in an expression over these columns overflows. -/
def Overflows (rt : Runtime) (f : Frame) (s : Sel) (e : Expr) : Prop :=
  ∃ func args A, .func func args ∈ e.subexprs ∧ evalArgs rt f s args = .ok A ∧
    CallOverflows rt func A

section Columns

variable {rt : Runtime} {f : Frame} {n i : Nat} {c : Column} {s : Sel}

theorem gatherDense_len {α : Type} {mk : List α → Arr} {v : List α} {a : Arr}
    (hmk : ∀ w, (mk w).len = w.length) (hlen : v.length = n) (hs : s.Within n)
    (h : gatherDense mk v s = .ok a) : a.len = s.len := by
  cases s with
  | all m =>
    obtain rfl := Except.ok.inj h
    exact (hmk v).trans (hlen.trans hs.symm)
  | ids ids =>
    obtain ⟨w, hw, rfl⟩ := bind_pure_eq_ok.mp h
    exact (hmk w).trans (mapM_length hw)

theorem gather_len {a : Arr} (hlen : c.len = n) (hs : s.Within n) (h : gather c s = .ok a) :
    a.len = s.len := by
  cases c with
  | i64 v => exact gatherDense_len (fun _ => rfl) hlen hs h
  | f64 v => exact gatherDense_len (fun _ => rfl) hlen hs h
  | bool v => exact gatherDense_len (fun _ => rfl) hlen hs h
  | str t =>
    obtain ⟨w, hw, rfl⟩ := bind_pure_eq_ok.mp h
    exact mapM_range_length hw
  | vector dim data =>
    obtain ⟨w, hw, rfl⟩ := bind_pure_eq_ok.mp h
    exact mapM_range_length hw

theorem Overflows.part {e d : Expr} (hd : d ∈ e.subexprs) (h : Overflows rt f s d) :
    Overflows rt f s e := by
  obtain ⟨func, args, A, hmem, hA, hover⟩ := h
  exact ⟨func, args, A, Expr.mem_subexprs_trans hmem hd, hA, hover⟩

end Columns

section Queries

variable {rt : Runtime} {plan : Select} {t : Table} {s : Sel}

end Queries

section Loading

/-- A table put together from columns whose arenas passed their check. -/
def Table.Loaded (t : Table) : Prop :=
  ∃ name schema columns, (∀ c, .str c ∈ columns → StrColumn.fromParts c.buf c.offsets = .ok c) ∧
    Table.fromColumns name schema columns = .ok t

theorem returns_column (ty : DataType) :
    Returns (fun col => ∀ c, col = .str c → StrColumn.fromParts c.buf c.offsets = .ok c)
      (Reader.column ty) := by
  cases ty with
  | i64 => exact returns_map (by simp)
  | f64 => exact returns_map (by simp)
  | bool => exact returns_map (by simp)
  | str =>
    refine returns_bind fun offsets => returns_bind fun buf => ?_
    refine Returns.bind (returns_lift fun c h => h) fun c hc => returns_pure ?_
    intro c' he
    obtain rfl := Column.str.inj he
    obtain ⟨rfl, -⟩ := StrColumn.fromParts_ok hc
    exact hc
  | vector dim =>
    refine returns_bind fun stored => ?_
    split_ifs
    · exact returns_lift fun c h => absurd h (bail_ne_ok _ _)
    · refine returns_bind fun data => ?_
      split_ifs
      · exact returns_lift fun c h => absurd h (bail_ne_ok _ _)
      · exact returns_pure (by simp)

theorem returns_readTable : Returns Table.Loaded readTable := by
  refine returns_bind fun name => returns_bind fun schema => returns_bind fun nrows =>
    returns_bind fun _ => ?_
  refine (Returns.each (fun f : Field => returns_column f.ty) schema.fields).bind fun columns hcols => ?_
  refine Returns.bind (P := Table.Loaded) (returns_lift fun t ht => ?_) fun t ht => ?_
  · exact ⟨name, schema, columns, fun c hc => hcols _ hc c rfl, withContext_eq_ok.mp ht⟩
  · split_ifs
    · exact returns_lift fun c h => absurd h (bail_ne_ok _ _)
    · exact returns_pure ht

theorem returns_readSnapshot : Returns (fun r => ∀ t ∈ r.1, t.Loaded) readSnapshot := by
  refine returns_bind fun magic => returns_bind fun ver => ?_
  split_ifs
  · exact returns_lift fun c h => absurd h (bail_ne_ok _ _)
  · refine returns_bind fun lsn => returns_bind fun ntables => returns_bind fun _ => ?_
    exact (returns_readTable.times _).bind fun tables htables => returns_pure htables

theorem decodeSnapshot_loaded {raw : Bytes} {tables : List Table} {lsn : UInt64}
    (h : decodeSnapshot raw = .ok (tables, lsn)) : ∀ t ∈ tables, t.Loaded := by
  obtain ⟨-, -, h⟩ := bind_eq_ok.mp h
  split_ifs at h
  · exact absurd h (bail_ne_ok _ _)
  · dsimp only at h
    split_ifs at h
    · exact absurd h (bail_ne_ok _ _)
    · obtain ⟨⟨r, rest⟩, hread, hr⟩ := map_eq_ok.mp h
      obtain rfl : r = (tables, lsn) := hr
      exact returns_readSnapshot _ _ _ hread

variable {t : Table}

theorem Table.Loaded.aligned (h : t.Loaded) : t.Aligned := by
  obtain ⟨name, schema, columns, hparts, hfrom⟩ := h
  have hmade : t.Made :=
    Or.inr ⟨name, schema, columns, fun c hc => StrColumn.accepted_built (hparts c hc), hfrom⟩
  exact hmade.aligned

end Loading

end Veldb
