import Mathlib.Data.List.Basic

/-! Accumulators side by side, each taken on by the entries under its index. -/

namespace Buckets

variable {α β : Type}

def updates (f : β → α → α) (acc : List α) (entries : List (Nat × β)) : List α :=
  entries.foldl (fun acc p => acc.modify p.1 (f p.2)) acc

/-- The entries under one index, in order. -/
def under (entries : List (Nat × β)) (g : Nat) : List β :=
  (entries.filter (fun p => p.1 == g)).map Prod.snd

theorem under_cons (p : Nat × β) (entries : List (Nat × β)) (g : Nat) :
    under (p :: entries) g = if p.1 = g then p.2 :: under entries g else under entries g := by
  unfold under
  by_cases h : p.1 = g <;> simp [h]

/-- An accumulator sees the entries under its own index and no other. -/
theorem getElem?_updates (f : β → α → α) (acc : List α) (entries : List (Nat × β)) (g : Nat) :
    (updates f acc entries)[g]? =
      acc[g]?.map (fun a => (under entries g).foldl (fun a b => f b a) a) := by
  induction entries generalizing acc with
  | nil => simp [updates, under]
  | cons p entries ih =>
    have hstep : updates f acc (p :: entries) = updates f (acc.modify p.1 (f p.2)) entries := rfl
    rw [hstep, ih, under_cons, List.getElem?_modify]
    by_cases hg : p.1 = g
    · simp only [hg, if_true, Option.map_eq_map, Option.map_map]
      rfl
    · simp only [hg, if_false, Option.map_eq_map, Option.map_id']

end Buckets
