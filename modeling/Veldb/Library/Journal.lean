import Mathlib.Data.List.Basic

/-! A journal of numbered entries on top of a base state that already contains
some of them: what a replay makes of further entries, of covered ones and of a
fresh base. -/

namespace Journal

variable {L S E ε : Type} (covered : L → Prop) [DecidablePred covered]
  (apply : L → S → E → Except ε S)

/-- Applies the entries in order, without those the base covers. -/
def replay : S → List (L × E) → Except ε S
  | s, [] => .ok s
  | s, (l, e) :: rs =>
    if covered l then replay s rs
    else do
      let s' ← apply l s e
      replay s' rs

theorem replay_append (s : S) (rs ts : List (L × E)) :
    replay covered apply s (rs ++ ts) =
      replay covered apply s rs >>= fun s' => replay covered apply s' ts := by
  induction rs generalizing s with
  | nil => rfl
  | cons r rs ih =>
    obtain ⟨l, e⟩ := r
    rw [List.cons_append, replay, replay]
    by_cases hc : covered l
    · rw [if_pos hc, if_pos hc, ih]
    · rw [if_neg hc, if_neg hc]
      cases apply l s e with
      | error x => rfl
      | ok s' => exact ih s'

theorem replay_covered (s : S) {rs : List (L × E)} (h : ∀ r ∈ rs, covered r.1) :
    replay covered apply s rs = .ok s := by
  induction rs with
  | nil => rfl
  | cons r rs ih =>
    obtain ⟨hr, hrs⟩ := List.forall_mem_cons.mp h
    obtain ⟨l, e⟩ := r
    rw [replay, if_pos hr, ih hrs]

/-- An entry the base does not cover takes effect after all earlier ones. -/
theorem replay_record {s t u : S} {rs : List (L × E)} {l : L} {e : E}
    (h : replay covered apply s rs = .ok t) (hl : ¬covered l) (he : apply l t e = .ok u) :
    replay covered apply s (rs ++ [(l, e)]) = .ok u := by
  rw [replay_append, h]
  change replay covered apply t [(l, e)] = .ok u
  rw [replay, if_neg hl, he]
  rfl

end Journal
