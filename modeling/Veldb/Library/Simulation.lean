import Mathlib.Data.List.Forall2

/-! Machines that take inputs and give answers. A machine that keeps related to another one while
both take the same inputs answers as the other does, over whole runs. What the other one sees of an
input may depend on the state the input comes in, and it may be nothing. -/

namespace Simulation

variable {S T I J O P : Type} {step : S → I → O × S} {spec : T → J → P × T} {see : S → I → Option J}
  {rel : S → T → Prop} {allowed : S → T → I → Prop} {agree : J → O → P → Prop} {s : S} {t : T}

def after (step : S → I → O × S) (s : S) (is : List I) : S :=
  is.foldl (fun s i => (step s i).2) s

/-- What is seen of the inputs of a run. -/
def seen (step : S → I → O × S) (see : S → I → Option J) : S → List I → List J
  | _, [] => []
  | s, i :: is => (see s i).toList ++ seen step see (step s i).2 is

/-- What is seen of the inputs, with the answers to them. -/
def transcript (step : S → I → O × S) (see : S → I → Option J) : S → List I → List (J × O)
  | _, [] => []
  | s, i :: is =>
    ((see s i).map (fun j => (j, (step s i).1))).toList ++ transcript step see (step s i).2 is

/-- Every input of the run is allowed where it comes. -/
def Allowed (step : S → I → O × S) (spec : T → J → P × T) (see : S → I → Option J)
    (allowed : S → T → I → Prop) : S → T → List I → Prop
  | _, _, [] => True
  | s, t, i :: is =>
    allowed s t i ∧
      Allowed step spec see allowed (step s i).2 ((see s i).elim t (fun j => (spec t j).2)) is

/-- What one input does: the answers agree, and the states stay related. -/
structure Simulates (step : S → I → O × S) (spec : T → J → P × T) (see : S → I → Option J)
    (rel : S → T → Prop) (allowed : S → T → I → Prop) (agree : J → O → P → Prop) : Prop where
  visible : ∀ s t i j, rel s t → allowed s t i → see s i = some j →
    agree j (step s i).1 (spec t j).1 ∧ rel (step s i).2 (spec t j).2
  hidden : ∀ s t i, rel s t → allowed s t i → see s i = none → rel (step s i).2 t

theorem Simulates.run (h : Simulates step spec see rel allowed agree) (hrel : rel s t) {is : List I}
    (hall : Allowed step spec see allowed s t is) :
    List.Forall₂ (fun a b => a.1 = b.1 ∧ agree a.1 a.2 b.2) (transcript step see s is)
      (transcript spec (fun _ => some) t (seen step see s is)) ∧
      rel (after step s is) (after spec t (seen step see s is)) := by
  induction is generalizing s t with
  | nil => exact ⟨.nil, hrel⟩
  | cons i is ih =>
    obtain ⟨hi, hall⟩ := hall
    cases hsee : see s i with
    | none =>
      rw [hsee] at hall
      rw [transcript, seen, hsee]
      exact ih (h.hidden s t i hrel hi hsee) hall
    | some j =>
      rw [hsee] at hall
      obtain ⟨hagree, hrel'⟩ := h.visible s t i j hrel hi hsee
      obtain ⟨hrest, hend⟩ := ih hrel' hall
      rw [transcript, seen, hsee]
      exact ⟨.cons ⟨rfl, hagree⟩ hrest, hend⟩

/-- Where the state does not matter, the inputs seen are picked out one by one. -/
theorem seen_const (see : I → Option J) (s : S) (is : List I) :
    seen step (fun _ => see) s is = is.filterMap see := by
  induction is generalizing s with
  | nil => rfl
  | cons i is ih =>
    rw [seen, ih, List.filterMap_cons]
    cases see i <;> rfl

theorem seen_some (s : S) (is : List I) : seen step (fun _ => some) s is = is := by
  rw [seen_const, List.filterMap_some]

end Simulation
