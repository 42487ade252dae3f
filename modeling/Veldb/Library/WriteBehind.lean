import Mathlib.Data.List.Basic
import Mathlib.Logic.Function.Basic

/-! Writes that reach a cache at once and a backing store later. Each entry acts
on the slot of its key; the entries still pending lead, slot by slot, from the
store to the cache. -/

namespace WriteBehind

variable {K S E ε : Type} [DecidableEq K] (key : E → K) (f : E → S → Except ε S)

def pendingAt (k : K) (P : List E) : List E :=
  P.filter (fun e => key e = k)

/-- Applied in order, what is pending brings every slot of `store` to `cache`. -/
def Drains (store cache : K → S) (P : List E) : Prop :=
  ∀ k, (pendingAt key k P).foldlM (fun s e => f e s) (store k) = .ok (cache k)

variable {key f} {store cache : K → S} {P Q : List E}

theorem drains_refl : Drains key f store store [] :=
  fun _ => rfl

theorem Drains.eq (h : Drains key f store cache []) : store = cache :=
  funext (fun k => Except.ok.inj (h k))

theorem pendingAt_append (k : K) :
    pendingAt key k (P ++ Q) = pendingAt key k P ++ pendingAt key k Q :=
  List.filter_append P Q

theorem pendingAt_cons (k : K) (e : E) :
    pendingAt key k (e :: P) = if key e = k then e :: pendingAt key k P else pendingAt key k P := by
  by_cases hk : key e = k
  · rw [if_pos hk, pendingAt, List.filter_cons_of_pos (by simpa using hk), pendingAt]
  · rw [if_neg hk, pendingAt, List.filter_cons_of_neg (by simpa using hk), pendingAt]

theorem pendingAt_eq_nil {k : K} (h : ∀ x ∈ P, key x ≠ k) : pendingAt key k P = [] :=
  List.filter_eq_nil_iff.mpr (fun x hx => by simpa using h x hx)

theorem Drains.push (h : Drains key f store cache P) {e : E} {s : S}
    (he : f e (cache (key e)) = .ok s) :
    Drains key f store (Function.update cache (key e) s) (P ++ [e]) := by
  intro k
  rw [pendingAt_append, List.foldlM_append, h k, pendingAt_cons]
  by_cases hk : key e = k
  · subst hk
    rw [if_pos rfl, Function.update_self]
    change (f e (cache (key e)) >>= fun s => Except.ok s) = _
    rw [he]
    rfl
  · rw [if_neg hk, Function.update_of_ne (Ne.symm hk)]
    rfl

theorem Drains.pop {e : E} (h : Drains key f store cache (P ++ e :: Q))
    (hfirst : ∀ x ∈ P, key x ≠ key e) :
    ∃ s, f e (store (key e)) = .ok s ∧
      Drains key f (Function.update store (key e) s) cache (P ++ Q) := by
  have hkey := h (key e)
  rw [pendingAt_append, pendingAt_eq_nil hfirst, List.nil_append, pendingAt_cons, if_pos rfl,
    List.foldlM_cons] at hkey
  cases hs : f e (store (key e)) with
  | error x => simp [hs, bind, Except.bind] at hkey
  | ok s =>
    refine ⟨s, rfl, fun k => ?_⟩
    by_cases hk : key e = k
    · subst hk
      rw [hs] at hkey
      rw [pendingAt_append, pendingAt_eq_nil hfirst, List.nil_append, Function.update_self]
      exact hkey
    · have hrest := h k
      rw [pendingAt_append, pendingAt_cons, if_neg hk] at hrest
      rw [Function.update_of_ne (Ne.symm hk), pendingAt_append]
      exact hrest

theorem foldlM_constant {es : List E} (hc : ∀ e ∈ es, ∀ s s', f e s = f e s') (hne : es ≠ [])
    (s s' : S) : es.foldlM (fun s e => f e s) s = es.foldlM (fun s e => f e s) s' := by
  cases es with
  | nil => exact absurd rfl hne
  | cons e es => rw [List.foldlM_cons, List.foldlM_cons, hc e List.mem_cons_self s s']

/-- The cache may become the store while only entries are pending that do not
look at the slot they write. -/
theorem Drains.sync (h : Drains key f store cache P) (hc : ∀ e ∈ P, ∀ s s', f e s = f e s') :
    Drains key f cache cache P := by
  intro k
  by_cases hne : pendingAt key k P = []
  · rw [hne]
    rfl
  · have hc' : ∀ e ∈ pendingAt key k P, ∀ s s', f e s = f e s' :=
      fun e he => hc e (List.mem_filter.mp he).1
    rw [foldlM_constant hc' hne (cache k) (store k)]
    exact h k

end WriteBehind
