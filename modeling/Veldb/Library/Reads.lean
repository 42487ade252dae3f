import Mathlib.Algebra.Ring.Nat
import Mathlib.Data.List.Basic

/-! Sequential readers over a byte string and the rules by which a reader is
matched with the bytes it consumes. -/

namespace Reads

variable {β ε α γ : Type}

/-- A reader takes the bytes still unread and returns a value with what it left. -/
abbrev Reader (β ε α : Type) := StateT (List β) (Except ε) α

/-- `p` consumes exactly `bs` and returns `a`, whatever follows. -/
def Yields (p : Reader β ε α) (bs : List β) (a : α) : Prop :=
  ∀ rest, p (bs ++ rest) = .ok (a, rest)

theorem Yields.pure (a : α) : Yields (β := β) (ε := ε) (pure a) [] a :=
  fun _ => rfl

theorem Yields.bind {p : Reader β ε α} {f : α → Reader β ε γ} {bs cs : List β} {a : α} {c : γ}
    (hp : Yields p bs a) (hf : Yields (f a) cs c) : Yields (p >>= f) (bs ++ cs) c := by
  intro rest
  change (p (bs ++ cs ++ rest) >>= fun x => f x.1 x.2) = _
  rw [List.append_assoc, hp]
  exact hf rest

theorem Yields.bind_pure {p : Reader β ε α} {f : α → Reader β ε γ} {bs : List β} {a : α} {c : γ}
    (hp : Yields p bs a) (hf : Yields (f a) [] c) : Yields (p >>= f) bs c := by
  simpa only [List.append_nil] using hp.bind hf

theorem Yields.map {p : Reader β ε α} {bs : List β} {a : α} (f : α → γ) (hp : Yields p bs a) :
    Yields (f <$> p) bs (f a) := by
  intro rest
  change (p (bs ++ rest) >>= fun x => Except.ok (f x.1, x.2)) = _
  rw [hp]
  rfl

theorem Yields.lift {m : Except ε α} {a : α} (h : m = .ok a) :
    Yields (β := β) (fun bs => m >>= fun x => Except.ok (x, bs)) [] a := by
  intro rest
  rw [h]
  rfl

theorem Yields.run {p : Reader β ε α} {bs : List β} {a : α} (hp : Yields p bs a) :
    p bs = .ok (a, []) := by
  simpa only [List.append_nil] using hp []

def times (p : Reader β ε α) : Nat → Reader β ε (List α)
  | 0 => return []
  | n + 1 => do
    let x ← p
    let xs ← times p n
    return x :: xs

theorem Yields.times {p : Reader β ε α} {enc : α → List β} {xs : List α}
    (h : ∀ x ∈ xs, Yields p (enc x) x) : Yields (times p xs.length) (xs.flatMap enc) xs := by
  induction xs with
  | nil => exact Yields.pure []
  | cons x xs ih =>
    have hx := h x (by simp)
    have hxs := ih (fun y hy => h y (List.mem_cons_of_mem _ hy))
    exact hx.bind (hxs.bind_pure (Yields.pure (x :: xs)))

def each (p : γ → Reader β ε α) : List γ → Reader β ε (List α)
  | [] => return []
  | c :: cs => do
    let x ← p c
    let xs ← each p cs
    return x :: xs

theorem Yields.each {p : γ → Reader β ε α} {enc : α → List β} {cs : List γ} {xs : List α}
    (h : List.Forall₂ (fun c x => Yields (p c) (enc x) x) cs xs) :
    Yields (each p cs) (xs.flatMap enc) xs := by
  induction h with
  | nil => exact Yields.pure []
  | cons hx _ ih => exact hx.bind (ih.bind_pure (Yields.pure _))

theorem bind_ok {p : Reader β ε α} {f : α → Reader β ε γ} {bs rest : List β} {c : γ}
    (h : (p >>= f) bs = .ok (c, rest)) :
    ∃ a left, p bs = .ok (a, left) ∧ f a left = .ok (c, rest) := by
  change (p bs >>= fun x => f x.1 x.2) = _ at h
  cases hx : p bs with
  | error e =>
    rw [hx] at h
    cases h
  | ok x =>
    rw [hx] at h
    exact ⟨x.1, x.2, rfl, h⟩

theorem pure_ok {a b : α} {bs rest : List β}
    (h : (pure a : Reader β ε α) bs = .ok (b, rest)) : b = a ∧ rest = bs := by
  obtain ⟨hb, hrest⟩ := Prod.mk.inj (Except.ok.inj h)
  exact ⟨hb.symm, hrest.symm⟩

theorem map_ok {p : Reader β ε α} {f : α → γ} {bs rest : List β} {c : γ}
    (h : (f <$> p) bs = .ok (c, rest)) : ∃ a, p bs = .ok (a, rest) ∧ c = f a := by
  rw [← bind_pure_comp] at h
  obtain ⟨a, left, ha, hc⟩ := bind_ok h
  obtain ⟨rfl, rfl⟩ := pure_ok hc
  exact ⟨a, ha, rfl⟩

theorem lift_ok {m : Except ε α} {bs rest : List β} {a : α}
    (h : (monadLift m : Reader β ε α) bs = .ok (a, rest)) : m = .ok a ∧ rest = bs := by
  change (m >>= fun x => Except.ok (x, bs)) = _ at h
  cases hm : m with
  | error e =>
    rw [hm] at h
    cases h
  | ok x =>
    rw [hm] at h
    obtain ⟨rfl, rfl⟩ := Prod.mk.inj (Except.ok.inj h)
    exact ⟨rfl, rfl⟩

/-- Whatever the reader returns has the property. -/
def Returns (P : α → Prop) (p : Reader β ε α) : Prop :=
  ∀ bs a rest, p bs = .ok (a, rest) → P a

section Returning

variable {P : α → Prop} {Q : γ → Prop}

theorem returns_pure {a : α} (h : P a) : Returns P (pure a : Reader β ε α) := by
  intro bs b rest hb
  obtain ⟨rfl, -⟩ := pure_ok hb
  exact h

theorem Returns.bind {p : Reader β ε α} {f : α → Reader β ε γ} (hp : Returns P p)
    (hf : ∀ a, P a → Returns Q (f a)) : Returns Q (p >>= f) := by
  intro bs c rest h
  obtain ⟨a, left, ha, hc⟩ := bind_ok h
  exact hf a (hp bs a left ha) left c rest hc

/-- What the first reader returns does not matter. -/
theorem returns_bind {p : Reader β ε α} {f : α → Reader β ε γ} (hf : ∀ a, Returns Q (f a)) :
    Returns Q (p >>= f) :=
  Returns.bind (P := fun _ => True) (fun _ _ _ _ => trivial) fun a _ => hf a

theorem returns_map {p : Reader β ε α} {f : α → γ} (h : ∀ a, Q (f a)) : Returns Q (f <$> p) := by
  intro bs c rest hc
  obtain ⟨a, -, rfl⟩ := map_ok hc
  exact h a

theorem returns_lift {m : Except ε α} (h : ∀ a, m = .ok a → P a) :
    Returns (β := β) P (fun bs => m >>= fun x => Except.ok (x, bs)) :=
  fun _ a _ ha => h a (lift_ok ha).1

theorem Returns.times {p : Reader β ε α} (h : Returns P p) (n : Nat) :
    Returns (fun xs => ∀ x ∈ xs, P x) (times p n) := by
  induction n with
  | zero => exact returns_pure (by simp)
  | succ n ih =>
    refine h.bind fun x hx => ih.bind fun xs hxs => returns_pure ?_
    simpa using ⟨hx, hxs⟩

theorem times_returns_length (p : Reader β ε α) (n : Nat) :
    Returns (fun xs => xs.length = n) (times p n) := by
  induction n with
  | zero => exact returns_pure rfl
  | succ n ih =>
    refine returns_bind fun x => ih.bind fun xs hxs => returns_pure ?_
    rw [List.length_cons, hxs]

theorem each_returns_length (p : γ → Reader β ε α) (cs : List γ) :
    Returns (fun xs => xs.length = cs.length) (each p cs) := by
  induction cs with
  | nil => exact returns_pure rfl
  | cons c cs ih =>
    refine returns_bind fun x => ih.bind fun xs hxs => returns_pure ?_
    rw [List.length_cons, List.length_cons, hxs]

theorem Returns.each {p : γ → Reader β ε α} (h : ∀ c, Returns P (p c)) (cs : List γ) :
    Returns (fun xs => ∀ x ∈ xs, P x) (each p cs) := by
  induction cs with
  | nil => exact returns_pure (by simp)
  | cons c cs ih =>
    refine (h c).bind fun x hx => ih.bind fun xs hxs => returns_pure ?_
    simpa using ⟨hx, hxs⟩

end Returning

/-- What the reader returns has cost so many elements of the input, or more. -/
def Takes (cost : α → Nat) (p : Reader β ε α) : Prop :=
  ∀ bs a rest, p bs = .ok (a, rest) → rest.length + cost a ≤ bs.length

section Taking

variable {cost : α → Nat} {total : γ → Nat}

theorem takes_pure {a : α} (h : cost a = 0) : Takes cost (pure a : Reader β ε α) := by
  intro bs b rest hb
  obtain ⟨rfl, rfl⟩ := pure_ok hb
  omega

theorem Takes.mono {least : α → Nat} {p : Reader β ε α} (h : Takes cost p)
    (hle : ∀ a, least a ≤ cost a) : Takes least p := by
  intro bs a rest ha
  have hcost := h bs a rest ha
  have hleast := hle a
  omega

theorem Takes.of_returns {P : α → Prop} {least : α → Nat} {p : Reader β ε α} (h : Takes cost p)
    (hreturns : Returns P p) (hle : ∀ a, P a → least a ≤ cost a) : Takes least p := by
  intro bs a rest ha
  have hcost := h bs a rest ha
  have hleast := hle a (hreturns bs a rest ha)
  omega

theorem Takes.bind {p : Reader β ε α} {f : α → Reader β ε γ} (hp : Takes cost p)
    (hf : ∀ a, Takes (fun c => total c - cost a) (f a)) : Takes total (p >>= f) := by
  intro bs c rest h
  obtain ⟨a, left, ha, hc⟩ := bind_ok h
  have hfirst := hp bs a left ha
  have hsecond : rest.length + (total c - cost a) ≤ left.length := hf a left c rest hc
  omega

theorem Takes.map {p : Reader β ε α} (hp : Takes cost p) {f : α → γ}
    (hle : ∀ a, total (f a) ≤ cost a) : Takes total (f <$> p) := by
  rw [← bind_pure_comp]
  refine hp.bind fun a => takes_pure ?_
  have htotal := hle a
  omega

theorem takes_lift {m : Except ε α} (h : ∀ a, m = .ok a → cost a = 0) :
    Takes (β := β) cost (fun bs => m >>= fun x => Except.ok (x, bs)) := by
  intro bs a rest ha
  obtain ⟨hm, rfl⟩ := lift_ok ha
  have hnone := h a hm
  omega

theorem Takes.times {p : Reader β ε α} {k : Nat} (h : Takes (fun _ => k) p) (n : Nat) :
    Takes (fun _ => n * k) (times p n) := by
  induction n with
  | zero => exact takes_pure (Nat.zero_mul k)
  | succ n ih =>
    refine h.bind fun x => Takes.bind (ih.mono fun _ => ?_) fun xs => takes_pure (Nat.sub_self _)
    rw [Nat.add_one_mul]
    omega

theorem Takes.each {p : γ → Reader β ε α} {k : γ → Nat} (h : ∀ c, Takes (fun _ => k c) (p c))
    (cs : List γ) : Takes (fun _ => (cs.map k).sum) (each p cs) := by
  induction cs with
  | nil => exact takes_pure rfl
  | cons c cs ih =>
    refine (h c).bind fun x => Takes.bind (ih.mono fun _ => ?_) fun xs => takes_pure (Nat.sub_self _)
    rw [List.map_cons, List.sum_cons]
    omega

end Taking

end Reads
