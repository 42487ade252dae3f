import Mathlib.Data.List.Basic
import Mathlib.Data.List.Forall2

/-! Computations that may fail, taken apart at their successes. -/

namespace Attempts

variable {ε α β γ δ : Type}

theorem bind_eq_ok {x : Except ε α} {f : α → Except ε β} {b : β} :
    (x >>= f) = .ok b ↔ ∃ a, x = .ok a ∧ f a = .ok b := by
  cases x <;> simp [bind, Except.bind]

theorem bind_eq_error {x : Except ε α} {f : α → Except ε β} {e : ε} :
    (x >>= f) = .error e ↔ x = .error e ∨ ∃ a, x = .ok a ∧ f a = .error e := by
  cases x <;> simp [bind, Except.bind]

theorem ok_bind (a : α) (f : α → Except ε β) : (Except.ok a >>= f) = f a := rfl

theorem bind_congr_ok {x : Except ε α} {f g : α → Except ε β} (h : ∀ a, x = .ok a → f a = g a) :
    x >>= f = x >>= g := by
  cases x with
  | error e => rfl
  | ok a => exact h a rfl

theorem pure_eq_ok {a b : α} : (pure a : Except ε α) = .ok b ↔ a = b := by
  simp [pure, Except.pure]

theorem map_eq_ok {x : Except ε α} {f : α → β} {b : β} :
    f <$> x = .ok b ↔ ∃ a, x = .ok a ∧ f a = b := by
  cases x <;> simp [Functor.map, Except.map]

theorem bind_pure_eq_ok {x : Except ε α} {f : α → β} {b : β} :
    (x >>= fun a => pure (f a)) = .ok b ↔ ∃ a, x = .ok a ∧ f a = b := by
  cases x <;> simp [bind, Except.bind, pure, Except.pure]

theorem mapM_eq_ok {f : α → Except ε β} {l : List α} {r : List β} :
    l.mapM f = .ok r ↔ List.Forall₂ (fun a b => f a = .ok b) l r := by
  induction l generalizing r with
  | nil => simp [pure, Except.pure, eq_comm]
  | cons a l ih =>
    rw [List.mapM_cons, bind_eq_ok]
    constructor
    · rintro ⟨b, hb, h⟩
      obtain ⟨bs, hbs, h⟩ := bind_eq_ok.mp h
      obtain rfl := pure_eq_ok.mp h
      exact List.Forall₂.cons hb (ih.mp hbs)
    · intro h
      cases h with
      | cons hb hbs => exact ⟨_, hb, bind_eq_ok.mpr ⟨_, ih.mpr hbs, rfl⟩⟩

theorem mapM_eq_some {f : α → Option β} {l : List α} {r : List β} :
    l.mapM f = some r ↔ List.Forall₂ (fun a b => f a = some b) l r := by
  induction l generalizing r with
  | nil => simp [eq_comm]
  | cons a l ih =>
    rw [List.mapM_cons]
    cases r with
    | nil => simp [Option.bind_eq_some_iff]
    | cons b r => simp [Option.bind_eq_some_iff, ih]

/-- Where every element has its value from `g` if it has one, the values are those of `g`. -/
theorem mapM_eq_some_map {f : α → Option β} {g : α → β} (h : ∀ a b, f a = some b → g a = b)
    {l : List α} {r : List β} :
    l.mapM f = some r ↔ (∀ a ∈ l, f a = some (g a)) ∧ l.map g = r := by
  rw [mapM_eq_some]
  constructor
  · intro hrel
    induction hrel with
    | nil => simp
    | cons hb _ ih =>
      obtain rfl := h _ _ hb
      exact ⟨List.forall_mem_cons.mpr ⟨hb, ih.1⟩, congrArg _ ih.2⟩
  · rintro ⟨hall, rfl⟩
    exact List.forall₂_map_right_iff.mpr (List.forall₂_same.mpr hall)

theorem mapM_total {f : α → Except ε β} {l : List α} (h : ∀ a ∈ l, ∃ b, f a = .ok b) :
    ∃ r, l.mapM f = .ok r := by
  induction l with
  | nil => exact ⟨[], rfl⟩
  | cons a l ih =>
    obtain ⟨b, hb⟩ := h a (by simp)
    obtain ⟨r, hr⟩ := ih (fun x hx => h x (by simp [hx]))
    rw [List.mapM_cons, hb, ok_bind, hr]
    exact ⟨b :: r, rfl⟩

theorem mapM_related {f : α → Except ε β} {R : α → β → Prop} {l : List α}
    (h : ∀ a ∈ l, ∃ b, f a = .ok b ∧ R a b) : ∃ r, l.mapM f = .ok r ∧ List.Forall₂ R l r := by
  induction l with
  | nil => exact ⟨[], rfl, List.Forall₂.nil⟩
  | cons a l ih =>
    obtain ⟨b, hb, hab⟩ := h a (by simp)
    obtain ⟨r, hr, hrel⟩ := ih (fun x hx => h x (by simp [hx]))
    rw [List.mapM_cons, hb, ok_bind, hr]
    exact ⟨b :: r, rfl, List.Forall₂.cons hab hrel⟩

/-- Two loops over related lists: where each step of the first has a step of the second, with
related results, the second succeeds when the first does. -/
theorem mapM_transfer {f : α → Except ε β} {g : γ → Except ε δ} {R : α → γ → Prop}
    {S : β → δ → Prop} {l : List α} {m : List γ} {r : List β}
    (hstep : ∀ a c b, a ∈ l → R a c → f a = .ok b → ∃ d, g c = .ok d ∧ S b d)
    (hrel : List.Forall₂ R l m) (h : l.mapM f = .ok r) :
    ∃ s, m.mapM g = .ok s ∧ List.Forall₂ S r s := by
  induction hrel generalizing r with
  | nil =>
    obtain rfl := pure_eq_ok.mp h
    exact ⟨[], rfl, List.Forall₂.nil⟩
  | cons hac hrest ih =>
    rw [List.mapM_cons] at h
    obtain ⟨b, hb, h⟩ := bind_eq_ok.mp h
    obtain ⟨bs, hbs, h⟩ := bind_eq_ok.mp h
    obtain rfl := pure_eq_ok.mp h
    obtain ⟨d, hd, hbd⟩ := hstep _ _ b (by simp) hac hb
    obtain ⟨s, hs, hrels⟩ := ih (fun a c b ha => hstep a c b (by simp [ha])) hbs
    rw [List.mapM_cons, hd, ok_bind, hs]
    exact ⟨d :: s, rfl, List.Forall₂.cons hbd hrels⟩

theorem mapM_congr {f g : α → Except ε β} {l : List α} (h : ∀ a ∈ l, f a = g a) :
    l.mapM f = l.mapM g := by
  induction l with
  | nil => rfl
  | cons a l ih =>
    rw [List.mapM_cons, List.mapM_cons, h a (by simp), ih (fun x hx => h x (by simp [hx]))]

theorem mapM_getElem {f : α → Except ε β} {l : List α} {r : List β} (h : l.mapM f = .ok r)
    {i : Nat} (hi : i < l.length) :
    ∃ b, f l[i] = .ok b ∧ r[i]? = some b := by
  have hrel := mapM_eq_ok.mp h
  have hr : i < r.length := hrel.length_eq ▸ hi
  exact ⟨r[i], hrel.get hi hr, List.getElem?_eq_getElem hr⟩

theorem mapM_mem {f : α → Except ε β} {l : List α} {r : List β} (h : l.mapM f = .ok r) {a : α}
    (ha : a ∈ l) : ∃ b ∈ r, f a = .ok b := by
  obtain ⟨i, hi, rfl⟩ := List.mem_iff_getElem.mp ha
  obtain ⟨b, hb, hr⟩ := mapM_getElem h hi
  exact ⟨b, List.mem_of_getElem? hr, hb⟩

theorem mapM_length {f : α → Except ε β} {l : List α} {r : List β} (h : l.mapM f = .ok r) :
    r.length = l.length :=
  (mapM_eq_ok.mp h).length_eq.symm

theorem exists_of_mem_mapM {f : α → Except ε β} {l : List α} {r : List β} (h : l.mapM f = .ok r)
    {b : β} (hb : b ∈ r) : ∃ a ∈ l, f a = .ok b := by
  obtain ⟨i, hi, rfl⟩ := List.mem_iff_getElem.mp hb
  have hl : i < l.length := mapM_length h ▸ hi
  exact ⟨l[i], List.getElem_mem hl, (mapM_eq_ok.mp h).get hl hi⟩

theorem mapM_range_length {f : Nat → Except ε β} {n : Nat} {r : List β}
    (h : (List.range n).mapM f = .ok r) : r.length = n := by
  rw [mapM_length h, List.length_range]

theorem mapM_range_getElem {f : Nat → Except ε β} {n i : Nat} {r : List β}
    (h : (List.range n).mapM f = .ok r) (hi : i < n) : ∃ b, f i = .ok b ∧ r[i]? = some b := by
  have hlen : i < (List.range n).length := by simpa using hi
  obtain ⟨b, hb, hr⟩ := mapM_getElem h hlen
  exact ⟨b, by simpa using hb, hr⟩

theorem mapM_singleton {f : α → Except ε β} {a : α} {b : β} (h : f a = .ok b) :
    [a].mapM f = .ok [b] :=
  mapM_eq_ok.mpr (List.Forall₂.cons h List.Forall₂.nil)

theorem mapM_then {f : α → Except ε β} {k : β → γ} {l : List α} {r : List β}
    (h : l.mapM f = .ok r) : l.mapM (fun a => do return k (← f a)) = .ok (r.map k) := by
  refine mapM_eq_ok.mpr ?_
  rw [List.forall₂_map_right_iff]
  exact (mapM_eq_ok.mp h).imp fun a b hab => by rw [hab]; rfl

theorem toOption_bind {x : Except ε α} {f : α → Except ε β} :
    (x >>= f).toOption = x.toOption.bind (fun a => (f a).toOption) := by
  cases x <;> rfl

/-- Attempts one after another, where the errors do not matter. -/
theorem toOption_mapM {f : α → Except ε β} {g : γ → Option β} {h : α → γ} {l : List α}
    (hfg : ∀ a ∈ l, (f a).toOption = g (h a)) : (l.mapM f).toOption = (l.map h).mapM g := by
  induction l with
  | nil => rfl
  | cons a l ih =>
    rw [List.mapM_cons, List.map_cons, List.mapM_cons, toOption_bind, hfg a (by simp)]
    cases g (h a) with
    | none => rfl
    | some b =>
      rw [Option.bind_some, toOption_bind, ih fun a ha => hfg a (by simp [ha])]
      rfl

theorem filterMapM_eq_map {f : α → Except ε (Option β)} {l : List α} :
    l.filterMapM f = (fun r => r.filterMap id) <$> l.mapM f := by
  induction l with
  | nil => rfl
  | cons a l ih =>
    rw [List.filterMapM_cons, List.mapM_cons, ih]
    cases f a with
    | error e => rfl
    | ok o => cases o <;> cases l.mapM f <;> rfl

theorem foldlM_invariant {I : β → Prop} {f : β → α → Except ε β} {l : List α} {s s' : β}
    (hstep : ∀ s x s', f s x = .ok s' → I s → I s') (h : l.foldlM f s = .ok s') (hs : I s) :
    I s' := by
  induction l generalizing s with
  | nil =>
    obtain rfl := pure_eq_ok.mp h
    exact hs
  | cons x l ih =>
    rw [List.foldlM_cons] at h
    obtain ⟨t, ht, hrest⟩ := bind_eq_ok.mp h
    exact ih hrest (hstep s x t ht hs)

theorem foldlM_total {I : β → Prop} {f : β → α → Except ε β} {l : List α} {s : β}
    (hstep : ∀ s x, x ∈ l → I s → ∃ s', f s x = .ok s' ∧ I s') (hs : I s) :
    ∃ s', l.foldlM f s = .ok s' ∧ I s' := by
  induction l generalizing s with
  | nil => exact ⟨s, rfl, hs⟩
  | cons x l ih =>
    obtain ⟨t, ht, hinv⟩ := hstep s x (by simp) hs
    rw [List.foldlM_cons, ht, ok_bind]
    exact ih (fun s y hy => hstep s y (by simp [hy])) hinv

/-- Either gives what the other gives; where they fail, the errors may differ. -/
def Agree (x y : Except ε α) : Prop :=
  ∀ a, x = .ok a ↔ y = .ok a

theorem Agree.refl (x : Except ε α) : Agree x x :=
  fun _ => Iff.rfl

theorem Agree.of_eq {x y : Except ε α} (h : x = y) : Agree x y :=
  h ▸ Agree.refl x

theorem Agree.symm {x y : Except ε α} (h : Agree x y) : Agree y x :=
  fun a => (h a).symm

theorem Agree.trans {x y z : Except ε α} (hxy : Agree x y) (hyz : Agree y z) : Agree x z :=
  fun a => (hxy a).trans (hyz a)

theorem agree_error (e e' : ε) : Agree (.error e : Except ε α) (.error e') :=
  fun _ => by simp

theorem Agree.bind {x y : Except ε α} {f g : α → Except ε β} (h : Agree x y)
    (hfg : ∀ a, Agree (f a) (g a)) : Agree (x >>= f) (y >>= g) := by
  intro b
  rw [bind_eq_ok, bind_eq_ok]
  exact exists_congr fun a => and_congr (h a) (hfg a b)

theorem Agree.bind_left {x y : Except ε α} (h : Agree x y) (f : α → Except ε β) :
    Agree (x >>= f) (y >>= f) :=
  h.bind (fun a => Agree.refl (f a))

theorem Agree.bind_right (x : Except ε α) {f g : α → Except ε β} (h : ∀ a, Agree (f a) (g a)) :
    Agree (x >>= f) (x >>= g) :=
  (Agree.refl x).bind h

theorem Agree.map {x y : Except ε α} (h : Agree x y) (f : α → β) : Agree (f <$> x) (f <$> y) := by
  intro b
  rw [map_eq_ok, map_eq_ok]
  exact exists_congr fun a => and_congr_left fun _ => h a

theorem Agree.mapM {f : α → Except ε γ} {g : β → Except ε γ} {l : List α} {r : List β}
    (h : List.Forall₂ (fun a b => Agree (f a) (g b)) l r) : Agree (l.mapM f) (r.mapM g) := by
  induction h with
  | nil => exact Agree.refl _
  | cons hab _ ih =>
    rw [List.mapM_cons, List.mapM_cons]
    exact hab.bind fun c => ih.bind_left _

/-- Whatever the computation gives has the property. -/
def Gives (p : α → Prop) (x : Except ε α) : Prop :=
  ∀ a, x = .ok a → p a

section Giving

variable {p : α → Prop} {q : β → Prop}

theorem gives_ok {a : α} (h : p a) : Gives p (.ok a : Except ε α) := by
  intro b hb
  exact Except.ok.inj hb ▸ h

theorem gives_error (e : ε) : Gives p (.error e : Except ε α) := by
  intro a h
  cases h

theorem gives_pure {a : α} (h : p a) : Gives p (pure a : Except ε α) :=
  gives_ok h

theorem Gives.bind {x : Except ε α} {f : α → Except ε β} (hx : Gives p x)
    (hf : ∀ a, p a → Gives q (f a)) : Gives q (x >>= f) := by
  intro b hb
  obtain ⟨a, ha, hb⟩ := bind_eq_ok.mp hb
  exact hf a (hx a ha) b hb

theorem gives_bind {x : Except ε α} {f : α → Except ε β} (hf : ∀ a, Gives q (f a)) :
    Gives q (x >>= f) :=
  Gives.bind (p := fun _ => True) (fun _ _ => trivial) fun a _ => hf a

theorem Gives.mapM {f : α → Except ε β} {l : List α} (h : ∀ a ∈ l, Gives q (f a)) :
    Gives (fun r => ∀ b ∈ r, q b) (l.mapM f) := by
  intro r hr b hb
  obtain ⟨a, ha, hab⟩ := exists_of_mem_mapM hr hb
  exact h a ha b hab

theorem Gives.mapM_option {f : α → Except ε β} {o : Option α} (h : ∀ a ∈ o, Gives q (f a)) :
    Gives (fun r => ∀ b ∈ r, q b) (o.mapM f) := by
  cases o with
  | none => exact gives_pure (by simp)
  | some a =>
    refine (h a rfl).bind fun b hb => gives_pure ?_
    intro c hc
    exact Option.some.inj hc ▸ hb

end Giving

/-- The computation ends in an error of one kind. -/
def Raises (p : ε → Prop) (x : Except ε α) : Prop :=
  ∃ e, x = .error e ∧ p e

section Raising

variable {p : ε → Prop}

theorem not_raises_ok (a : α) : ¬ Raises p (.ok a : Except ε α) := by
  rintro ⟨e, h, -⟩
  cases h

theorem not_raises_pure (a : α) : ¬ Raises p (pure a : Except ε α) :=
  not_raises_ok a

/-- A sequence raises where its first part does, or the second one after it. -/
theorem raises_bind {x : Except ε α} {f : α → Except ε β} :
    Raises p (x >>= f) ↔ Raises p x ∨ ∃ a, x = .ok a ∧ Raises p (f a) := by
  cases x <;> simp [Raises, bind, Except.bind]

theorem raises_bind_before {x : Except ε α} {f : α → Except ε β}
    (hf : ∀ a, x = .ok a → ¬ Raises p (f a)) : Raises p (x >>= f) ↔ Raises p x := by
  refine raises_bind.trans (or_iff_left ?_)
  rintro ⟨a, ha, h⟩
  exact hf a ha h

theorem raises_bind_pure {x : Except ε α} {f : α → β} :
    Raises p (x >>= fun a => pure (f a)) ↔ Raises p x :=
  raises_bind_before fun _ _ => not_raises_pure _

theorem raises_map {x : Except ε α} {f : α → β} : Raises p (f <$> x) ↔ Raises p x := by
  cases x <;> simp [Raises, Functor.map, Except.map]

theorem not_raises_bind {x : Except ε α} {f : α → Except ε β} (hx : ¬ Raises p x)
    (hf : ∀ a, x = .ok a → ¬ Raises p (f a)) : ¬ Raises p (x >>= f) := by
  rw [raises_bind]
  exact not_or.mpr ⟨hx, fun ⟨a, ha, h⟩ => hf a ha h⟩

/-- A traversal raises at the first element that does. -/
theorem raises_mapM {f : α → Except ε β} {l : List α} : Raises p (l.mapM f) ↔
    ∃ done a rest r, l = done ++ a :: rest ∧ done.mapM f = .ok r ∧ Raises p (f a) := by
  induction l with
  | nil => simp [not_raises_pure]
  | cons b l ih =>
    rw [List.mapM_cons, raises_bind]
    constructor
    · rintro (hb | ⟨c, hc, h⟩)
      · exact ⟨[], b, l, [], rfl, rfl, hb⟩
      · obtain ⟨done, a, rest, r, rfl, hr, ha⟩ := ih.mp (raises_bind_pure.mp h)
        exact ⟨b :: done, a, rest, c :: r, rfl, by rw [List.mapM_cons, hc, ok_bind, hr]; rfl, ha⟩
    · rintro ⟨done, a, rest, r, hl, hr, ha⟩
      cases done with
      | nil =>
        obtain ⟨rfl, -⟩ := List.cons.inj hl
        exact Or.inl ha
      | cons d done =>
        obtain ⟨rfl, rfl⟩ := List.cons.inj hl
        rw [List.mapM_cons] at hr
        obtain ⟨c, hc, hr⟩ := bind_eq_ok.mp hr
        obtain ⟨cs, hcs, -⟩ := bind_pure_eq_ok.mp hr
        exact Or.inr ⟨c, hc, raises_bind_pure.mpr (ih.mpr ⟨done, a, rest, cs, rfl, hcs, ha⟩)⟩

/-- Where every element has a value or raises, any of those that raise makes the whole raise. -/
theorem raises_mapM_iff {f : α → Except ε β} {l : List α}
    (h : ∀ a ∈ l, (∃ b, f a = .ok b) ∨ Raises p (f a)) :
    Raises p (l.mapM f) ↔ ∃ a ∈ l, Raises p (f a) := by
  constructor
  · intro hl
    obtain ⟨done, a, rest, r, rfl, -, ha⟩ := raises_mapM.mp hl
    exact ⟨a, by simp, ha⟩
  · rintro ⟨a, ha, hraise⟩
    induction l with
    | nil => cases ha
    | cons b l ih =>
      rw [List.mapM_cons, raises_bind]
      rcases h b (by simp) with ⟨c, hc⟩ | hb
      · refine Or.inr ⟨c, hc, raises_bind_pure.mpr ?_⟩
        rcases List.mem_cons.mp ha with rfl | ha
        · rw [hc] at hraise
          exact absurd hraise (not_raises_ok c)
        · exact ih (fun x hx => h x (by simp [hx])) ha
      · exact Or.inl hb

end Raising

end Attempts
