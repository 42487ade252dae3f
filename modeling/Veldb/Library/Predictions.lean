import Veldb.Library.Attempts

/-! A static answer for a computation that may fail: it names what the value will look like,
and where it names something the computation fails only in ways that are excused. -/

namespace Predictions

open Attempts

variable {ε α β γ σ τ : Type}

structure Predicts (excused : ε → Prop) (view : α → τ) (t : Option τ) (x : Except ε α) : Prop where
  value : ∀ a, x = .ok a → t = some (view a)
  error : ∀ e, x = .error e → t = none ∨ excused e

variable {excused : ε → Prop} {view : α → τ} {t : Option τ} {x : Except ε α}

theorem predicts_ok {a : α} (ht : t = some (view a)) : Predicts excused view t (.ok a) where
  value b h := by rw [← Except.ok.inj h, ht]
  error e h := by cases h

theorem predicts_refused (e : ε) : Predicts excused view none (.error e) where
  value a h := by cases h
  error e' h := .inl rfl

theorem predicts_excused {e : ε} (he : excused e) (t : Option τ) :
    Predicts excused view t (.error e) where
  value a h := by cases h
  error e' h := .inr (Except.error.inj h ▸ he)

theorem Predicts.mono {excused' : ε → Prop} (h : Predicts excused view t x)
    (hp : ∀ e, excused e → excused' e) : Predicts excused' view t x where
  value := h.value
  error e he := (h.error e he).imp_right (hp e)

theorem Predicts.bind {view' : β → σ} {k : τ → Option σ} {f : α → Except ε β}
    (hx : Predicts excused view t x)
    (hf : ∀ a, x = .ok a → Predicts excused view' (k (view a)) (f a)) :
    Predicts excused view' (t.bind k) (x >>= f) where
  value b h := by
    obtain ⟨a, ha, hb⟩ := bind_eq_ok.mp h
    rw [hx.value a ha]
    exact (hf a ha).value b hb
  error e h := by
    rcases bind_eq_error.mp h with h | ⟨a, ha, h⟩
    · refine (hx.error e h).imp_left fun hnone => ?_
      rw [hnone]
      rfl
    · rw [hx.value a ha]
      exact (hf a ha).error e h

theorem Predicts.map {view' : β → σ} {g : α → β} {k : τ → σ} (hx : Predicts excused view t x)
    (hg : ∀ a, view' (g a) = k (view a)) :
    Predicts excused view' (t.map k) (x >>= fun a => pure (g a)) where
  value b h := by
    obtain ⟨a, ha, rfl⟩ := bind_pure_eq_ok.mp h
    rw [hx.value a ha, hg]
    rfl
  error e h := by
    rcases bind_eq_error.mp h with h | ⟨a, -, h⟩
    · refine (hx.error e h).imp_left fun hnone => ?_
      rw [hnone]
      rfl
    · cases h

theorem Predicts.recast {view' : β → τ} {g : α → β} (hx : Predicts excused view t x)
    (hg : ∀ a, view' (g a) = view a) : Predicts excused view' t (x >>= fun a => pure (g a)) where
  value b h := by
    obtain ⟨a, ha, rfl⟩ := bind_pure_eq_ok.mp h
    rw [hx.value a ha, hg]
  error e h := by
    rcases bind_eq_error.mp h with h | ⟨a, -, h⟩
    · exact hx.error e h
    · cases h

theorem Predicts.forget (hx : Predicts excused view t x) :
    Predicts excused (fun _ => ()) (t.bind fun _ => some ()) x where
  value a h := by
    rw [hx.value a h]
    rfl
  error e h := by
    refine (hx.error e h).imp_left fun hnone => ?_
    rw [hnone]
    rfl

/-- A part whose value does not show fails only in excused ways. -/
def Quiet (excused : ε → Prop) (x : Except ε α) : Prop :=
  ∀ e, x = .error e → excused e

theorem quiet_ok (a : α) : Quiet excused (.ok a) := by
  intro e h
  cases h

theorem quiet_excused {e : ε} (he : excused e) : Quiet excused (.error e : Except ε α) := by
  intro e' h
  exact Except.error.inj h ▸ he

theorem Quiet.bind {f : α → Except ε β} (hx : Quiet excused x) (hf : ∀ a, Quiet excused (f a)) :
    Quiet excused (x >>= f) := by
  intro e h
  rcases bind_eq_error.mp h with h | ⟨a, -, h⟩
  · exact hx e h
  · exact hf a e h

theorem Quiet.mapM {f : β → Except ε γ} {l : List β} (h : ∀ b ∈ l, Quiet excused (f b)) :
    Quiet excused (l.mapM f) := by
  induction l with
  | nil => exact quiet_ok _
  | cons b l ih =>
    rw [List.mapM_cons]
    refine (h b (by simp)).bind fun c => Quiet.bind ?_ fun cs => quiet_ok _
    exact ih fun b hb => h b (by simp [hb])

theorem Quiet.foldlM {f : α → β → Except ε α} {l : List β} (h : ∀ a, ∀ b ∈ l, Quiet excused (f a b))
    (a : α) : Quiet excused (l.foldlM f a) := by
  induction l generalizing a with
  | nil => exact quiet_ok a
  | cons b l ih =>
    rw [List.foldlM_cons]
    refine (h a b (by simp)).bind fun a' => ?_
    exact ih (fun a b hb => h a b (by simp [hb])) a'

theorem Quiet.predicts (hx : Quiet excused x) (hview : ∀ a, x = .ok a → t = some (view a)) :
    Predicts excused view t x where
  value := hview
  error e he := .inr (hx e he)

/-- What a quiet part is wrapped in shows the same, whatever its value. -/
theorem Quiet.wrapped {mk : α → β} {view' : β → σ} {u : σ} (hx : Quiet excused x)
    (hmk : ∀ a, view' (mk a) = u) :
    Predicts excused view' (some u) (x >>= fun a => pure (mk a)) where
  value b h := by
    obtain ⟨a, -, rfl⟩ := bind_pure_eq_ok.mp h
    rw [hmk]
  error e h := by
    rcases bind_eq_error.mp h with h | ⟨a, -, h⟩
    · exact .inr (hx e h)
    · cases h

/-- A quiet continuation keeps an answer that does not show. -/
theorem Predicts.quietly {t : Option Unit} {f : α → Except ε β}
    (hx : Predicts excused (fun _ => ()) t x) (hf : ∀ a, x = .ok a → Quiet excused (f a)) :
    Predicts excused (fun _ => ()) t (x >>= f) where
  value b h := by
    obtain ⟨a, ha, -⟩ := bind_eq_ok.mp h
    exact hx.value a ha
  error e h := by
    rcases bind_eq_error.mp h with h | ⟨a, ha, h⟩
    · exact hx.error e h
    · exact .inr (hf a ha e h)

theorem Predicts.quiet_bind {f : β → Except ε α} {y : Except ε β} (hy : Quiet excused y)
    (hf : ∀ b, y = .ok b → Predicts excused view t (f b)) : Predicts excused view t (y >>= f) where
  value a h := by
    obtain ⟨b, hb, ha⟩ := bind_eq_ok.mp h
    exact (hf b hb).value a ha
  error e h := by
    rcases bind_eq_error.mp h with h | ⟨b, hb, h⟩
    · exact .inr (hy e h)
    · exact (hf b hb).error e h

/-- The answers of a list are the list of the answers. -/
theorem Predicts.mapM {g : β → Option τ} {f : β → Except ε α} {l : List β}
    (h : ∀ b ∈ l, Predicts excused view (g b) (f b)) :
    Predicts excused (List.map view) (l.mapM g) (l.mapM f) := by
  induction l with
  | nil => exact predicts_ok rfl
  | cons b l ih =>
    rw [List.mapM_cons, List.mapM_cons]
    have htail := ih fun b hb => h b (by simp [hb])
    refine (h b (by simp)).bind (k := fun t => l.mapM g >>= fun ts => pure (t :: ts)) fun a _ => ?_
    have hcons : Predicts excused (List.map view) ((l.mapM g).map (view a :: ·))
        (l.mapM f >>= fun as => pure (a :: as)) := htail.map fun _ => rfl
    cases hl : l.mapM g <;> rw [hl] at hcons <;> exact hcons

/-- A fold whose state does not show succeeds where every element is accepted. -/
theorem Predicts.foldlM {ok : β → Bool} {f : α → β → Except ε α} {l : List β}
    (h : ∀ a, ∀ b ∈ l, Predicts excused (fun _ => ()) (if ok b then some () else none) (f a b))
    (a : α) : Predicts excused (fun _ => ()) (if l.all ok then some () else none) (l.foldlM f a) := by
  induction l generalizing a with
  | nil => exact predicts_ok rfl
  | cons b l ih =>
    rw [List.foldlM_cons, List.all_cons]
    have hb := h a b (by simp)
    have hl := fun a' => ih (fun a b hb => h a b (by simp [hb])) a'
    cases hok : ok b with
    | true =>
      rw [hok, if_pos rfl] at hb
      exact hb.bind (k := fun _ => if l.all ok then some () else none) fun a' _ => hl a'
    | false =>
      rw [hok, if_neg (by decide)] at hb
      exact hb.bind (k := fun _ => if l.all ok then some () else none) fun a' _ => hl a'

end Predictions
