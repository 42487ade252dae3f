import Mathlib.Data.List.Basic
import Mathlib.Data.List.Forall2
import Mathlib.Data.List.Infix

/-! The language of a pattern with a wildcard for one symbol and one for many,
and the part of it that a matcher preferring equal symbols can reach. -/

namespace Wildcard

variable {α : Type} [DecidableEq α]

def Lang (one many : α) : List α → List α → Prop
  | [], s => s = []
  | c :: p, s =>
    if c = many then ∃ t, t <:+ s ∧ Lang one many p t
    else ∃ d t, s = d :: t ∧ (c = one ∨ c = d) ∧ Lang one many p t

/-- As `Lang`, but a `many` standing at an equal symbol of the text takes that symbol alone. -/
def Faced (one many : α) : List α → List α → Prop
  | [], s => s = []
  | c :: p, s =>
    if c = many then
      if s.head? = some many then Faced one many p s.tail
      else ∃ t, t <:+ s ∧ Faced one many p t
    else ∃ d t, s = d :: t ∧ (c = one ∨ c = d) ∧ Faced one many p t

variable {one many c d : α} {p w s t : List α}

theorem lang_nil : Lang one many [] s ↔ s = [] := Iff.rfl

theorem lang_many : Lang one many (many :: p) s ↔ ∃ t, t <:+ s ∧ Lang one many p t := by
  simp [Lang]

theorem lang_cons (hc : c ≠ many) : Lang one many (c :: p) s ↔
    ∃ d t, s = d :: t ∧ (c = one ∨ c = d) ∧ Lang one many p t := by
  simp [Lang, hc]

theorem lang_many_mono (h : Lang one many (many :: p) t) (ht : t <:+ s) :
    Lang one many (many :: p) s := by
  obtain ⟨u, hu, hp⟩ := lang_many.mp h
  exact lang_many.mpr ⟨u, hu.trans ht, hp⟩

theorem lang_many_many :
    Lang one many (many :: many :: p) s ↔ Lang one many (many :: p) s := by
  constructor
  · intro h
    obtain ⟨t, ht, hp⟩ := lang_many.mp h
    exact lang_many_mono hp ht
  · exact fun h => lang_many.mpr ⟨s, List.suffix_rfl, h⟩

theorem lang_many_nil : Lang one many [many] s :=
  lang_many.mpr ⟨[], List.nil_suffix, rfl⟩

theorem lang_literal (hw : ∀ x ∈ w, x ≠ one ∧ x ≠ many) :
    Lang one many (w ++ p) s ↔ ∃ t, s = w ++ t ∧ Lang one many p t := by
  induction w generalizing s with
  | nil => simp
  | cons c w ih =>
    obtain ⟨hone, hmany⟩ := hw c (by simp)
    have hrest : ∀ x ∈ w, x ≠ one ∧ x ≠ many := fun x hx => hw x (by simp [hx])
    rw [List.cons_append, lang_cons hmany]
    constructor
    · rintro ⟨d, t, rfl, hcd, hp⟩
      obtain ⟨u, rfl, hu⟩ := (ih hrest).mp hp
      obtain rfl := hcd.resolve_left hone
      exact ⟨u, rfl, hu⟩
    · rintro ⟨t, rfl, hp⟩
      exact ⟨c, w ++ t, rfl, Or.inr rfl, (ih hrest).mpr ⟨t, rfl, hp⟩⟩

theorem lang_many_literal (hw : ∀ x ∈ w, x ≠ one ∧ x ≠ many) :
    Lang one many (many :: w) s ↔ w <:+ s := by
  have hlit := @lang_literal α _ one many [] w
  simp only [List.append_nil, lang_nil] at hlit
  rw [lang_many]
  constructor
  · rintro ⟨t, ht, hp⟩
    obtain ⟨u, rfl, rfl⟩ := (hlit hw).mp hp
    simpa using ht
  · exact fun h => ⟨w, h, (hlit hw).mpr ⟨[], by simp, rfl⟩⟩

/-- Taking the leftmost occurrence of a literal loses no match. -/
theorem lang_leftmost (hw : ∀ x ∈ w, x ≠ one ∧ x ≠ many) (hr : w ++ t <:+ s)
    (hleft : ∀ u, w ++ u <:+ s → u <:+ t) :
    Lang one many (many :: (w ++ many :: p)) s ↔ Lang one many (many :: p) t := by
  rw [lang_many]
  constructor
  · rintro ⟨v, hv, hp⟩
    obtain ⟨u, rfl, hu⟩ := (lang_literal hw).mp hp
    exact lang_many_mono hu (hleft u hv)
  · exact fun h => ⟨w ++ t, hr, (lang_literal hw).mpr ⟨t, rfl, h⟩⟩

theorem faced_nil : Faced one many [] s ↔ s = [] := Iff.rfl

theorem faced_cons (hc : c ≠ many) : Faced one many (c :: p) s ↔
    ∃ d t, s = d :: t ∧ (c = one ∨ c = d) ∧ Faced one many p t := by
  simp [Faced, hc]

theorem faced_many_self : Faced one many (many :: p) (many :: s) ↔ Faced one many p s := by
  simp [Faced]

theorem faced_many (hs : s.head? ≠ some many) : Faced one many (many :: p) s ↔
    ∃ t, t <:+ s ∧ Faced one many p t := by
  simp [Faced, hs]

theorem faced_symbol (h : c = one ∨ c = d) (hone : one ≠ many) :
    Faced one many (c :: p) (d :: s) ↔ Faced one many p s := by
  by_cases hc : c = many
  · subst hc
    obtain rfl := h.resolve_left hone.symm
    exact faced_many_self
  · rw [faced_cons hc]
    constructor
    · rintro ⟨e, t, heq, -, hp⟩
      obtain ⟨rfl, rfl⟩ := List.cons.inj heq
      exact hp
    · exact fun hp => ⟨d, s, rfl, h, hp⟩

theorem faced_mismatch (hc : c ≠ many) (h : ¬ (c = one ∨ c = d)) :
    ¬ Faced one many (c :: p) (d :: s) := by
  rw [faced_cons hc]
  rintro ⟨e, t, heq, hcd, -⟩
  obtain ⟨rfl, rfl⟩ := List.cons.inj heq
  exact h hcd

theorem faced_many_suffix (h : Faced one many (many :: p) s) :
    ∃ t, t <:+ s ∧ Faced one many p t := by
  by_cases hs : s.head? = some many
  · exact ⟨s.tail, List.tail_suffix s, by simpa [Faced, hs] using h⟩
  · exact (faced_many hs).mp h

theorem faced_end : Faced one many p [] ↔ ∀ x ∈ p, x = many := by
  induction p with
  | nil => simp [Faced]
  | cons c p ih =>
    by_cases hc : c = many
    · subst hc
      rw [faced_many (by simp)]
      simp [ih]
    · simp [faced_cons hc, hc]

theorem lang_of_faced (h : Faced one many p s) : Lang one many p s := by
  induction p generalizing s with
  | nil => exact h
  | cons c p ih =>
    by_cases hc : c = many
    · subst hc
      obtain ⟨t, ht, hp⟩ := faced_many_suffix h
      exact lang_many.mpr ⟨t, ht, ih hp⟩
    · obtain ⟨d, t, rfl, hcd, hp⟩ := (faced_cons hc).mp h
      exact (lang_cons hc).mpr ⟨d, t, rfl, hcd, ih hp⟩

theorem faced_iff_lang (hs : many ∉ s) : Faced one many p s ↔ Lang one many p s := by
  refine ⟨lang_of_faced, ?_⟩
  intro h
  induction p generalizing s with
  | nil => exact h
  | cons c p ih =>
    by_cases hc : c = many
    · subst hc
      obtain ⟨t, ht, hp⟩ := lang_many.mp h
      have hhead : s.head? ≠ some c := fun hh => hs (List.mem_of_mem_head? hh)
      exact (faced_many hhead).mpr ⟨t, ht, ih (fun hm => hs (ht.subset hm)) hp⟩
    · obtain ⟨d, t, rfl, hcd, hp⟩ := (lang_cons hc).mp h
      exact (faced_cons hc).mpr ⟨d, t, rfl, hcd, ih (fun hm => hs (by simp [hm])) hp⟩

/-- A segment that has matched symbol by symbol up to `s` can only be matched further
right, so what follows the segment is met no earlier than `s`. -/
theorem faced_shift (hone : one ≠ many) {seg u v : List α}
    (hseg : List.Forall₂ (fun e d => e = one ∨ e = d) seg u) (hv : v <:+ u ++ s)
    (h : Faced one many (seg ++ p) v) : ∃ t, t <:+ s ∧ Faced one many p t := by
  induction hseg generalizing v with
  | nil => exact ⟨v, hv, h⟩
  | @cons e d seg u hed _ ih =>
    rw [List.cons_append] at hv h
    by_cases hmany : e = many
    · subst hmany
      obtain rfl := hed.resolve_left hone.symm
      rcases List.suffix_cons_iff.mp hv with rfl | hv
      · exact ih List.suffix_rfl (faced_many_self.mp h)
      · obtain ⟨t, ht, hp⟩ := faced_many_suffix h
        exact ih (ht.trans hv) hp
    · obtain ⟨x, t, rfl, -, hp⟩ := (faced_cons hmany).mp h
      refine ih ?_ hp
      rcases List.suffix_cons_iff.mp hv with heq | hv
      · rw [(List.cons.inj heq).2]
      · exact (List.suffix_cons x t).trans hv

/-- After a mismatch, a further restart at an earlier `many` is subsumed by the later one. -/
theorem faced_shift_many (hone : one ≠ many) {seg u v : List α}
    (hs : s.head? ≠ some many)
    (hseg : List.Forall₂ (fun e d => e = one ∨ e = d) seg u) (hv : v <:+ u ++ s)
    (h : Faced one many (seg ++ many :: p) v) : Faced one many (many :: p) s := by
  obtain ⟨t, ht, hp⟩ := faced_shift hone hseg hv h
  obtain ⟨r, hr, hq⟩ := faced_many_suffix hp
  exact (faced_many hs).mpr ⟨r, hr.trans ht, hq⟩

end Wildcard
