import Veldb.Library.Wildcard

/-! `LIKE` patterns: `%` is any sequence, `_` is one character. Strings are held
as their characters. -/

namespace Veldb

inductive Pattern where
  | chunks (parts : List (List Char)) (anchoredStart anchoredEnd : Bool)
  | chars (p : List Char)

/-- `str::find`: where the leftmost occurrence starts. -/
def find (part s : List Char) : Option Nat :=
  s.tails.findIdx? part.isPrefixOf

def stripPrefix (part s : List Char) : Option (List Char) :=
  if part.isPrefixOf s then some (s.drop part.length) else none

/-- The loop over the parts; `anchored` says that the next part is the first one
and the pattern does not start with `%`. -/
def matchParts (anchoredEnd : Bool) : Bool → List (List Char) → List Char → Bool
  | _, [], rest => !anchoredEnd || rest.isEmpty
  | anchored, part :: parts, rest =>
    if anchored then
      match stripPrefix part rest with
      | some r => matchParts anchoredEnd false parts r
      | none => false
    else if parts.isEmpty && anchoredEnd then
      decide (part.length ≤ rest.length) && part.isSuffixOf rest
    else
      match find part rest with
      | some p => matchParts anchoredEnd false parts (rest.drop (p + part.length))
      | none => false

/-- The variables of `match_chars`; `star` holds `star_pi` and `star_si` once a `%` was met. -/
structure MatchState where
  si : Nat
  pi : Nat
  star : Option (Nat × Nat)
  star_le : ∀ st ∈ star, st.2 ≤ si

def MatchState.start : MatchState :=
  ⟨0, 0, none, by simp⟩

def MatchState.advance (m : MatchState) : MatchState :=
  ⟨m.si + 1, m.pi + 1, m.star, fun st h => (m.star_le st h).trans (Nat.le_succ _)⟩

def MatchState.setStar (m : MatchState) : MatchState :=
  ⟨m.si, m.pi + 1, some (m.pi, m.si), by simp⟩

def MatchState.restart (starPi starSi : Nat) : MatchState :=
  ⟨starSi + 1, starPi + 1, some (starPi, starSi + 1), by simp⟩

/-- One turn of the loop at the text's character `c`; `none` is `return false`. -/
def matchStep (p : List Char) (c : Char) (m : MatchState) : Option MatchState :=
  if p[m.pi]?.any (fun e => e == '_' || e == c) then some m.advance
  else if p[m.pi]? == some '%' then some m.setStar
  else m.star.map fun st => MatchState.restart st.1 st.2

/-- How often the text position can still move to a new restart. -/
def MatchState.restarts (n : Nat) (m : MatchState) : Nat :=
  m.star.elim (n + 1) (n - ·.2)

theorem matchStep_cases {p : List Char} {c : Char} {m m' : MatchState}
    (h : matchStep p c m = some m') :
    (∃ e, p[m.pi]? = some e ∧ (e = '_' ∨ e = c) ∧ m' = m.advance) ∨
    (p[m.pi]? = some '%' ∧ c ≠ '%' ∧ m' = m.setStar) ∨
    (∃ st, m.star = some st ∧ (∀ e, p[m.pi]? = some e → e ≠ '%' ∧ ¬ (e = '_' ∨ e = c)) ∧
      m' = MatchState.restart st.1 st.2) := by
  unfold matchStep at h
  cases he : p[m.pi]? with
  | none =>
    simp only [he, Option.any_none, Bool.false_eq_true, if_false, beq_iff_eq,
      reduceCtorEq, Option.map_eq_some_iff] at h
    obtain ⟨st, hst, rfl⟩ := h
    exact Or.inr (Or.inr ⟨st, hst, by simp, rfl⟩)
  | some e =>
    simp only [he, Option.any_some, Bool.or_eq_true, beq_iff_eq, Option.some.injEq] at h
    by_cases hec : e = '_' ∨ e = c
    · rw [if_pos hec, Option.some.injEq] at h
      exact Or.inl ⟨e, rfl, hec, h.symm⟩
    rw [if_neg hec] at h
    by_cases hmany : e = '%'
    · rw [if_pos hmany, Option.some.injEq] at h
      subst hmany
      exact Or.inr (Or.inl ⟨rfl, fun hc => hec (Or.inr hc.symm), h.symm⟩)
    · rw [if_neg hmany, Option.map_eq_some_iff] at h
      obtain ⟨st, hst, rfl⟩ := h
      exact Or.inr (Or.inr ⟨st, hst, fun _ hx => Option.some.inj hx ▸ ⟨hmany, hec⟩, rfl⟩)

theorem matchStep_none {p : List Char} {c : Char} {m : MatchState}
    (h : matchStep p c m = none) :
    m.star = none ∧ ∀ e, p[m.pi]? = some e → e ≠ '%' ∧ ¬ (e = '_' ∨ e = c) := by
  unfold matchStep at h
  cases he : p[m.pi]? with
  | none => simpa [he] using h
  | some e =>
    simp only [he, Option.any_some, Bool.or_eq_true, beq_iff_eq, Option.some.injEq] at h
    by_cases hec : e = '_' ∨ e = c
    · simp [if_pos hec] at h
    rw [if_neg hec] at h
    by_cases hmany : e = '%'
    · simp [if_pos hmany] at h
    · rw [if_neg hmany, Option.map_eq_none_iff] at h
      exact ⟨h, fun _ hx => Option.some.inj hx ▸ ⟨hmany, hec⟩⟩

/-- Every turn moves to a later restart, or keeps it and consumes pattern. -/
theorem matchStep_decreases {p : List Char} {c : Char} {n : Nat} {m m' : MatchState}
    (hn : m.si < n) (h : matchStep p c m = some m') :
    Prod.Lex (· < ·) (· < ·) (m'.restarts n, p.length - m'.pi)
      (m.restarts n, p.length - m.pi) := by
  rw [Prod.lex_def]
  rcases matchStep_cases h with ⟨e, he, -, rfl⟩ | ⟨he, -, rfl⟩ | ⟨st, hst, -, rfl⟩
  · have hpi := (List.getElem?_eq_some_iff.mp he).1
    exact Or.inr ⟨rfl, by simp only [MatchState.advance]; omega⟩
  · have hpi := (List.getElem?_eq_some_iff.mp he).1
    have hstar := m.star_le
    cases hm : m.star with
    | none =>
      left
      simp only [MatchState.restarts, MatchState.setStar, hm, Option.elim]
      omega
    | some st =>
      have hle := hstar st hm
      simp only [MatchState.restarts, MatchState.setStar, hm, Option.elim]
      omega
  · have hle := m.star_le st hst
    left
    simp only [MatchState.restarts, MatchState.restart, hst, Option.elim]
    omega

def matchLoop (s p : List Char) (m : MatchState) : Bool :=
  if hsi : m.si < s.length then
    match hm : matchStep p s[m.si] m with
    | some m' => matchLoop s p m'
    | none => false
  else (p.drop m.pi).all (· == '%')
termination_by (m.restarts s.length, p.length - m.pi)
decreasing_by exact matchStep_decreases hsi hm

def matchChars (s p : List Char) : Bool :=
  matchLoop s p MatchState.start

def Pattern.compile (pat : String) : Pattern :=
  if pat.toList.contains '_' then .chars pat.toList
  else
    .chunks ((pat.toList.splitOn '%').filter (!·.isEmpty))
      (!List.isPrefixOf ['%'] pat.toList) (!List.isSuffixOf ['%'] pat.toList)

def Pattern.matches (pattern : Pattern) (s : String) : Bool :=
  match pattern with
  | .chunks parts anchoredStart anchoredEnd =>
    if parts.isEmpty then !(anchoredStart && anchoredEnd) || s.toList.isEmpty
    else matchParts anchoredEnd anchoredStart parts s.toList
  | .chars p => matchChars s.toList p

end Veldb
