import Veldb.Like

/-! What `LIKE` accepts: the chunk search is the language of the pattern, and the
matcher is the language in which a `%` standing at a `%` of the text takes it literally. -/

namespace Veldb

open Wildcard

theorem suffix_drop_iff {s t : List Char} {k : Nat} :
    t <:+ s.drop k ↔ t = s.drop k ∨ t <:+ s.drop (k + 1) := by
  by_cases hk : k < s.length
  · rw [List.drop_eq_getElem_cons hk, List.suffix_cons_iff]
  · have hs : s.drop k = [] := List.drop_eq_nil_of_le (by omega)
    have hs' : s.drop (k + 1) = [] := List.drop_eq_nil_of_le (by omega)
    simp [hs, hs']

namespace MatchState

/-- The text is accepted from here, or from a later start of the last `%`. -/
def Accepts (s p : List Char) (m : MatchState) : Prop :=
  Faced '_' '%' (p.drop m.pi) (s.drop m.si) ∨
    ∃ st, m.star = some st ∧ ∃ t, t <:+ s.drop (st.2 + 1) ∧
      Faced '_' '%' (p.drop (st.1 + 1)) t

/-- Since the last `%`, pattern and text were consumed symbol by symbol. -/
def Aligned (s p : List Char) (m : MatchState) : Prop :=
  ∀ st, m.star = some st → ∃ seg u, p.drop (st.1 + 1) = seg ++ p.drop m.pi ∧
    s.drop st.2 = u ++ s.drop m.si ∧ List.Forall₂ (fun e d => e = '_' ∨ e = d) seg u

variable {s p : List Char} {m m' : MatchState}

theorem start_aligned : start.Aligned s p := by
  intro st h
  cases h

theorem start_accepts : start.Accepts s p ↔ Faced '_' '%' p s := by
  simp [Accepts, start]

theorem drop_pi {e : Char} (he : p[m.pi]? = some e) : p.drop m.pi = e :: p.drop (m.pi + 1) := by
  obtain ⟨hpi, rfl⟩ := List.getElem?_eq_some_iff.mp he
  exact List.drop_eq_getElem_cons hpi

theorem Aligned.suffix (ha : m.Aligned s p) {st : Nat × Nat} (hst : m.star = some st)
    {t : List Char} (ht : t <:+ s.drop (st.2 + 1)) :
    ∃ seg u, p.drop (st.1 + 1) = seg ++ p.drop m.pi ∧ t <:+ u ++ s.drop m.si ∧
      List.Forall₂ (fun e d => e = '_' ∨ e = d) seg u := by
  obtain ⟨seg, u, hp, hs, hseg⟩ := ha st hst
  exact ⟨seg, u, hp, hs ▸ suffix_drop_iff.mpr (Or.inr ht), hseg⟩

theorem advance_aligned {e : Char} (ha : m.Aligned s p) (hsi : m.si < s.length)
    (he : p[m.pi]? = some e) (hec : e = '_' ∨ e = s[m.si]) : m.advance.Aligned s p := by
  intro st hst
  obtain ⟨seg, u, hp, hs, hseg⟩ := ha st hst
  refine ⟨seg ++ [e], u ++ [s[m.si]], ?_, ?_, ?_⟩
  · rw [hp, drop_pi he, List.append_assoc]
    rfl
  · rw [hs, List.drop_eq_getElem_cons hsi, List.append_assoc]
    rfl
  · exact List.rel_append hseg (List.Forall₂.cons hec List.Forall₂.nil)

theorem advance_accepts {e : Char} (hsi : m.si < s.length) (he : p[m.pi]? = some e)
    (hec : e = '_' ∨ e = s[m.si]) : m.Accepts s p ↔ m.advance.Accepts s p := by
  unfold Accepts
  rw [drop_pi he, List.drop_eq_getElem_cons hsi, faced_symbol hec (by decide)]
  rfl

theorem setStar_aligned : m.setStar.Aligned s p := by
  rintro st hst
  obtain rfl := Option.some.inj hst
  exact ⟨[], [], rfl, rfl, List.Forall₂.nil⟩

theorem setStar_accepts (ha : m.Aligned s p) (hsi : m.si < s.length) (he : p[m.pi]? = some '%')
    (hc : s[m.si] ≠ '%') : m.Accepts s p ↔ m.setStar.Accepts s p := by
  have hhead : (s.drop m.si).head? ≠ some '%' := by
    simpa [List.head?_drop, List.getElem?_eq_getElem hsi] using hc
  have hhere : m.Accepts s p ↔ Faced '_' '%' ('%' :: p.drop (m.pi + 1)) (s.drop m.si) := by
    unfold Accepts
    rw [drop_pi he]
    refine or_iff_left_of_imp ?_
    rintro ⟨st, hst, t, ht, h⟩
    obtain ⟨seg, u, hp, hu, hseg⟩ := ha.suffix hst ht
    rw [hp, drop_pi he] at h
    exact faced_shift_many (by decide) hhead hseg hu h
  rw [hhere, faced_many hhead]
  constructor
  · rintro ⟨t, ht, h⟩
    rcases suffix_drop_iff.mp ht with rfl | ht
    · exact Or.inl h
    · exact Or.inr ⟨_, rfl, t, ht, h⟩
  · rintro (h | ⟨st, hst, t, ht, h⟩)
    · exact ⟨_, List.suffix_rfl, h⟩
    · obtain rfl := Option.some.inj hst
      exact ⟨t, suffix_drop_iff.mpr (Or.inr ht), h⟩

theorem restart_aligned {starPi starSi : Nat} : (restart starPi starSi).Aligned s p := by
  rintro st hst
  obtain rfl := Option.some.inj hst
  exact ⟨[], [], rfl, rfl, List.Forall₂.nil⟩

theorem not_faced_of_stuck (hsi : m.si < s.length)
    (hp : ∀ e, p[m.pi]? = some e → e ≠ '%' ∧ ¬ (e = '_' ∨ e = s[m.si])) :
    ¬ Faced '_' '%' (p.drop m.pi) (s.drop m.si) := by
  rw [List.drop_eq_getElem_cons hsi]
  cases he : p[m.pi]? with
  | none =>
    rw [List.drop_eq_nil_of_le (List.getElem?_eq_none_iff.mp he), faced_nil]
    exact List.cons_ne_nil _ _
  | some e =>
    rw [drop_pi he]
    exact faced_mismatch (hp e he).1 (hp e he).2

theorem restart_accepts {st : Nat × Nat} (hsi : m.si < s.length) (hst : m.star = some st)
    (hp : ∀ e, p[m.pi]? = some e → e ≠ '%' ∧ ¬ (e = '_' ∨ e = s[m.si])) :
    m.Accepts s p ↔ (restart st.1 st.2).Accepts s p := by
  constructor
  · rintro (h | ⟨st', hst', t, ht, h⟩)
    · exact absurd h (not_faced_of_stuck hsi hp)
    · obtain rfl := Option.some.inj (hst.symm.trans hst')
      rcases suffix_drop_iff.mp ht with rfl | ht
      · exact Or.inl h
      · exact Or.inr ⟨_, rfl, t, ht, h⟩
  · rintro (h | ⟨st', hst', t, ht, h⟩)
    · exact Or.inr ⟨st, hst, _, List.suffix_rfl, h⟩
    · obtain rfl := Option.some.inj hst'
      exact Or.inr ⟨st, hst, t, suffix_drop_iff.mpr (Or.inr ht), h⟩

theorem step_accepts (ha : m.Aligned s p) (hsi : m.si < s.length)
    (h : matchStep p s[m.si] m = some m') :
    m'.Aligned s p ∧ (m.Accepts s p ↔ m'.Accepts s p) := by
  rcases matchStep_cases h with ⟨e, he, hec, rfl⟩ | ⟨he, hc, rfl⟩ | ⟨st, hst, hp, rfl⟩
  · exact ⟨advance_aligned ha hsi he hec, advance_accepts hsi he hec⟩
  · exact ⟨setStar_aligned, setStar_accepts ha hsi he hc⟩
  · exact ⟨restart_aligned, restart_accepts hsi hst hp⟩

theorem not_accepts_of_none (hsi : m.si < s.length) (h : matchStep p s[m.si] m = none) :
    ¬ m.Accepts s p := by
  obtain ⟨hstar, hp⟩ := matchStep_none h
  rintro (hf | ⟨st, hst, -⟩)
  · exact not_faced_of_stuck hsi hp hf
  · simp [hstar] at hst

theorem accepts_end (ha : m.Aligned s p) (hsi : s.length ≤ m.si) :
    m.Accepts s p ↔ (p.drop m.pi).all (· == '%') = true := by
  have hs : s.drop m.si = [] := List.drop_eq_nil_of_le hsi
  have hend : m.Accepts s p ↔ Faced '_' '%' (p.drop m.pi) [] := by
    unfold Accepts
    rw [hs]
    refine or_iff_left_of_imp ?_
    rintro ⟨st, hst, t, ht, h⟩
    obtain ⟨seg, u, hp, hu, hseg⟩ := ha.suffix hst ht
    rw [hp] at h
    obtain ⟨v, hv, hf⟩ := faced_shift (by decide) hseg hu h
    rw [hs, List.suffix_nil] at hv
    exact hv ▸ hf
  rw [hend, faced_end]
  simp

end MatchState

theorem matchLoop_eq_true {s p : List Char} (m : MatchState) (ha : m.Aligned s p) :
    matchLoop s p m = true ↔ m.Accepts s p := by
  induction m using matchLoop.induct s p with
  | case1 m hsi m' hm ih =>
    obtain ⟨ha', hacc⟩ := m.step_accepts ha hsi hm
    rw [matchLoop, dif_pos hsi, hacc, ← ih ha']
    split
    · next m'' hm' => rw [Option.some.inj (hm.symm.trans hm')]
    · next hm' => simp [hm] at hm'
  | case2 m hsi hm =>
    have hno := m.not_accepts_of_none hsi hm
    rw [matchLoop, dif_pos hsi]
    split
    · next m'' hm' => simp [hm] at hm'
    · simpa using hno
  | case3 m hsi =>
    rw [matchLoop, dif_neg hsi, m.accepts_end ha (by omega)]

theorem matchChars_eq_true {s p : List Char} : matchChars s p = true ↔ Faced '_' '%' p s := by
  rw [matchChars, matchLoop_eq_true _ MatchState.start_aligned, MatchState.start_accepts]

theorem find_eq_some {part s : List Char} {i : Nat} (h : find part s = some i) :
    part ++ s.drop (i + part.length) <:+ s ∧
      ∀ u, part ++ u <:+ s → u <:+ s.drop (i + part.length) := by
  obtain ⟨hi, hpre, hmin⟩ := List.findIdx?_eq_some_iff_getElem.mp h
  simp only [List.getElem_tails, List.isPrefixOf_iff_prefix] at hpre hmin
  constructor
  · obtain ⟨r, hr⟩ := hpre
    rw [← List.drop_drop, ← hr, List.drop_left, hr]
    exact List.drop_suffix i s
  · intro u hu
    have hj : part ++ u = s.drop (s.length - (part ++ u).length) := List.suffix_iff_eq_drop.mp hu
    have hge : i ≤ s.length - (part ++ u).length := by
      by_contra hlt
      exact hmin _ (by omega) (hj ▸ List.prefix_append part u)
    obtain ⟨k, hk⟩ := Nat.exists_eq_add_of_le hge
    have hdrop : u = (s.drop (i + part.length)).drop k := by
      have hu' : u = (part ++ u).drop part.length := by simp
      rw [hu', hj, hk, List.drop_drop, List.drop_drop]
      congr 1
      omega
    exact hdrop ▸ List.drop_suffix k _

theorem find_eq_none {part s u : List Char} (h : find part s = none) : ¬ part ++ u <:+ s := by
  intro hu
  have hno := List.findIdx?_eq_none_iff.mp h _ ((List.mem_tails _ _).mpr hu)
  rw [List.isPrefixOf_iff_prefix.mpr (List.prefix_append part u)] at hno
  cases hno

def Literal (w : List Char) : Prop := ∀ x ∈ w, x ≠ '_' ∧ x ≠ '%'

def joined (cs : List (List Char)) : List Char := cs.flatMap ('%' :: ·)

theorem joined_cons (c : List Char) (cs : List (List Char)) :
    joined (c :: cs) = '%' :: (c ++ joined cs) := by
  simp [joined]

theorem getLast?_of_empty {cs : List (List Char)} (hcs : cs ≠ [])
    (h : cs.filter (!·.isEmpty) = []) : cs.getLast? = some [] := by
  have hall : ∀ d ∈ cs, d = [] := by simpa [List.filter_eq_nil_iff] using h
  obtain ⟨d, hd⟩ := Option.ne_none_iff_exists'.mp (List.getLast?_eq_none_iff.not.mpr hcs)
  rw [hd, hall d (List.mem_of_getLast? hd)]

theorem lang_joined_find {c : List Char} {cs : List (List Char)} {s : List Char} (hc : Literal c)
    (hcs : cs ≠ []) :
    Lang '_' '%' (joined (c :: cs)) s ↔
      ∃ i, find c s = some i ∧ Lang '_' '%' (joined cs) (s.drop (i + c.length)) := by
  obtain ⟨c', cs', rfl⟩ := List.exists_cons_of_ne_nil hcs
  rw [joined_cons c, joined_cons c']
  cases hfind : find c s with
  | none =>
    have hno : ¬ Lang '_' '%' ('%' :: (c ++ '%' :: (c' ++ joined cs'))) s := by
      rw [lang_many]
      rintro ⟨t, ht, h⟩
      obtain ⟨u, rfl, -⟩ := (lang_literal hc).mp h
      exact find_eq_none hfind ht
    simp [hno]
  | some i =>
    obtain ⟨hsuf, hleft⟩ := find_eq_some hfind
    rw [lang_leftmost hc hsuf hleft]
    simp

/-- The loop over the parts decides the pattern whose pieces follow a `%` each. -/
theorem matchParts_eq_true {anchoredEnd : Bool} (cs : List (List Char)) (s : List Char)
    (hlit : ∀ c ∈ cs, Literal c) (hend : anchoredEnd = true ↔ cs.getLast? ≠ some []) :
    matchParts anchoredEnd false (cs.filter (!·.isEmpty)) s = true ↔
      Lang '_' '%' (joined cs) s := by
  induction cs generalizing s with
  | nil =>
    have hanchored : anchoredEnd = true := hend.mpr (by simp)
    simp [matchParts, joined, lang_nil, hanchored]
  | cons c cs ih =>
    have hc : Literal c := hlit c (by simp)
    have ih' : cs ≠ [] → ∀ t, matchParts anchoredEnd false (cs.filter (!·.isEmpty)) t = true ↔
        Lang '_' '%' (joined cs) t := by
      intro hcs t
      refine ih t (fun d hd => hlit d (by simp [hd])) ?_
      rwa [List.getLast?_cons_of_ne_nil hcs] at hend
    by_cases hempty : c = []
    · subst hempty
      rw [List.filter_cons_of_neg (by simp)]
      rcases cs with _ | ⟨c', cs⟩
      · have hfree : anchoredEnd = false := by simpa using hend
        simp [matchParts, joined, lang_many_nil, hfree]
      · rw [ih' (List.cons_ne_nil _ _), joined_cons [], joined_cons c', List.nil_append,
          lang_many_many]
    · rw [List.filter_cons_of_pos (by simpa using hempty)]
      rcases cs with _ | ⟨c', cs⟩
      · have hanchored : anchoredEnd = true := by simpa [hempty] using hend
        have hjoined : joined [c] = '%' :: c := by simp [joined]
        simp only [matchParts, List.filter_nil, List.isEmpty_nil, hanchored, Bool.and_self,
          Bool.false_eq_true, if_false, if_true]
        rw [hjoined, lang_many_literal hc, Bool.and_eq_true, decide_eq_true_eq,
          List.isSuffixOf_iff_suffix]
        exact ⟨And.right, fun h => ⟨h.length_le, h⟩⟩
      · have hmore : ¬ (((c' :: cs).filter (!·.isEmpty)).isEmpty && anchoredEnd) = true := by
          rw [Bool.and_eq_true, hend]
          rintro ⟨hnone, hlast⟩
          rw [List.getLast?_cons_of_ne_nil (List.cons_ne_nil _ _)] at hlast
          exact hlast (getLast?_of_empty (List.cons_ne_nil _ _) (List.isEmpty_iff.mp hnone))
        rw [matchParts, if_neg (by decide), if_neg hmore,
          lang_joined_find hc (List.cons_ne_nil c' cs)]
        cases hfind : find c s with
        | none => simp
        | some i => simpa using ih' (List.cons_ne_nil _ _) _

theorem splitOn_joined (p : List Char) :
    ∃ c cs, p.splitOn '%' = c :: cs ∧ p = c ++ joined cs ∧ ∀ d ∈ c :: cs, '%' ∉ d := by
  induction p with
  | nil => exact ⟨[], [], rfl, rfl, by simp⟩
  | cons x p ih =>
    obtain ⟨c, cs, hsplit, hp, hfree⟩ := ih
    rw [List.splitOn_cons_eq_if_modifyHead, hsplit]
    by_cases hx : x = '%'
    · subst hx
      refine ⟨[], c :: cs, by simp, by rw [joined_cons, ← hp]; rfl, ?_⟩
      intro d hd
      rcases List.mem_cons.mp hd with rfl | hd
      · exact List.not_mem_nil
      · exact hfree d hd
    · refine ⟨x :: c, cs, by simp [hx], by rw [hp]; rfl, ?_⟩
      intro d hd
      rcases List.mem_cons.mp hd with rfl | hd
      · simpa [Ne.symm hx] using hfree c (by simp)
      · exact hfree d (by simp [hd])

theorem percent_suffix_iff {c : List Char} {cs : List (List Char)}
    (hfree : ∀ d ∈ c :: cs, '%' ∉ d) :
    ['%'] <:+ c ++ joined cs ↔ cs.getLast? = some [] := by
  have hlast : ∀ d : List Char, '%' ∉ d → ∀ w, ['%'] <:+ w ++ d → d = [] := by
    intro d hd w hw
    rcases List.eq_nil_or_concat d with rfl | ⟨d', x, rfl⟩
    · rfl
    · obtain ⟨v, hv⟩ := hw
      rw [List.concat_eq_append, ← List.append_assoc] at hv
      have hx := (List.append_inj' hv rfl).2
      simp_all
  rcases List.eq_nil_or_concat cs with rfl | ⟨cs, d, rfl⟩
  · refine iff_of_false ?_ (by simp)
    intro h
    have hc := hlast c (hfree c (by simp)) [] (by simpa [joined] using h)
    simp [hc, joined] at h
  · have hj : c ++ joined (cs.concat d) = (c ++ joined cs ++ ['%']) ++ d := by
      simp [joined]
    rw [hj, List.concat_eq_append, List.getLast?_append]
    constructor
    · intro h
      simpa using hlast d (hfree d (by simp)) _ h
    · intro h
      have hd : d = [] := by simpa using h
      exact ⟨c ++ joined cs, by simp [hd]⟩

def InLanguage (pattern s : String) : Prop := Lang '_' '%' pattern.toList s.toList

/-- In the language, with a `%` standing at a `%` of the text taking it alone. -/
def InLanguageFaced (pattern s : String) : Prop := Faced '_' '%' pattern.toList s.toList

theorem matches_chunks {pattern : String} (h : '_' ∉ pattern.toList) (s : String) :
    (Pattern.compile pattern).matches s = true ↔ InLanguage pattern s := by
  obtain ⟨c, cs, hsplit, hp, hfree⟩ := splitOn_joined pattern.toList
  have hlit : ∀ d ∈ c :: cs, Literal d := by
    intro d hd x hx
    refine ⟨?_, fun hxe => hfree d hd (hxe ▸ hx)⟩
    rintro rfl
    rw [hp] at h
    rcases List.mem_cons.mp hd with rfl | hd
    · exact h (List.mem_append_left _ hx)
    · exact h (List.mem_append_right _ (List.mem_flatMap.mpr ⟨d, hd, by simp [hx]⟩))
  have hend : (!List.isSuffixOf ['%'] pattern.toList) = true ↔ cs.getLast? ≠ some [] := by
    rw [Bool.not_eq_true', ← Bool.not_eq_true, List.isSuffixOf_iff_suffix, hp,
      percent_suffix_iff hfree]
  have hparts := fun t => matchParts_eq_true cs t (fun d hd => hlit d (by simp [hd])) hend
  rw [Pattern.compile, if_neg (by simpa using h), hsplit]
  unfold Pattern.matches InLanguage
  by_cases hc : c = []
  · subst hc
    rw [List.filter_cons_of_neg (by simp)]
    rcases cs with _ | ⟨c', cs⟩
    · simp [hp, joined, lang_nil]
    · have hstart : List.isPrefixOf ['%'] pattern.toList = true := by
        rw [hp, joined_cons]
        simp
      by_cases hempty : (c' :: cs).filter (!·.isEmpty) = []
      · have hfree' := hend.not.mpr (not_not.mpr (getLast?_of_empty (List.cons_ne_nil _ _) hempty))
        rw [Bool.not_eq_true] at hfree'
        have hall := hparts s.toList
        rw [hempty, hfree', matchParts] at hall
        rw [hempty, hstart, hp]
        simpa using hall
      · have hne : ((c' :: cs).filter (!·.isEmpty)).isEmpty = false :=
          List.isEmpty_eq_false_iff.mpr hempty
        have hlang := hparts s.toList
        rw [← List.nil_append (joined (c' :: cs)), ← hp] at hlang
        simpa only [hne, hstart, Bool.false_eq_true, if_false, Bool.not_true] using hlang
  · rw [List.filter_cons_of_pos (by simpa using hc)]
    have hstart : List.isPrefixOf ['%'] pattern.toList = false := by
      obtain ⟨x, c, rfl⟩ := List.exists_cons_of_ne_nil hc
      have hx := (hlit (x :: c) (by simp) x (by simp)).2
      rw [hp, ← Bool.not_eq_true, List.isPrefixOf_iff_prefix, List.cons_append, List.cons_prefix_cons]
      exact fun h => hx h.1.symm
    rw [hstart, hp, lang_literal (hlit c (by simp))]
    simp only [List.isEmpty_cons, Bool.false_eq_true, if_false, Bool.not_false, matchParts,
      if_true, stripPrefix]
    by_cases hpre : c <+: s.toList
    · obtain ⟨t, ht⟩ := hpre
      rw [if_pos (List.isPrefixOf_iff_prefix.mpr ⟨t, ht⟩), ← ht]
      simpa [hp] using hparts t
    · rw [if_neg (by simpa using hpre)]
      simp only [Bool.false_eq_true, false_iff]
      rintro ⟨t, ht, -⟩
      exact hpre ⟨t, ht.symm⟩

theorem matches_chars {pattern : String} (h : '_' ∈ pattern.toList) (s : String) :
    (Pattern.compile pattern).matches s = true ↔ InLanguageFaced pattern s := by
  rw [Pattern.compile, if_pos (by simpa using h)]
  exact matchChars_eq_true

theorem matches_plain_text {s : String} (hs : '%' ∉ s.toList) (pattern : String) :
    (Pattern.compile pattern).matches s = true ↔ InLanguage pattern s := by
  by_cases h : '_' ∈ pattern.toList
  · rw [matches_chars h]
    exact faced_iff_lang hs
  · exact matches_chunks h s

theorem matches_iff_inLanguage (pattern s : String) :
    ((Pattern.compile pattern).matches s = true ↔ InLanguage pattern s) ↔
      '_' ∉ pattern.toList ∨ (InLanguage pattern s → InLanguageFaced pattern s) := by
  by_cases h : '_' ∈ pattern.toList
  · rw [matches_chars h]
    constructor
    · exact fun hiff => Or.inr hiff.mpr
    · rintro (hno | himp)
      · exact absurd h hno
      · exact ⟨lang_of_faced, himp⟩
  · exact iff_of_true (matches_chunks h s) (Or.inl h)

theorem matches_misses_percent :
    (Pattern.compile "_%").matches "a%b" = false ∧ InLanguage "_%" "a%b" := by
  constructor
  · rw [← Bool.not_eq_true, matches_chars (by decide)]
    unfold InLanguageFaced
    simp [Faced]
  · refine (lang_cons (by decide)).mpr ⟨'a', ['%', 'b'], rfl, Or.inl rfl, ?_⟩
    exact lang_many_nil

end Veldb
