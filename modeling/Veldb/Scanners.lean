import Mathlib.Data.List.Basic

/-! The two scanners of the client: when typed text is a whole statement, and how a file is cut
into statements. -/

namespace Veldb

namespace Client

def quote : Char := '\x27'

/-- `char::is_whitespace`: the code points with the property White_Space. -/
def isWhitespace (c : Char) : Bool :=
  (9 ≤ c.toNat && c.toNat ≤ 13) || (0x2000 ≤ c.toNat && c.toNat ≤ 0x200A) ||
    c.toNat ∈ [0x20, 0x85, 0xA0, 0x1680, 0x2028, 0x2029, 0x202F, 0x205F, 0x3000]

/-- The loop of `is_complete`: a doubled quote inside a literal is skipped as one. -/
def isCompleteFrom (inStr lastSemi : Bool) : List Char → Bool
  | [] => lastSemi
  | c :: rest =>
    if c = quote ∧ inStr = true ∧ rest.head? = some quote then
      isCompleteFrom inStr lastSemi rest.tail
    else if c = quote then isCompleteFrom (!inStr) lastSemi rest
    else if c = ';' ∧ inStr = false then isCompleteFrom inStr true rest
    else if ¬ isWhitespace c = true then isCompleteFrom inStr false rest
    else isCompleteFrom inStr lastSemi rest
termination_by cs => cs.length
decreasing_by
  all_goals simp only [List.length_cons, List.length_tail]; omega

def isComplete (input : String) : Bool :=
  isCompleteFrom false false input.toList

structure Split where
  out : List String
  cur : List Char
  inStr : Bool

/-- `str::trim` -/
def trim (cs : List Char) : List Char :=
  ((cs.dropWhile isWhitespace).reverse.dropWhile isWhitespace).reverse

/-- The current statement is put out unless it is blank. -/
def Split.put (s : Split) : List String :=
  if trim s.cur = [] then s.out else s.out ++ [String.ofList (trim s.cur)]

def splitStep (s : Split) (c : Char) : Split :=
  if c = quote then ⟨s.out, s.cur ++ [c], !s.inStr⟩
  else if c = ';' ∧ s.inStr = false then ⟨s.put, [], s.inStr⟩
  else ⟨s.out, s.cur ++ [c], s.inStr⟩

def splitScan (text : List Char) : Split :=
  text.foldl splitStep ⟨[], [], false⟩

def splitStatements (text : String) : List String :=
  (splitScan text.toList).put

/-- As `split_statements` scans the text, it ends outside a literal and only whitespace follows
the last semicolon outside one. -/
def EndsStatement (text : String) : Prop :=
  (splitScan text.toList).inStr = false ∧ ∃ before after, text.toList = before ++ ';' :: after ∧
    (splitScan before).inStr = false ∧ ∀ c ∈ after, isWhitespace c = true

/-- After the last semicolon outside a literal come quotes, and otherwise only whitespace. -/
def QuotesLast (text : String) : Prop :=
  ∃ before after, text.toList = before ++ ';' :: after ∧ (splitScan before).inStr = false ∧
    (∀ c ∈ after, isWhitespace c = true ∨ c = quote) ∧ quote ∈ after

section Scans

variable {inStr lastSemi : Bool} {cs : List Char} {c d : Char}

/-- A quote turns the state of the literal over. -/
def literalAfter (inStr : Bool) (cs : List Char) : Bool :=
  cs.foldl (fun b c => if c = quote then !b else b) inStr

theorem literalAfter_cons :
    literalAfter inStr (c :: cs) = literalAfter (if c = quote then !inStr else inStr) cs := rfl

theorem literalAfter_append (as bs : List Char) :
    literalAfter inStr (as ++ bs) = literalAfter (literalAfter inStr as) bs :=
  List.foldl_append

theorem literalAfter_blank (h : ∀ c ∈ cs, isWhitespace c = true) : literalAfter inStr cs = inStr := by
  induction cs with
  | nil => rfl
  | cons c cs ih =>
    obtain ⟨hc, hcs⟩ := List.forall_mem_cons.mp h
    have hquote : c ≠ quote := by
      rintro rfl
      exact absurd hc (by decide)
    rw [literalAfter_cons, if_neg hquote, ih hcs]

theorem foldl_inStr (s : Split) :
    (cs.foldl splitStep s).inStr = literalAfter s.inStr cs := by
  induction cs generalizing s with
  | nil => rfl
  | cons c cs ih =>
    rw [List.foldl_cons, ih, literalAfter_cons]
    congr 1
    unfold splitStep
    by_cases hquote : c = quote
    · rw [if_pos hquote, if_pos hquote]
    · rw [if_neg hquote, if_neg hquote]
      split_ifs <;> rfl

theorem splitScan_inStr (cs : List Char) : (splitScan cs).inStr = literalAfter false cs :=
  foldl_inStr _

/-- Only whitespace and quotes. -/
def Quiet (cs : List Char) : Prop :=
  ∀ c ∈ cs, isWhitespace c = true ∨ c = quote

/-- A semicolon outside a literal with nothing but whitespace and quotes behind it. -/
def LastSemicolon (inStr : Bool) (cs : List Char) : Prop :=
  ∃ before after, cs = before ++ ';' :: after ∧ literalAfter inStr before = false ∧ Quiet after

theorem quiet_cons : Quiet (c :: cs) ↔ (isWhitespace c = true ∨ c = quote) ∧ Quiet cs :=
  List.forall_mem_cons

theorem lastSemicolon_cons : LastSemicolon inStr (c :: cs) ↔
    (c = ';' ∧ inStr = false ∧ Quiet cs) ∨
      LastSemicolon (if c = quote then !inStr else inStr) cs := by
  constructor
  · rintro ⟨before, after, hcs, hout, hquiet⟩
    cases before with
    | nil =>
      obtain ⟨rfl, rfl⟩ := List.cons.inj hcs
      exact Or.inl ⟨rfl, hout, hquiet⟩
    | cons b before =>
      obtain ⟨rfl, rfl⟩ := List.cons.inj hcs
      exact Or.inr ⟨before, after, rfl, hout, hquiet⟩
  · rintro (⟨rfl, hout, hquiet⟩ | ⟨before, after, rfl, hout, hquiet⟩)
    · exact ⟨[], cs, rfl, hout, hquiet⟩
    · exact ⟨c :: before, after, rfl, hout, hquiet⟩

theorem lastSemicolon_quote :
    LastSemicolon inStr (quote :: cs) ↔ LastSemicolon (!inStr) cs := by
  rw [lastSemicolon_cons, if_pos rfl, or_iff_right]
  rintro ⟨h, -⟩
  exact absurd h (by decide)

theorem lastSemicolon_other (hquote : c ≠ quote) (hsemi : ¬ (c = ';' ∧ inStr = false)) :
    LastSemicolon inStr (c :: cs) ↔ LastSemicolon inStr cs := by
  rw [lastSemicolon_cons, if_neg hquote, or_iff_right]
  rintro ⟨h, hout, -⟩
  exact hsemi ⟨h, hout⟩

/-- The flag stays up behind whitespace and quotes alone. -/
theorem isCompleteFrom_iff (inStr lastSemi : Bool) (cs : List Char) :
    isCompleteFrom inStr lastSemi cs = true ↔
      (lastSemi = true ∧ Quiet cs) ∨ LastSemicolon inStr cs := by
  induction inStr, lastSemi, cs using isCompleteFrom.induct with
  | case1 inStr lastSemi =>
    have hnone : ¬ LastSemicolon inStr [] := by
      rintro ⟨before, after, h, -⟩
      simp at h
    rw [isCompleteFrom, or_iff_left hnone, and_iff_left (by simp [Quiet])]
  | case2 inStr lastSemi c rest h ih =>
    obtain ⟨rfl, hin, hhead⟩ := h
    obtain ⟨rest, rfl⟩ : ∃ t, rest = quote :: t := List.head?_eq_some_iff.mp hhead
    rw [isCompleteFrom, if_pos ⟨rfl, hin, hhead⟩, ih, List.tail_cons, lastSemicolon_quote,
      lastSemicolon_quote, Bool.not_not, quiet_cons, quiet_cons, and_iff_right (Or.inr rfl),
      and_iff_right (Or.inr rfl)]
  | case3 inStr lastSemi rest h ih =>
    rw [isCompleteFrom, if_neg h, if_pos rfl, ih, lastSemicolon_quote, quiet_cons,
      and_iff_right (Or.inr rfl)]
  | case4 inStr lastSemi c rest h hquote hsemi ih =>
    obtain ⟨rfl, rfl⟩ := hsemi
    have hnot : ¬ Quiet (';' :: rest) := fun hq => absurd (quiet_cons.mp hq).1 (by decide)
    rw [isCompleteFrom, if_neg h, if_neg hquote, if_pos ⟨rfl, rfl⟩, ih, lastSemicolon_cons,
      if_neg hquote]
    tauto
  | case5 inStr lastSemi c rest h hquote hsemi hblank ih =>
    have hnot : ¬ Quiet (c :: rest) := fun hq =>
      (quiet_cons.mp hq).1.elim hblank hquote
    rw [isCompleteFrom, if_neg h, if_neg hquote, if_neg hsemi, if_pos hblank, ih,
      lastSemicolon_other hquote hsemi, or_iff_right fun hq => absurd hq.1 (by decide),
      or_iff_right fun hq => hnot hq.2]
  | case6 inStr lastSemi c rest h hquote hsemi hblank ih =>
    rw [isCompleteFrom, if_neg h, if_neg hquote, if_neg hsemi, if_neg hblank, ih,
      lastSemicolon_other hquote hsemi, quiet_cons, and_iff_right (Or.inl (not_not.mp hblank))]

theorem isComplete_iff (text : String) : isComplete text = true ↔
    ∃ before after, text.toList = before ++ ';' :: after ∧ (splitScan before).inStr = false ∧
      Quiet after := by
  rw [isComplete, isCompleteFrom_iff, or_iff_right fun h => absurd h.1 (by decide)]
  simp only [splitScan_inStr]
  rfl

theorem quiet_semicolon (h : Quiet cs) : ';' ∉ cs :=
  fun hmem => absurd (h _ hmem) (by decide)

theorem after_unique {before after before' after' : List Char}
    (h : before ++ ';' :: after = before' ++ ';' :: after') (ha : ';' ∉ after) (ha' : ';' ∉ after') :
    after = after' := by
  have hhead : ∀ {mid x y : List Char}, ';' :: x = mid ++ ';' :: y → ';' ∉ x → x = y := by
    intro mid x y heq hx
    cases mid with
    | nil => exact (List.cons.inj heq).2
    | cons m mid =>
      have hin : ';' ∈ x := (List.cons.inj heq).2 ▸ by simp
      exact absurd hin hx
  rcases List.append_eq_append_iff.mp h with ⟨mid, -, heq⟩ | ⟨mid, -, heq⟩
  · exact hhead heq ha
  · exact (hhead heq ha').symm

/-- The client takes a text for a whole statement exactly when the file scanner ends one there,
but for texts with quotes behind the last semicolon: all of these it takes. -/
theorem isComplete_agrees_iff (text : String) :
    (isComplete text = true ↔ EndsStatement text) ↔ ¬ QuotesLast text := by
  rw [isComplete_iff]
  constructor
  · rintro h ⟨before, after, htext, hout, hquiet, hlast⟩
    obtain ⟨-, before', after', htext', -, hblank⟩ := h.mp ⟨before, after, htext, hout, hquiet⟩
    have hquiet' : Quiet after' := fun c hc => Or.inl (hblank c hc)
    have hsame := after_unique (htext.symm.trans htext') (quiet_semicolon hquiet)
      (quiet_semicolon hquiet')
    exact absurd (hblank quote (hsame ▸ hlast)) (by decide)
  · intro hnone
    constructor
    · rintro ⟨before, after, htext, hout, hquiet⟩
      have hblank : ∀ c ∈ after, isWhitespace c = true := by
        intro c hc
        refine (hquiet c hc).resolve_right fun hquote => ?_
        exact hnone ⟨before, after, htext, hout, hquiet, hquote ▸ hc⟩
      refine ⟨?_, before, after, htext, hout, hblank⟩
      rw [splitScan_inStr] at hout ⊢
      rw [htext, literalAfter_append, hout, literalAfter_cons, literalAfter_blank hblank]
      decide
    · rintro ⟨-, before, after, htext, hout, hblank⟩
      exact ⟨before, after, htext, hout, fun c hc => Or.inl (hblank c hc)⟩

/-- The literal after the semicolon is open, and one that is empty and closed counts for nothing. -/
theorem isComplete_not_agrees :
    (isComplete "SELECT 1; \x27" = true ∧ ¬ EndsStatement "SELECT 1; \x27") ∧
    isComplete "SELECT 1; \x27\x27" = true ∧ ¬ EndsStatement "SELECT 1; \x27\x27" := by
  have hopen : (splitScan "SELECT 1; \x27".toList).inStr = true := by decide +kernel
  refine ⟨⟨by decide +kernel, fun h => absurd (h.1.symm.trans hopen) (by decide)⟩,
    by decide +kernel, ?_⟩
  rintro ⟨-, before, after, htext, -, hblank⟩
  have hlast : "SELECT 1; \x27\x27".toList = "SELECT 1".toList ++ ';' :: " \x27\x27".toList := by
    decide +kernel
  have hsemi : ';' ∉ after := quiet_semicolon fun c hc => Or.inl (hblank c hc)
  have hafter := after_unique (hlast.symm.trans htext) (by decide +kernel) hsemi
  exact absurd (hblank quote (hafter ▸ by decide +kernel)) (by decide)

end Scans

end Client

end Veldb
