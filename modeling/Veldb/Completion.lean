import Mathlib.Data.List.Destutter
import Veldb.Crashes
import Veldb.Scanners
import Veldb.TextChars

/-! Completion in the client: the word before the cursor and what it may become. `alphanumeric`
and `lower` are `char::is_alphanumeric` and `str::to_lowercase`. -/

namespace Veldb

open Attempts

namespace Client

/-- A position before a character or at the end: the bytes up to it are whole characters. -/
def isCharBoundary (s : String) (n : Nat) : Bool :=
  decide (n ≤ (utf8 s).length) && (fromUtf8 ((utf8 s).take n)).isSome

/-- `&s[start..stop]` -/
def sliceText (s : String) (start stop : Nat) : Exec String :=
  if start ≤ stop ∧ isCharBoundary s start = true ∧ isCharBoundary s stop = true then
    match fromUtf8 (slice (utf8 s) start stop) with
    | some t => .ok t
    | none => crash "unreachable"
  else crash "byte index is not a char boundary"

/-- `str::rfind`: the place in bytes of the last character of a kind. -/
def rfindFrom (p : Char → Bool) (off : Nat) (found : Option Nat) : List Char → Option Nat
  | [] => found
  | c :: cs => rfindFrom p (off + c.utf8Size) (if p c = true then some off else found) cs

def rfind (p : Char → Bool) (s : String) : Option Nat :=
  rfindFrom p 0 none s.toList

def isWordChar (alphanumeric : Char → Bool) (c : Char) : Bool :=
  alphanumeric c || c == '_' || c == '\x5c'

def wordAt (alphanumeric : Char → Bool) (line : String) (pos : Nat) : Exec (Nat × String) := do
  let head ← sliceText line 0 pos
  let start := ((rfind (fun c => !isWordChar alphanumeric c) head).map (· + 1)).getD 0
  return (start, ← sliceText head start (utf8 head).length)

def keywords : List String :=
  ["SELECT", "FROM", "WHERE", "GROUP BY", "ORDER BY", "LIMIT", "OFFSET", "INSERT INTO", "VALUES",
    "CREATE TABLE", "DROP TABLE", "IF EXISTS", "IF NOT EXISTS", "SHOW TABLES", "AND", "OR", "NOT",
    "IN", "BETWEEN", "LIKE", "ILIKE", "AS", "ASC", "DESC", "DISTINCT", "CAST", "EXTRACT", "INT",
    "DOUBLE", "BOOL", "TEXT", "VECTOR", "count(", "sum(", "avg(", "min(", "max(", "uniq(",
    "length(", "lower(", "upper(", "abs(", "floor(", "ceil(", "round(", "sqrt(", "substring(",
    "to_hour(", "to_day(", "to_month(", "to_year(", "if(", "l2_distance(", "cosine_distance(",
    "inner_product("]

/-- What the client knows of the tables and of the columns of each. -/
structure Names where
  tables : List String
  columns : List (String × List String)

/-- Sorted, and each name once. -/
def sortDedup (v : List String) : List String :=
  (v.mergeSort (fun a b => decide (a ≤ b))).destutter (· ≠ ·)

def Names.allColumns (cat : Names) : List String :=
  sortDedup (cat.columns.flatMap Prod.snd)

def startsWith (s part : String) : Bool :=
  part.toList.isPrefixOf s.toList

def pick (lower : String → String) (cands : List String) (word : String) : List String :=
  sortDedup (cands.filter fun c => startsWith (lower c) word)

/-- The last word between whitespace, or no word. -/
def lastWord (s : String) : String :=
  String.ofList ((s.toList.reverse.dropWhile isWhitespace).takeWhile (fun c => !isWhitespace c)).reverse

def complete (alphanumeric : Char → Bool) (lower : String → String) (line : String) (pos : Nat)
    (cat : Names) : Exec (Nat × List String) := do
  let (start, word) ← wordAt alphanumeric line pos
  let lowered := lower word
  if startsWith word "\x5c" then
    return (start, pick lower ["\x5cdt", "\x5cd", "\x5ctiming", "\x5cq", "\x5chelp"] lowered)
  else
    let prev := lower (lastWord (← sliceText line 0 start))
    if prev ∈ ["from", "into", "table", "join", "update"] then
      return (start, pick lower cat.tables lowered)
    else
      return (start, pick lower (cat.allColumns ++ cat.tables ++ keywords) lowered)

section Boundaries

variable {s t : String} {cs w pre post : List Char} {c : Char} {p : Char → Bool} {start stop : Nat}

/-- The bytes of a text. -/
def size (cs : List Char) : Nat :=
  (utf8 (String.ofList cs)).length

theorem size_toList (s : String) : size s.toList = (utf8 s).length := by
  rw [size, String.ofList_toList]

@[simp] theorem size_nil : size [] = 0 := rfl

@[simp] theorem size_append (xs ys : List Char) : size (xs ++ ys) = size xs + size ys := by
  rw [size, String.ofList_append, utf8_append, List.length_append]
  rfl

@[simp] theorem size_cons (c : Char) (cs : List Char) : size (c :: cs) = c.utf8Size + size cs := by
  rw [size, utf8_ofList, List.flatMap_cons, List.length_append, ← utf8_ofList,
    String.length_utf8EncodeChar]
  rfl

theorem utf8_inj (h : utf8 s = utf8 t) : s = t :=
  Option.some.inj (by rw [← fromUtf8_utf8 s, h, fromUtf8_utf8])

theorem isCharBoundary_iff {n : Nat} : isCharBoundary s n = true ↔
    ∃ pre post, s.toList = pre ++ post ∧ size pre = n := by
  rw [isCharBoundary, Bool.and_eq_true_iff, decide_eq_true_iff]
  constructor
  · rintro ⟨hle, hvalid⟩
    have hrest : (fromUtf8 ((utf8 s).drop n)).isSome := by
      refine fromUtf8_cancel hvalid ?_
      rw [List.take_append_drop, fromUtf8_utf8]
      rfl
    obtain ⟨a, ha⟩ := Option.isSome_iff_exists.mp hvalid
    obtain ⟨b, hb⟩ := Option.isSome_iff_exists.mp hrest
    have hsplit : s = a ++ b := by
      apply utf8_inj
      rw [utf8_append, fromUtf8_eq_some ha, fromUtf8_eq_some hb, List.take_append_drop]
    refine ⟨a.toList, b.toList, by rw [hsplit, String.toList_append], ?_⟩
    rw [size_toList, fromUtf8_eq_some ha, List.length_take, Nat.min_eq_left hle]
  · rintro ⟨pre, post, hs, rfl⟩
    have hbytes : utf8 s = utf8 (String.ofList pre) ++ utf8 (String.ofList post) := by
      rw [← utf8_append, ← String.ofList_append, ← hs, String.ofList_toList]
    constructor
    · rw [hbytes, List.length_append]
      exact Nat.le_add_right _ _
    · rw [hbytes, size, List.take_left, fromUtf8_utf8]
      rfl

/-- Inside a character there is no boundary. -/
theorem isCharBoundary_inside (hs : s.toList = pre ++ c :: post) (hwide : c.utf8Size ≠ 1) :
    ¬ isCharBoundary s (size pre + 1) = true := by
  intro h
  obtain ⟨pre', post', hs', hsize⟩ := isCharBoundary_iff.mp h
  have hpos : 0 < c.utf8Size := c.utf8Size_pos
  rcases List.append_eq_append_iff.mp (hs.symm.trans hs') with ⟨mid, hmid, hpost⟩ | ⟨mid, hmid, -⟩
  · cases mid with
    | nil =>
      rw [hmid, List.append_nil] at hsize
      omega
    | cons m mid =>
      obtain ⟨rfl, -⟩ := List.cons.inj hpost
      rw [hmid, size_append, size_cons] at hsize
      omega
  · rw [hmid, size_append] at hsize
    omega

theorem sliceText_chars (hs : s.toList = pre ++ w ++ post) (hstart : size pre = start)
    (hstop : size (pre ++ w) = stop) : sliceText s start stop = .ok (String.ofList w) := by
  have hle : start ≤ stop := by
    rw [← hstart, ← hstop, size_append]
    exact Nat.le_add_right _ _
  have hbounds : isCharBoundary s start = true ∧ isCharBoundary s stop = true :=
    ⟨isCharBoundary_iff.mpr ⟨pre, w ++ post, by rw [hs, List.append_assoc], hstart⟩,
      isCharBoundary_iff.mpr ⟨pre ++ w, post, hs, hstop⟩⟩
  have hbytes : utf8 s =
      (utf8 (String.ofList pre) ++ utf8 (String.ofList w)) ++ utf8 (String.ofList post) := by
    rw [← utf8_append, ← String.ofList_append, ← utf8_append, ← String.ofList_append, ← hs,
      String.ofList_toList]
  have htaken : (utf8 s).take stop = utf8 (String.ofList pre) ++ utf8 (String.ofList w) := by
    rw [hbytes, List.take_left']
    rw [← hstop, size_append, List.length_append]
    rfl
  have hslice : slice (utf8 s) start stop = utf8 (String.ofList w) := by
    rw [slice, htaken, List.drop_left' hstart]
  rw [sliceText, if_pos ⟨hle, hbounds⟩, hslice, fromUtf8_utf8]

theorem sliceText_head (hs : s.toList = w ++ post) (hstop : size w = stop) :
    sliceText s 0 stop = .ok (String.ofList w) := by
  have hsplit : s.toList = [] ++ w ++ post := hs
  exact sliceText_chars hsplit size_nil hstop

theorem sliceText_crash (h : ¬ isCharBoundary s start = true) : Crashes (sliceText s start stop) := by
  rw [sliceText, if_neg fun hall => h hall.2.1]
  exact crashes_crash _

end Boundaries

section Words

variable {alphanumeric : Char → Bool} {lower : String → String} {line head : String} {pos : Nat}
  {cs w pre : List Char} {c : Char} {p : Char → Bool}

theorem rfindFrom_append (p : Char → Bool) (off : Nat) (found : Option Nat) (xs ys : List Char) :
    rfindFrom p off found (xs ++ ys) = rfindFrom p (off + size xs) (rfindFrom p off found xs) ys := by
  induction xs generalizing off found with
  | nil => rfl
  | cons x xs ih => rw [List.cons_append, rfindFrom, ih, size_cons, rfindFrom, Nat.add_assoc]

theorem rfindFrom_none {off : Nat} {found : Option Nat} (h : ∀ c ∈ cs, p c = false) :
    rfindFrom p off found cs = found := by
  induction cs generalizing off with
  | nil => rfl
  | cons c cs ih =>
    have hc : ¬ p c = true := by simp [h c List.mem_cons_self]
    rw [rfindFrom, if_neg hc]
    exact ih fun d hd => h d (List.mem_cons_of_mem c hd)

theorem rfindFrom_last (hc : p c = true) (hw : ∀ d ∈ w, p d = false) :
    rfindFrom p 0 none (pre ++ c :: w) = some (size pre) := by
  rw [rfindFrom_append, rfindFrom, if_pos hc, rfindFrom_none hw, Nat.zero_add]

/-- The character before the last word. -/
def delimiter (alphanumeric : Char → Bool) (head : String) : Option Char :=
  head.toList.reverse.find? (fun c => !isWordChar alphanumeric c)

/-- The longest end of a text that is made of word characters. -/
structure LongestWord (alphanumeric : Char → Bool) (head word : String) : Prop where
  ends : word.toList <:+ head.toList
  chars : ∀ c ∈ word.toList, isWordChar alphanumeric c = true
  longest : ∀ w, w <:+ head.toList → (∀ c ∈ w, isWordChar alphanumeric c = true) → w <:+ word.toList

/-- The word before the cursor is found whole, and completion answers for all names. -/
structure Completes (alphanumeric : Char → Bool) (lower : String → String) (line : String)
    (pos : Nat) : Prop where
  word : ∃ head start word, sliceText line 0 pos = .ok head ∧
    wordAt alphanumeric line pos = .ok (start, word) ∧ isCharBoundary line start = true ∧
    sliceText line start pos = .ok word ∧ LongestWord alphanumeric head word
  answers : ∀ cat, ∃ answer, complete alphanumeric lower line pos cat = .ok answer

theorem delimiter_none (h : delimiter alphanumeric head = none) :
    ∀ c ∈ head.toList, isWordChar alphanumeric c = true := by
  intro c hc
  have hnot := List.find?_eq_none.mp h c (List.mem_reverse.mpr hc)
  simpa using hnot

theorem delimiter_some (h : delimiter alphanumeric head = some c) : ∃ pre w,
    head.toList = pre ++ c :: w ∧ isWordChar alphanumeric c = false ∧
    ∀ d ∈ w, isWordChar alphanumeric d = true := by
  obtain ⟨hc, after, before, hsplit, hafter⟩ := List.find?_eq_some_iff_append.mp h
  refine ⟨before.reverse, after.reverse, ?_, by simpa using hc, fun d hd => ?_⟩
  · rw [← List.reverse_reverse head.toList, hsplit, List.reverse_append, List.reverse_cons,
      List.append_assoc, List.singleton_append]
  · simpa using hafter d (List.mem_reverse.mp hd)

theorem rfind_delimiter (hhead : head.toList = pre ++ c :: w)
    (hc : isWordChar alphanumeric c = false) (hw : ∀ d ∈ w, isWordChar alphanumeric d = true) :
    rfind (fun c => !isWordChar alphanumeric c) head = some (size pre) := by
  rw [rfind, hhead]
  apply rfindFrom_last
  · rw [hc]
    rfl
  · intro d hd
    rw [hw d hd]
    rfl

theorem longestWord_all (h : ∀ c ∈ head.toList, isWordChar alphanumeric c = true) :
    LongestWord alphanumeric head head where
  ends := List.suffix_rfl
  chars := h
  longest _ hw _ := hw

theorem longestWord_after (hhead : head.toList = pre ++ c :: w)
    (hc : isWordChar alphanumeric c = false) (hw : ∀ d ∈ w, isWordChar alphanumeric d = true) :
    LongestWord alphanumeric head (String.ofList w) where
  ends := by
    rw [hhead, String.toList_ofList]
    exact ⟨pre ++ [c], by simp⟩
  chars := by
    rw [String.toList_ofList]
    exact hw
  longest v hv hchars := by
    rw [String.toList_ofList]
    have hafter : w <:+ head.toList := hhead ▸ ⟨pre ++ [c], by simp⟩
    rcases List.suffix_or_suffix_of_suffix hv hafter with h | ⟨mid, hmid⟩
    · exact h
    · -- a longer one has the delimiter in it
      rcases List.eq_nil_or_concat mid with rfl | ⟨front, d, rfl⟩
      · rw [← hmid]
        exact List.suffix_rfl
      · have hd : d = c := by
          obtain ⟨front', hfront⟩ := hv
          rw [← hmid, hhead] at hfront
          have hfull : (front' ++ front ++ [d]) ++ w = (pre ++ [c]) ++ w := by simpa using hfront
          simpa using congrArg List.getLast? (List.append_cancel_right hfull)
        have hbad := hchars d (by rw [← hmid]; simp)
        rw [hd, hc] at hbad
        cases hbad

theorem complete_answers {start : Nat} {word : String}
    (hword : wordAt alphanumeric line pos = .ok (start, word))
    (hstart : isCharBoundary line start = true) (cat : Names) :
    ∃ answer, complete alphanumeric lower line pos cat = .ok answer := by
  obtain ⟨pre, post, hline, hsize⟩ := isCharBoundary_iff.mp hstart
  have hbefore : sliceText line 0 start = .ok (String.ofList pre) :=
    sliceText_head hline hsize
  rw [complete, hword, ok_bind]
  by_cases hcommand : startsWith word "\x5c" = true
  · simp only [if_pos hcommand]
    exact ⟨_, rfl⟩
  · simp only [if_neg hcommand, hbefore, ok_bind]
    split_ifs
    · exact ⟨_, rfl⟩
    · exact ⟨_, rfl⟩

theorem wordAt_eq (hhead : sliceText line 0 pos = .ok head) : wordAt alphanumeric line pos = do
    let start := ((rfind (fun c => !isWordChar alphanumeric c) head).map (· + 1)).getD 0
    return (start, ← sliceText head start (utf8 head).length) := by
  rw [wordAt, hhead, ok_bind]

theorem completes_of_start {post : List Char} (hline : line.toList = pre ++ w ++ post)
    (hpos : size (pre ++ w) = pos)
    (hstart : ((rfind (fun c => !isWordChar alphanumeric c) (String.ofList (pre ++ w))).map
      (· + 1)).getD 0 = size pre)
    (hlong : LongestWord alphanumeric (String.ofList (pre ++ w)) (String.ofList w)) :
    Completes alphanumeric lower line pos := by
  have hhead : sliceText line 0 pos = .ok (String.ofList (pre ++ w)) :=
    sliceText_head hline hpos
  have hend : sliceText (String.ofList (pre ++ w)) (size pre)
      (utf8 (String.ofList (pre ++ w))).length = .ok (String.ofList w) := by
    have hall : (String.ofList (pre ++ w)).toList = pre ++ w ++ [] := by
      rw [String.toList_ofList, List.append_nil]
    exact sliceText_chars hall rfl rfl
  have hword : wordAt alphanumeric line pos = .ok (size pre, String.ofList w) := by
    rw [wordAt_eq hhead]
    simp only [hstart, hend, ok_bind]
    rfl
  have hbound : isCharBoundary line (size pre) = true :=
    isCharBoundary_iff.mpr ⟨pre, w ++ post, by rw [hline, List.append_assoc], rfl⟩
  exact ⟨⟨_, _, _, hhead, hword, hbound, sliceText_chars hline rfl hpos, hlong⟩,
    complete_answers hword hbound⟩

/-- The word is found, and completion answers, exactly when the character before the word takes one
byte; behind a wider one the word is cut inside that character. -/
theorem completes_iff (h : isCharBoundary line pos = true) :
    Completes alphanumeric lower line pos ↔
      ∃ head, sliceText line 0 pos = .ok head ∧
        ∀ c ∈ delimiter alphanumeric head, c.utf8Size = 1 := by
  obtain ⟨chars, post, hline, hpos⟩ := isCharBoundary_iff.mp h
  have hhead : sliceText line 0 pos = .ok (String.ofList chars) :=
    sliceText_head hline hpos
  constructor
  · intro hcompletes
    refine ⟨_, hhead, fun c hc => by_contra fun hwide => ?_⟩
    obtain ⟨pre, w, hsplit, hnot, hw⟩ := delimiter_some hc
    obtain ⟨head, start, word, -, hword, -⟩ := hcompletes.word
    rw [wordAt_eq hhead, rfind_delimiter hsplit hnot hw] at hword
    refine not_crashes_of_ok hword (raises_bind.mpr (Or.inl ?_))
    exact sliceText_crash (isCharBoundary_inside hsplit hwide)
  · rintro ⟨head, hhead', hnarrow⟩
    obtain rfl : String.ofList chars = head := Except.ok.inj (hhead.symm.trans hhead')
    cases hd : delimiter alphanumeric (String.ofList chars) with
    | none =>
      have hall := delimiter_none hd
      have hfound : rfind (fun c => !isWordChar alphanumeric c) (String.ofList chars) = none := by
        apply rfindFrom_none
        intro c hc
        rw [hall c hc]
        rfl
      have hnothing : line.toList = [] ++ chars ++ post := hline
      apply completes_of_start hnothing hpos
      · rw [List.nil_append, hfound]
        rfl
      · exact longestWord_all hall
    | some c =>
      obtain ⟨pre, w, hsplit, hnot, hw⟩ := delimiter_some hd
      have hone : c.utf8Size = 1 := hnarrow c hd
      have hchars : chars = (pre ++ [c]) ++ w := by
        rw [← String.toList_ofList (l := chars), hsplit, List.append_assoc, List.singleton_append]
      subst hchars
      apply completes_of_start hline hpos
      · rw [rfind_delimiter hsplit hnot hw, size_append, size_cons, hone]
        rfl
      · exact longestWord_after hsplit hnot hw

theorem completes_iff_column : isCharBoundary "select na" 9 = true ∧
    (Completes Char.isAlphanum (fun s => String.ofList (s.toList.map Char.toLower)) "select na" 9 ↔
      ∃ head, sliceText "select na" 0 9 = .ok head ∧
        ∀ c ∈ delimiter Char.isAlphanum head, c.utf8Size = 1) := by
  have hpos : isCharBoundary "select na" 9 = true := by decide +kernel
  exact ⟨hpos, completes_iff hpos⟩

/-- Behind a quotation mark of two bytes the completion panics. -/
theorem not_completes : isCharBoundary "«na" 4 = true ∧
    Crashes (wordAt Char.isAlphanum "«na" 4) ∧
    ∀ lower cat, Crashes (complete Char.isAlphanum lower "«na" 4 cat) := by
  have hcut : Crashes (wordAt Char.isAlphanum "«na" 4) := by
    have hhead : sliceText "«na" 0 4 = .ok "«na" := by decide +kernel
    have hfound : rfind (fun c => !isWordChar Char.isAlphanum c) "«na" = some 0 := by decide +kernel
    rw [wordAt_eq hhead, hfound]
    exact raises_bind.mpr (Or.inl (sliceText_crash (by decide +kernel)))
  exact ⟨by decide +kernel, hcut, fun lower cat => raises_bind.mpr (Or.inl hcut)⟩

end Words

end Client

end Veldb
