import Mathlib.Data.List.TakeWhile
import Veldb.Crashes
import Veldb.Replication
import Veldb.TextChars

/-! The transport of payloads as hexadecimal text: what is written is read back, and which texts
the reader takes, refuses, or panics on. -/

namespace Veldb

open Attempts

def hexPair (n : Nat) : Bytes :=
  [hexDigit (n / 16), hexDigit (n % 16)].flatMap String.utf8EncodeChar

def hexPairReads (n : Nat) : Bool :=
  match hexPair n with
  | [a, b] => (fromUtf8 [a, b]).isSome && decide (fromHexPair a b = .ok (UInt8.ofNat n))
  | _ => false

theorem hexPairReads_byte : ∀ n : Fin 256, hexPairReads n = true := by
  decide +kernel

theorem hexPair_eq (x : UInt8) :
    ∃ a b, hexPair x.toNat = [a, b] ∧ (fromUtf8 [a, b]).isSome ∧ fromHexPair a b = .ok x := by
  have h := hexPairReads_byte ⟨x.toNat, x.toNat_lt⟩
  unfold hexPairReads at h
  split at h
  · next a b hab =>
    obtain ⟨htext, hval⟩ := Bool.and_eq_true_iff.mp h
    exact ⟨a, b, hab, htext, by simpa using hval⟩
  · cases h

theorem utf8_hex (b : Bytes) : utf8 (hex b) = b.flatMap (fun x => hexPair x.toNat) := by
  rw [hex, utf8_ofList, List.flatMap_assoc]
  rfl

theorem unhex_hex (b : Bytes) : unhex (hex b) = .ok b := by
  have hpairs : unhexPairs (b.flatMap (fun x => hexPair x.toNat)) = .ok b ∧
      (b.flatMap (fun x => hexPair x.toNat)).length % 2 = 0 := by
    induction b with
    | nil => exact ⟨rfl, rfl⟩
    | cons x xs ih =>
      obtain ⟨p, q, hpq, htext, hval⟩ := hexPair_eq x
      rw [List.flatMap_cons, hpq]
      constructor
      · simp [unhexPairs, Option.isNone_iff_eq_none, Option.isSome_iff_ne_none.mp htext, hval, ih.1, bind,
          Except.bind, pure, Except.pure]
      · have := ih.2
        simp only [List.cons_append, List.nil_append, List.length_cons]
        omega
  rw [unhex, utf8_hex, if_neg (not_not.mpr hpairs.2)]
  exact hpairs.1

section Bytes

/-- The pairs of bytes that a text is cut into. -/
def bytePairs : Bytes → List (UInt8 × UInt8)
  | a :: b :: rest => (a, b) :: bytePairs rest
  | _ => []

/-- `from_str_radix` takes a digit or a plus before the last digit. -/
def taken (p : UInt8 × UInt8) : Bool :=
  (p.1 == 43 || (digitOf p.1).isSome) && (digitOf p.2).isSome

/-- The two bytes are whole characters. -/
def whole (p : UInt8 × UInt8) : Bool :=
  (fromUtf8 [p.1, p.2]).isSome

theorem whole_ascii {a b : UInt8} (ha : a.toNat < 128) (hb : b.toNat < 128) :
    whole (a, b) = true := by
  have hchars : [a, b] = utf8 (String.ofList [Char.ofNat a.toNat, Char.ofNat b.toNat]) := by
    rw [utf8_ofList, List.flatMap_cons, List.flatMap_singleton, utf8EncodeChar_ascii ⟨a.toNat, ha⟩,
      utf8EncodeChar_ascii ⟨b.toNat, hb⟩, UInt8.ofNat_toNat, UInt8.ofNat_toNat]
    rfl
  rw [whole, hchars, fromUtf8_utf8]
  rfl

theorem digitOf_ascii : ∀ n : Fin 256, (digitOf (UInt8.ofNat n)).isSome → n.val < 128 := by
  decide +kernel

theorem digitOf_lt {b : UInt8} (h : (digitOf b).isSome) : b.toNat < 128 := by
  rw [← UInt8.ofNat_toNat (x := b)] at h
  exact digitOf_ascii ⟨b.toNat, b.toNat_lt⟩ h

theorem whole_of_taken {p : UInt8 × UInt8} (h : taken p = true) : whole p = true := by
  obtain ⟨hsign, hdigit⟩ := Bool.and_eq_true_iff.mp h
  refine whole_ascii ?_ (digitOf_lt hdigit)
  rcases Bool.or_eq_true_iff.mp hsign with hplus | hnum
  · rw [eq_of_beq hplus]
    decide
  · exact digitOf_lt hnum

/-- A pair is read, refused, or cuts a character; the reading stops at the last two. -/
theorem fromHexPair_taken {p : UInt8 × UInt8} (h : taken p = true) :
    ∃ x, fromHexPair p.1 p.2 = .ok x := by
  obtain ⟨hsign, hdigit⟩ := Bool.and_eq_true_iff.mp h
  obtain ⟨l, hl⟩ := Option.isSome_iff_exists.mp hdigit
  unfold fromHexPair
  rw [hl]
  rcases Bool.or_eq_true_iff.mp hsign with hplus | hnum
  · rw [if_pos (eq_of_beq hplus)]
    exact ⟨_, rfl⟩
  · obtain ⟨d, hd⟩ := Option.isSome_iff_exists.mp hnum
    by_cases hplus : p.1 = 43
    · rw [if_pos hplus]
      exact ⟨_, rfl⟩
    · rw [if_neg hplus, hd]
      exact ⟨_, rfl⟩

theorem fromHexPair_refused {p : UInt8 × UInt8} (h : ¬ taken p = true) :
    fromHexPair p.1 p.2 = bail "hex: invalid digit found in string" := by
  unfold fromHexPair
  by_cases hplus : p.1 = 43
  · cases hl : digitOf p.2 with
    | none => rw [if_pos hplus]
    | some l => exact absurd (by simp [taken, hplus, hl]) h
  · rw [if_neg hplus]
    cases hd : digitOf p.1 with
    | none => rfl
    | some d =>
      cases hl : digitOf p.2 with
      | none => rfl
      | some l => exact absurd (by simp [taken, hd, hl]) h

theorem unhexPairs_cons (p : UInt8 × UInt8) (rest : Bytes) : unhexPairs (p.1 :: p.2 :: rest) =
    if whole p = true then do
      let x ← fromHexPair p.1 p.2
      let xs ← unhexPairs rest
      return x :: xs
    else crash "unhex slice" := by
  rw [unhexPairs]
  by_cases h : whole p = true
  · have hsome : ¬ (fromUtf8 [p.1, p.2]).isNone = true := fun hnone =>
      Option.isSome_iff_ne_none.mp h (Option.isNone_iff_eq_none.mp hnone)
    rw [if_pos h, if_neg hsome]
  · have hnone : (fromUtf8 [p.1, p.2]).isNone = true := by simpa [whole] using h
    rw [if_neg h, if_pos hnone]

/-- The pairs are read in order; the first that is not taken ends the reading. -/
theorem unhexPairs_run (bs : Bytes) :
    ((∀ p ∈ bytePairs bs, taken p = true) → ∃ xs, unhexPairs bs = .ok xs) ∧
    ∀ p ∈ ((bytePairs bs).dropWhile taken).head?,
      (whole p = true → ∃ m, unhexPairs bs = bail m) ∧ (¬ whole p = true → Crashes (unhexPairs bs)) := by
  induction bs using bytePairs.induct with
  | case1 a b rest ih =>
    obtain ⟨hall, hfirst⟩ := ih
    rw [bytePairs, unhexPairs_cons (a, b) rest]
    by_cases htaken : taken (a, b) = true
    · obtain ⟨x, hx⟩ := fromHexPair_taken htaken
      rw [if_pos (whole_of_taken htaken), hx, ok_bind, List.dropWhile_cons_of_pos htaken]
      refine ⟨fun h => ?_, fun p hp => ⟨fun hw => ?_, fun hw => ?_⟩⟩
      · obtain ⟨xs, hxs⟩ := hall fun p hp => h p (List.mem_cons_of_mem _ hp)
        exact ⟨x :: xs, by rw [hxs]; rfl⟩
      · obtain ⟨m, hm⟩ := (hfirst p hp).1 hw
        exact ⟨m, by rw [hm]; rfl⟩
      · exact raises_bind.mpr (Or.inl ((hfirst p hp).2 hw))
    · rw [List.dropWhile_cons_of_neg htaken]
      refine ⟨fun h => absurd (h _ List.mem_cons_self) htaken, fun p hp => ?_⟩
      obtain rfl := Option.some.inj hp
      refine ⟨fun hw => ?_, fun hw => ?_⟩
      · rw [if_pos hw, fromHexPair_refused htaken]
        exact ⟨_, rfl⟩
      · rw [if_neg hw]
        exact crashes_crash _
  | case2 bs hshort =>
    have hnone : bytePairs bs = [] ∧ unhexPairs bs = .ok [] := by
      cases bs with
      | nil => exact ⟨rfl, rfl⟩
      | cons a bs =>
        cases bs with
        | nil => exact ⟨rfl, rfl⟩
        | cons b rest => exact absurd rfl (hshort a b rest)
    rw [hnone.1, hnone.2]
    exact ⟨fun _ => ⟨[], rfl⟩, fun p hp => absurd hp (by simp)⟩

end Bytes

section Texts

variable {s : String} {c : Char}

def isHexDigit (c : Char) : Bool :=
  decide ('0' ≤ c ∧ c ≤ '9' ∨ 'a' ≤ c ∧ c ≤ 'f' ∨ 'A' ≤ c ∧ c ≤ 'F')

/-- The bytes of a text in lower-case or upper-case hexadecimal. -/
def IsHex (s : String) : Prop :=
  (utf8 s).length % 2 = 0 ∧ ∀ c ∈ s.toList, isHexDigit c = true

def lowerCase (s : String) : String :=
  String.ofList (s.toList.map Char.toLower)

theorem isHexDigit_ascii : ∀ n : Fin 128,
    isHexDigit (Char.ofNat n) = (digitOf (UInt8.ofNat n)).isSome ∧
    ∀ d ∈ digitOf (UInt8.ofNat n), d < 16 ∧ hexDigit d = (Char.ofNat n).toLower := by
  decide +kernel

theorem isHexDigit_lt (h : isHexDigit c = true) : c.toNat < 128 := by
  have hle : ∀ d : Char, c ≤ d → c.toNat ≤ d.toNat := fun d hd => UInt32.le_iff_toNat_le.mp hd
  rcases of_decide_eq_true h with ⟨-, h⟩ | ⟨-, h⟩ | ⟨-, h⟩
  · exact Nat.lt_of_le_of_lt (hle '9' h) (by decide)
  · exact Nat.lt_of_le_of_lt (hle 'f' h) (by decide)
  · exact Nat.lt_of_le_of_lt (hle 'F' h) (by decide)

/-- A digit is one byte; other characters have a byte that is no digit. -/
theorem isHexDigit_iff : isHexDigit c = true ↔
    ∀ b ∈ String.utf8EncodeChar c, (digitOf b).isSome := by
  by_cases hascii : c.toNat < 128
  · have hc : c = Char.ofNat c.toNat := (Char.ofNat_toNat c).symm
    rw [hc, utf8EncodeChar_ascii ⟨c.toNat, hascii⟩, (isHexDigit_ascii ⟨c.toNat, hascii⟩).1]
    simp
  · refine iff_of_false (fun h => hascii (isHexDigit_lt h)) fun h => ?_
    obtain ⟨b, hb, hwide⟩ := utf8EncodeChar_wide hascii
    exact hwide (digitOf_lt (h b hb))

theorem digits_iff (s : String) :
    (∀ c ∈ s.toList, isHexDigit c = true) ↔ ∀ b ∈ utf8 s, (digitOf b).isSome := by
  rw [utf8_toList]
  simp only [isHexDigit_iff, List.mem_flatMap]
  constructor
  · rintro h b ⟨c, hc, hb⟩
    exact h c hc b hb
  · intro h c hc b hb
    exact h b ⟨c, hc, hb⟩

/-- Both bytes of a pair are digits, the first one no sign. -/
def digitPair (p : UInt8 × UInt8) : Bool :=
  p.1 != 43 && taken p

theorem digitPair_iff {p : UInt8 × UInt8} :
    digitPair p = true ↔ (digitOf p.1).isSome ∧ (digitOf p.2).isSome := by
  have hplus : digitOf 43 = none := by decide
  by_cases h : p.1 = 43
  · simp [digitPair, h, hplus]
  · simp [digitPair, taken, h]

theorem bytePairs_forall {bs : Bytes} (heven : bs.length % 2 = 0) (P : UInt8 → Prop) :
    (∀ b ∈ bs, P b) ↔ ∀ p ∈ bytePairs bs, P p.1 ∧ P p.2 := by
  induction bs using bytePairs.induct with
  | case1 a b rest ih =>
    have hrest : rest.length % 2 = 0 := by
      simp only [List.length_cons] at heven
      omega
    rw [bytePairs, List.forall_mem_cons, List.forall_mem_cons, List.forall_mem_cons, ih hrest,
      and_assoc]
  | case2 bs hshort =>
    cases bs with
    | nil => simp [bytePairs]
    | cons a bs =>
      cases bs with
      | nil => simp at heven
      | cons b rest => exact absurd rfl (hshort a b rest)

theorem isHex_iff (s : String) :
    IsHex s ↔ (utf8 s).length % 2 = 0 ∧ ∀ p ∈ bytePairs (utf8 s), digitPair p = true := by
  refine and_congr_right fun heven => ?_
  rw [digits_iff, bytePairs_forall heven fun b => (digitOf b).isSome]
  simp only [digitPair_iff]

theorem isHexDigit_byte (h : isHexDigit c = true) : ∃ b d, String.utf8EncodeChar c = [b] ∧
    digitOf b = some d ∧ d < 16 ∧ hexDigit d = c.toLower := by
  have hascii := isHexDigit_lt h
  have hc : c = Char.ofNat c.toNat := (Char.ofNat_toNat c).symm
  rw [hc, (isHexDigit_ascii ⟨c.toNat, hascii⟩).1] at h
  obtain ⟨d, hd⟩ := Option.isSome_iff_exists.mp h
  obtain ⟨hlt, hdigit⟩ := (isHexDigit_ascii ⟨c.toNat, hascii⟩).2 d hd
  have hencode := utf8EncodeChar_ascii ⟨c.toNat, hascii⟩
  rw [← hc] at hencode hdigit
  exact ⟨_, d, hencode, hd, hlt, hdigit⟩

theorem fromHexPair_digits {a b : UInt8} {h l : Nat} (ha : digitOf a = some h)
    (hb : digitOf b = some l) : fromHexPair a b = .ok (UInt8.ofNat (16 * h + l)) := by
  have hsign : a ≠ 43 := by
    rintro rfl
    cases ha
  unfold fromHexPair
  rw [if_neg hsign, ha, hb]

/-- Digits are read as bytes whose digits they are, in lower case. -/
theorem unhexPairs_digits : ∀ {cs : List Char}, (∀ c ∈ cs, isHexDigit c = true) →
    cs.length % 2 = 0 → ∃ xs, unhexPairs (cs.flatMap String.utf8EncodeChar) = .ok xs ∧
      xs.flatMap (fun x => [hexDigit (x.toNat / 16), hexDigit (x.toNat % 16)]) =
        cs.map Char.toLower
  | [], _, _ => ⟨[], rfl, rfl⟩
  | [_], _, heven => by simp at heven
  | c :: d :: cs, hall, heven => by
    obtain ⟨hc, hd, hall⟩ : isHexDigit c = true ∧ isHexDigit d = true ∧
        ∀ e ∈ cs, isHexDigit e = true := by simpa using hall
    obtain ⟨xs, hxs, hback⟩ := unhexPairs_digits hall (by simp only [List.length_cons] at heven; omega)
    obtain ⟨a, h, hca, hah, hh, hch⟩ := isHexDigit_byte hc
    obtain ⟨b, l, hdb, hbl, hl, hdl⟩ := isHexDigit_byte hd
    have hwhole : whole (a, b) = true :=
      whole_ascii (digitOf_lt (by rw [hah]; rfl)) (digitOf_lt (by rw [hbl]; rfl))
    refine ⟨UInt8.ofNat (16 * h + l) :: xs, ?_, ?_⟩
    · rw [List.flatMap_cons, List.flatMap_cons, hca, hdb]
      change unhexPairs ((a, b).1 :: (a, b).2 :: cs.flatMap String.utf8EncodeChar) = _
      rw [unhexPairs_cons, if_pos hwhole, fromHexPair_digits hah hbl, ok_bind, hxs]
      rfl
    · have hbyte : (UInt8.ofNat (16 * h + l)).toNat = 16 * h + l := by
        rw [UInt8.toNat_ofNat']
        omega
      have hhigh : (16 * h + l) / 16 = h := by omega
      have hlow : (16 * h + l) % 16 = l := by omega
      rw [List.flatMap_cons, hback, hbyte, hhigh, hlow, hch, hdl]
      rfl

theorem length_digits {cs : List Char} (h : ∀ c ∈ cs, isHexDigit c = true) :
    (cs.flatMap String.utf8EncodeChar).length = cs.length := by
  induction cs with
  | nil => rfl
  | cons c cs ih =>
    obtain ⟨hc, hcs⟩ := List.forall_mem_cons.mp h
    obtain ⟨b, d, hb, -⟩ := isHexDigit_byte hc
    rw [List.flatMap_cons, List.length_append, ih hcs, hb, List.length_singleton, List.length_cons,
      Nat.add_comm]

theorem unhex_isHex (h : IsHex s) : ∃ b, unhex s = .ok b ∧ hex b = lowerCase s := by
  have hlen : (utf8 s).length = s.toList.length := by
    rw [utf8_toList, length_digits h.2]
  obtain ⟨b, hb, hback⟩ := unhexPairs_digits h.2 (hlen ▸ h.1)
  refine ⟨b, ?_, ?_⟩
  · rw [unhex, if_neg (not_not.mpr h.1), utf8_toList, hb]
  · rw [hex, hback, lowerCase]

/-- The transport reads digits of either case and refuses every other text, without a panic. -/
structure ReadsHex (s : String) : Prop where
  noPanic : ¬ Crashes (unhex s)
  accepts : (∃ b, unhex s = .ok b) ↔ IsHex s
  keeps : ∀ b, unhex s = .ok b → hex b = lowerCase s

/-- All pairs are digits, or the first pair that is not taken does not cut a character. -/
def HexReadable (s : String) : Prop :=
  (utf8 s).length % 2 = 1 ∨ (∀ p ∈ bytePairs (utf8 s), digitPair p = true) ∨
    ∃ p ∈ ((bytePairs (utf8 s)).dropWhile taken).head?, whole p = true

theorem readsHex_iff (s : String) : ReadsHex s ↔ HexReadable s := by
  by_cases heven : (utf8 s).length % 2 = 0
  · have hodd : ¬ (utf8 s).length % 2 = 1 := by omega
    have hunhex : unhex s = unhexPairs (utf8 s) := if_neg (not_not.mpr heven)
    have hhex := (isHex_iff s).trans (and_iff_right heven)
    obtain ⟨hall, hfirst⟩ := unhexPairs_run (utf8 s)
    rw [HexReadable, or_iff_right hodd, ← hhex]
    cases hdrop : ((bytePairs (utf8 s)).dropWhile taken).head? with
    | none =>
      -- every pair is taken, so the text is read
      have htaken : ∀ p ∈ bytePairs (utf8 s), taken p = true :=
        List.dropWhile_eq_nil_iff.mp (List.head?_eq_none_iff.mp hdrop)
      obtain ⟨xs, hxs⟩ := hall htaken
      rw [or_iff_left (by simp)]
      constructor
      · intro h
        exact h.accepts.mp ⟨xs, hunhex.trans hxs⟩
      · intro h
        obtain ⟨b, hb, hback⟩ := unhex_isHex h
        refine ⟨not_crashes_of_ok hb, iff_of_true ⟨b, hb⟩ h, fun b' hb' => ?_⟩
        obtain rfl := Except.ok.inj (hb.symm.trans hb')
        exact hback
    | some p =>
      have hp : p ∈ bytePairs (utf8 s) :=
        (List.dropWhile_sublist _).mem (List.mem_of_mem_head? hdrop)
      have hrefused : ¬ taken p = true := fun h => by
        have hhead := List.head?_dropWhile_not taken (bytePairs (utf8 s))
        rw [hdrop] at hhead
        exact Bool.false_ne_true (hhead.symm.trans h)
      have hnot : ¬ IsHex s := fun h =>
        hrefused (Bool.and_eq_true_iff.mp (hhex.mp h p hp)).2
      obtain ⟨hwhole, hcut⟩ := hfirst p hdrop
      rw [or_iff_right hnot]
      constructor
      · intro h
        refine ⟨p, rfl, ?_⟩
        by_contra hsplit
        exact h.noPanic (hunhex ▸ hcut hsplit)
      · rintro ⟨q, hq, hw⟩
        obtain rfl := Option.some.inj hq
        obtain ⟨m, hm⟩ := hwhole hw
        rw [hm] at hunhex
        have hnone : ∀ b, unhex s ≠ .ok b := fun b hb => bail_ne_ok m b (hunhex.symm.trans hb)
        refine ⟨hunhex ▸ not_crashes_bail m, iff_of_false ?_ hnot, fun b hb => absurd hb (hnone b)⟩
        rintro ⟨b, hb⟩
        exact hnone b hb
  · have hodd : (utf8 s).length % 2 = 1 := by omega
    have hunhex : unhex s = bail "нечётная длина hex-строки" := if_pos heven
    have hnone : ∀ b, unhex s ≠ .ok b := fun b hb => bail_ne_ok _ b (hunhex.symm.trans hb)
    refine iff_of_true ⟨hunhex ▸ not_crashes_bail _, iff_of_false ?_ fun h => heven h.1,
      fun b hb => absurd hb (hnone b)⟩ (Or.inl hodd)
    rintro ⟨b, hb⟩
    exact hnone b hb

theorem hex_transport_iff (b : Bytes) (s : String) :
    unhex (hex b) = .ok b ∧ (ReadsHex s ↔ HexReadable s) :=
  ⟨unhex_hex b, readsHex_iff s⟩

/-- A sign is taken for a digit, and the second character of `aяb` is cut in two. -/
theorem unhex_not_exact :
    (unhex "+f" = .ok [15] ∧ ¬ IsHex "+f" ∧ hex [15] ≠ lowerCase "+f") ∧
    Crashes (unhex "aяb") ∧ ¬ ReadsHex "+f" ∧ ¬ ReadsHex "aяb" := by
  have hsign : unhex "+f" = .ok [15] := by decide +kernel
  have hnot : ¬ IsHex "+f" := fun h => absurd (h.2 '+' (by decide +kernel)) (by decide +kernel)
  have hcut : unhex "aяb" = crash "unhex slice" := by decide +kernel
  have hcrash : Crashes (unhex "aяb") := ⟨_, hcut, trivial⟩
  exact ⟨⟨hsign, hnot, by decide +kernel⟩, hcrash, fun h => hnot (h.accepts.mp ⟨_, hsign⟩),
    fun h => h.noPanic hcrash⟩

end Texts

end Veldb
