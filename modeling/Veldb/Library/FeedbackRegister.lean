import Mathlib.Data.Nat.Digits.Defs
import Mathlib.Logic.Function.Iterate

/-! A shift register with feedback that takes in a message symbol by symbol: two messages that
differ only within its width leave different contents. -/

namespace FeedbackRegister

variable {w : Nat}

/-- The low bit goes out; when it was set, the polynomial is added. -/
def shift (poly c : BitVec w) : BitVec w :=
  (c >>> 1) ^^^ (if c.getLsbD 0 then poly else 0#w)

/-- A symbol of `k` bits is added at the low end and shifted out. -/
def feed (poly : BitVec w) (k : Nat) (c : BitVec w) (b : Nat) : BitVec w :=
  (shift poly)^[k] (c ^^^ BitVec.ofNat w b)

section Shift

variable {poly : BitVec w}

theorem shift_xor (c d : BitVec w) : shift poly (c ^^^ d) = shift poly c ^^^ shift poly d := by
  have hbit : (if (c ^^^ d).getLsbD 0 then poly else 0#w) =
      (if c.getLsbD 0 then poly else 0#w) ^^^ (if d.getLsbD 0 then poly else 0#w) := by
    rw [BitVec.getLsbD_xor]
    cases c.getLsbD 0 <;> cases d.getLsbD 0 <;> simp
  unfold shift
  rw [hbit, BitVec.ushiftRight_xor_distrib]
  ac_rfl

/-- With the top bit of the polynomial set only the empty register becomes empty. -/
theorem eq_zero_of_shift (hpoly : poly.msb = true) {c : BitVec w} (h : shift poly c = 0#w) :
    c = 0#w := by
  have hw : 0 < w := by
    by_contra h0
    obtain rfl : w = 0 := by omega
    simp [BitVec.of_length_zero] at hpoly
  unfold shift at h
  by_cases hlow : c.getLsbD 0 = true
  · rw [if_pos hlow, BitVec.xor_eq_zero_iff] at h
    have hmsb : (c >>> 1).msb = false := by simp [BitVec.msb_ushiftRight]
    rw [h, hpoly] at hmsb
    cases hmsb
  · rw [if_neg hlow, BitVec.xor_zero] at h
    have hhalf : c.toNat / 2 = 0 := by
      have := congrArg BitVec.toNat h
      simpa [Nat.shiftRight_eq_div_pow] using this
    have heven : c.toNat % 2 = 0 := by
      rw [BitVec.getLsbD, Nat.testBit_zero] at hlow
      simp only [decide_eq_true_eq] at hlow
      omega
    refine BitVec.eq_of_toNat_eq ?_
    rw [BitVec.toNat_zero]
    omega

theorem shift_injective (hpoly : poly.msb = true) : Function.Injective (shift poly) := by
  intro c d h
  refine BitVec.xor_eq_zero_iff.mp (eq_zero_of_shift hpoly ?_)
  rw [shift_xor, h, BitVec.xor_self]

theorem shifts_xor (n : Nat) (c d : BitVec w) :
    (shift poly)^[n] (c ^^^ d) = (shift poly)^[n] c ^^^ (shift poly)^[n] d := by
  induction n generalizing c d with
  | zero => rfl
  | succ n ih => rw [Function.iterate_succ_apply, shift_xor, ih]; rfl

/-- An even number is halved, the polynomial staying out. -/
theorem shift_double {n : Nat} (h : 2 * n < 2 ^ w) :
    shift poly (BitVec.ofNat w (2 * n)) = BitVec.ofNat w n := by
  have hlow : (BitVec.ofNat w (2 * n)).getLsbD 0 = false := by
    rw [BitVec.getLsbD_ofNat]
    simp
  unfold shift
  rw [hlow]
  refine BitVec.eq_of_toNat_eq ?_
  simp only [Bool.false_eq_true, if_false, BitVec.xor_zero, BitVec.toNat_ushiftRight,
    BitVec.toNat_ofNat, Nat.shiftRight_eq_div_pow]
  rw [Nat.mod_eq_of_lt h, Nat.mod_eq_of_lt (by omega)]
  omega

theorem shifts_high {m n : Nat} (h : 2 ^ m * n < 2 ^ w) :
    (shift poly)^[m] (BitVec.ofNat w (2 ^ m * n)) = BitVec.ofNat w n := by
  induction m with
  | zero => simp
  | succ m ih =>
    have hdouble : 2 ^ (m + 1) * n = 2 * (2 ^ m * n) := by ring
    rw [hdouble] at h ⊢
    rw [Function.iterate_succ_apply, shift_double h]
    exact ih (by omega)

end Shift

theorem add_eq_xor {k b : Nat} (hb : b < 2 ^ k) (n : Nat) : b + 2 ^ k * n = b ^^^ 2 ^ k * n := by
  refine Nat.eq_of_testBit_eq fun i => ?_
  rw [Nat.add_comm, Nat.testBit_two_pow_mul_add n hb, Nat.testBit_xor, Nat.testBit_two_pow_mul]
  by_cases hi : i < k
  · simp [hi, Nat.not_le_of_lt hi]
  · have hzero : b.testBit i = false :=
      Nat.testBit_lt_two_pow (hb.trans_le (Nat.pow_le_pow_right (by omega) (by omega)))
    simp [hi, hzero, Nat.le_of_not_lt hi]

theorem word_lt {k : Nat} (hk : 0 < k) {bs : List Nat} (hbs : ∀ b ∈ bs, b < 2 ^ k) :
    Nat.ofDigits (2 ^ k) bs < 2 ^ (k * bs.length) := by
  rw [pow_mul]
  exact Nat.ofDigits_lt_base_pow_length (Nat.one_lt_two_pow (by omega)) hbs

section Message

variable {poly : BitVec w} {k : Nat}

/-- As long as the symbols fit into the register side by side, they may be added at once. -/
theorem foldl_feed (hk : 0 < k) {bs : List Nat} (hbs : ∀ b ∈ bs, b < 2 ^ k)
    (hfit : k * bs.length ≤ w) (c : BitVec w) :
    bs.foldl (feed poly k) c =
      (shift poly)^[k * bs.length] (c ^^^ BitVec.ofNat w (Nat.ofDigits (2 ^ k) bs)) := by
  induction bs generalizing c with
  | nil => simp [Nat.ofDigits]
  | cons b bs ih =>
    obtain ⟨hb, hrest⟩ := List.forall_mem_cons.mp hbs
    rw [List.length_cons, Nat.mul_succ] at hfit
    have hhigh : 2 ^ k * Nat.ofDigits (2 ^ k) bs < 2 ^ w := by
      calc 2 ^ k * Nat.ofDigits (2 ^ k) bs < 2 ^ k * 2 ^ (k * bs.length) :=
            Nat.mul_lt_mul_of_pos_left (word_lt hk hrest) (Nat.two_pow_pos k)
        _ ≤ 2 ^ w := by
            rw [← pow_add]
            exact Nat.pow_le_pow_right (by omega) (by omega)
    have hword : Nat.ofDigits (2 ^ k) (b :: bs) = b ^^^ 2 ^ k * Nat.ofDigits (2 ^ k) bs := by
      rw [Nat.ofDigits_cons]
      exact add_eq_xor hb _
    rw [List.foldl_cons, ih hrest (by omega), hword, BitVec.ofNat_xor, ← BitVec.xor_assoc,
      List.length_cons, Nat.mul_succ, Function.iterate_add_apply, shifts_xor k,
      shifts_high hhigh]
    rfl

theorem foldl_feed_injective (hpoly : poly.msb = true) (bs : List Nat) :
    Function.Injective fun c => bs.foldl (feed poly k) c := by
  induction bs with
  | nil => exact Function.injective_id
  | cons b bs ih =>
    intro c d h
    have hstep := (shift_injective hpoly).iterate k (ih h)
    simpa [BitVec.xor_right_inj] using hstep

/-- Messages that differ only in one window no wider than the register end differently. -/
theorem foldl_feed_window (hpoly : poly.msb = true) (hk : 0 < k) (pre post : List Nat)
    {xs ys : List Nat} (hlen : xs.length = ys.length) (hfit : k * xs.length ≤ w) (hxs : ∀ b ∈ xs, b < 2 ^ k)
    (hys : ∀ b ∈ ys, b < 2 ^ k) (hne : xs ≠ ys) (c : BitVec w) :
    (pre ++ xs ++ post).foldl (feed poly k) c ≠ (pre ++ ys ++ post).foldl (feed poly k) c := by
  intro h
  rw [List.foldl_append, List.foldl_append, List.foldl_append, List.foldl_append] at h
  have hmid := foldl_feed_injective hpoly post h
  rw [foldl_feed hk hxs hfit, foldl_feed hk hys (hlen ▸ hfit), ← hlen] at hmid
  have hsum := (shift_injective hpoly).iterate _ hmid
  have hword := congrArg BitVec.toNat ((BitVec.xor_right_inj _).mp hsum)
  have hx : Nat.ofDigits (2 ^ k) xs < 2 ^ w :=
    (word_lt hk hxs).trans_le (Nat.pow_le_pow_right (by omega) hfit)
  have hy : Nat.ofDigits (2 ^ k) ys < 2 ^ w :=
    (word_lt hk hys).trans_le (Nat.pow_le_pow_right (by omega) (hlen ▸ hfit))
  rw [BitVec.toNat_ofNat, BitVec.toNat_ofNat, Nat.mod_eq_of_lt hx, Nat.mod_eq_of_lt hy] at hword
  exact hne (Nat.ofDigits_inj_of_len_eq (Nat.one_lt_two_pow (by omega)) hlen hxs hys hword)

end Message

section Damage

variable {α β : Type} {a b : List α} {start width : Nat}

/-- The sequences are equally long and equal outside a window. -/
def DiffersOnly (start width : Nat) (a b : List α) : Prop :=
  a.length = b.length ∧ ∀ i, a[i]? ≠ b[i]? → start ≤ i ∧ i < start + width

theorem DiffersOnly.agree (h : DiffersOnly start width a b) {i : Nat}
    (hi : i < start ∨ start + width ≤ i) : a[i]? = b[i]? := by
  by_contra hne
  have := h.2 i hne
  omega

theorem DiffersOnly.splice (h : DiffersOnly start width a b) :
    a.take start ++ ((b.drop start).take width ++ a.drop (start + width)) = b := by
  have hfront : a.take start = b.take start := by
    refine List.ext_getElem? fun i => ?_
    by_cases hi : i < start
    · rw [List.getElem?_take_of_lt hi, List.getElem?_take_of_lt hi, h.agree (Or.inl hi)]
    · rw [List.getElem?_take_eq_none (by omega), List.getElem?_take_eq_none (by omega)]
  have hback : a.drop (start + width) = (b.drop start).drop width := by
    refine List.ext_getElem? fun i => ?_
    rw [List.drop_drop, List.getElem?_drop, List.getElem?_drop, h.agree (Or.inr (by omega))]
  rw [hfront, hback, List.take_append_drop, List.take_append_drop]

/-- A window in the middle part of a sequence is a window of that part. -/
theorem DiffersOnly.middle {pre mid mid' post : List α}
    (h : DiffersOnly start width (pre ++ (mid ++ post)) (pre ++ (mid' ++ post))) :
    DiffersOnly (start - pre.length) width mid mid' := by
  have hlen : mid.length = mid'.length := by
    have := h.1
    simp only [List.length_append] at this
    omega
  refine ⟨hlen, fun i hi => ?_⟩
  have hlt : i < mid.length := by
    by_contra hge
    rw [List.getElem?_eq_none (by omega), List.getElem?_eq_none (by omega)] at hi
    exact hi rfl
  have hget : ∀ m : List α, i < m.length → (pre ++ (m ++ post))[pre.length + i]? = m[i]? := by
    intro m hm
    rw [List.getElem?_append_right (Nat.le_add_right _ _), Nat.add_sub_cancel_left,
      List.getElem?_append_left hm]
  have hwhole := h.2 (pre.length + i) (by rwa [hget mid hlt, hget mid' (hlen ▸ hlt)])
  omega

theorem differsOnly_middle (pre : List α) {mid mid' : List α} (post : List α)
    (h : mid.length = mid'.length) :
    DiffersOnly pre.length mid.length (pre ++ (mid ++ post)) (pre ++ (mid' ++ post)) := by
  refine ⟨by simp only [List.length_append, h], fun i hi => ?_⟩
  by_contra hout
  refine hi ?_
  by_cases hlow : i < pre.length
  · rw [List.getElem?_append_left hlow, List.getElem?_append_left hlow]
  · rw [List.getElem?_append_right (by omega), List.getElem?_append_right (by omega),
      List.getElem?_append_right (by omega), List.getElem?_append_right (by omega), h]

theorem DiffersOnly.mono {start' width' : Nat} (h : DiffersOnly start width a b)
    (hstart : start' ≤ start) (hstop : start + width ≤ start' + width') :
    DiffersOnly start' width' a b := by
  refine ⟨h.1, fun i hi => ?_⟩
  have := h.2 i hi
  omega

theorem DiffersOnly.map (f : α → β) (h : DiffersOnly start width a b) :
    DiffersOnly start width (a.map f) (b.map f) := by
  refine ⟨by rw [List.length_map, List.length_map, h.1], fun i hi => h.2 i fun heq => hi ?_⟩
  rw [List.getElem?_map, List.getElem?_map, heq]

/-- Messages that differ in a window no wider than the register end differently. -/
theorem foldl_feed_differs {w k : Nat} {poly : BitVec w} (hpoly : poly.msb = true) (hk : 0 < k)
    {a b : List Nat} (ha : ∀ x ∈ a, x < 2 ^ k) (hb : ∀ x ∈ b, x < 2 ^ k)
    (h : DiffersOnly start width a b) (hfit : k * width ≤ w) (hne : a ≠ b) (c : BitVec w) :
    a.foldl (feed poly k) c ≠ b.foldl (feed poly k) c := by
  have hsplit : a.take start ++ ((a.drop start).take width ++ a.drop (start + width)) = a := by
    rw [← List.drop_drop, List.take_append_drop, List.take_append_drop]
  have hsplice := h.splice
  have hlen : ((a.drop start).take width).length = ((b.drop start).take width).length := by
    simp only [List.length_take, List.length_drop, h.1]
  have hwidth : k * ((a.drop start).take width).length ≤ w :=
    (Nat.mul_le_mul_left k (List.length_take_le _ _)).trans hfit
  have hmid : (a.drop start).take width ≠ (b.drop start).take width := by
    intro heq
    rw [← heq, hsplit] at hsplice
    exact hne hsplice
  have hwindow := foldl_feed_window hpoly hk (a.take start) (a.drop (start + width)) hlen hwidth
    (fun x hx => ha x (List.mem_of_mem_drop (List.mem_of_mem_take hx)))
    (fun x hx => hb x (List.mem_of_mem_drop (List.mem_of_mem_take hx))) hmid c
  rwa [List.append_assoc, List.append_assoc, hsplit, hsplice] at hwindow

end Damage

end FeedbackRegister
