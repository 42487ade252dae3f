import Veldb.TextColumn

/-! What a text column gives back of the strings pushed into it: all of them as long as
their bytes can be counted in 32 bits, and some of them wrong from there on. -/

namespace Veldb

namespace StrColumn

/-- The column answers as the list of the strings pushed into it, and is taken back from
its parts. -/
structure Faithful (texts : List String) (c : StrColumn) : Prop where
  len : c.len = texts.length
  get : ∀ i s, texts[i]? = some s → c.get i = .ok s
  parts : fromParts c.buf c.offsets = .ok c

theorem inv_pushed {texts : List String} (h : textBytes texts < 2 ^ 32) :
    (texts.foldl push StrColumn.new).Inv := by
  induction texts using List.reverseRecOn with
  | nil => exact Inv.new
  | append_singleton l s ih =>
    rw [textBytes_append] at h
    have hbytes : ((l.foldl push StrColumn.new).buf ++ utf8 s).length < 2 ^ 32 := by
      rw [List.length_append, buf_pushed, length_flatten_utf8]
      simpa [textBytes] using h
    rw [List.foldl_concat]
    exact (ih (by omega)).push hbytes

/-- Any number of strings of any size. -/
theorem faithful_iff (texts : List String) :
    Faithful texts (texts.foldl push StrColumn.new) ↔ textBytes texts < 2 ^ 32 := by
  constructor
  · intro h
    exact (get_pushed_iff texts).mp h.get
  · intro h
    exact ⟨len_pushed texts, (get_pushed_iff texts).mpr h, (inv_pushed h).fromParts⟩

def letters (n : Nat) : String :=
  String.ofList (List.replicate n 'a')

theorem length_letters (n : Nat) : (utf8 (letters n)).length = n := by
  rw [letters, utf8_ofList]
  induction n with
  | zero => rfl
  | succ n ih =>
    rw [List.replicate_succ, List.flatMap_cons, List.length_append, ih]
    exact Nat.add_comm 1 n

/-- A string of `2 ^ 32` bytes takes the buffer to a length of which 32 bits keep nothing. -/
theorem letters_lost :
    (StrColumn.new.push (letters (2 ^ 32))).get 0 = .ok "" ∧
      ¬ Faithful [letters (2 ^ 32)] (StrColumn.new.push (letters (2 ^ 32))) := by
  have hlost : ∀ n, n % 2 ^ 32 = 0 → (StrColumn.new.push (letters n)).get 0 = .ok "" := by
    intro n hn
    have hend : UInt32.ofNat (StrColumn.new.buf ++ utf8 (letters n)).length = 0 := by
      rw [List.length_append, length_letters]
      refine UInt32.toNat_inj.mp ?_
      simpa [StrColumn.new] using hn
    refine get_eq_ok.mpr ⟨0, 0, rfl, congrArg some hend, UInt32.le_refl 0, Nat.zero_le _, ?_⟩
    rfl
  have hempty : ∀ n, 0 < n → letters n ≠ "" := by
    intro n hn h
    have hlen := length_letters n
    rw [h] at hlen
    exact absurd hlen hn.ne
  refine ⟨hlost _ (Nat.mod_self _), fun h => ?_⟩
  have hget := h.get 0 _ rfl
  rw [hlost _ (Nat.mod_self _)] at hget
  exact hempty _ (Nat.two_pow_pos 32) (Except.ok.inj hget).symm

end StrColumn

end Veldb
