import Veldb.TextColumn

/-! Texts as bytes, character by character: what one character takes, and where a text may be
cut. -/

namespace Veldb

theorem utf8EncodeChar_ascii : ∀ n : Fin 128,
    String.utf8EncodeChar (Char.ofNat n) = [UInt8.ofNat n] := by
  decide

theorem utf8EncodeChar_wide {c : Char} (h : ¬ c.toNat < 128) :
    ∃ b ∈ String.utf8EncodeChar c, ¬ b.toNat < 128 := by
  have hfirst : ¬ c.val.toNat ≤ 0x7f := by
    change ¬ c.toNat ≤ 127
    omega
  have hhigh : ∀ n k : Nat, n < 64 → 128 ≤ k → k + n < 256 →
      ¬ (UInt8.ofNat (n + k)).toNat < 128 := by
    intro n k hn hk hsum
    rw [UInt8.toNat_ofNat']
    omega
  unfold String.utf8EncodeChar
  simp only [if_neg hfirst]
  split_ifs
  · exact ⟨_, List.mem_cons_self, hhigh _ 0xc0 (by omega) (by omega) (by omega)⟩
  · exact ⟨_, List.mem_cons_self, hhigh _ 0xe0 (by omega) (by omega) (by omega)⟩
  · exact ⟨_, List.mem_cons_self, hhigh _ 0xf0 (by omega) (by omega) (by omega)⟩

theorem utf8_toList (s : String) : utf8 s = s.toList.flatMap String.utf8EncodeChar := by
  rw [← utf8_ofList, String.ofList_toList]

theorem fromUtf8_cancel {a b : Bytes} (ha : (fromUtf8 a).isSome) (hab : (fromUtf8 (a ++ b)).isSome) :
    (fromUtf8 b).isSome := by
  obtain ⟨s, hs⟩ := Option.isSome_iff_exists.mp ha
  obtain ⟨t, ht⟩ := Option.isSome_iff_exists.mp hab
  have hs := fromUtf8_eq_some hs
  have ht := fromUtf8_eq_some ht
  have hbytes : s.toList.utf8Encode ++ ⟨b.toArray⟩ = t.toList.utf8Encode := by
    rw [String.utf8Encode_toList, String.utf8Encode_toList]
    refine ByteArray.ext (Array.toList_inj.mp ?_)
    rw [ByteArray.data_append, Array.toList_append]
    change utf8 s ++ b = utf8 t
    rw [hs, ht]
  obtain ⟨rest, hrest⟩ := List.isPrefix_of_utf8Encode_append_eq_utf8Encode _ hbytes
  have hb : b = utf8 (String.ofList rest) := by
    have hlist : t = s ++ String.ofList rest := by
      rw [← String.ofList_toList (s := t), ← hrest, String.ofList_append, String.ofList_toList]
    have happ : utf8 t = utf8 s ++ utf8 (String.ofList rest) := by rw [hlist, utf8_append]
    rw [ht, hs] at happ
    exact List.append_cancel_left happ
  rw [hb, fromUtf8_utf8]
  rfl

end Veldb
