import Mathlib.Data.List.Chain
import Veldb.Column
import Veldb.Library.Attempts

/-! The arena of a text column: appending a string keeps the offsets in order
as long as the buffer stays below 4 GiB, and such an arena is accepted back.
With it, what a push keeps of a column. -/

namespace Veldb

open Attempts

theorem slice_append {data : Bytes} {a b c : Nat} (hab : a ≤ b) (hbc : b ≤ c)
    (hb : b ≤ data.length) : slice data a b ++ slice data b c = slice data a c := by
  have ht : data.take c = data.take b ++ (data.take c).drop b := by
    have := List.take_append_drop b (data.take c)
    rwa [List.take_take, Nat.min_eq_left hbc, eq_comm] at this
  have hl : a ≤ (data.take b).length := by
    rw [List.length_take]
    omega
  unfold slice
  conv => rhs; rw [ht, List.drop_append_of_le_length hl]

theorem slice_append_left {data extra : Bytes} {a b : Nat} (hb : b ≤ data.length) :
    slice (data ++ extra) a b = slice data a b := by
  rw [slice, slice, List.take_append_of_le_length hb]

theorem fromUtf8_append {a b : Bytes} (ha : (fromUtf8 a).isSome) (hb : (fromUtf8 b).isSome) :
    (fromUtf8 (a ++ b)).isSome := by
  obtain ⟨s, hs⟩ := Option.isSome_iff_exists.mp ha
  obtain ⟨t, ht⟩ := Option.isSome_iff_exists.mp hb
  rw [← fromUtf8_eq_some hs, ← fromUtf8_eq_some ht, ← utf8_append, fromUtf8_utf8]
  rfl

namespace StrColumn

theorem Inv.new : new.Inv := by
  constructor <;> simp [StrColumn.new]

theorem Inv.ne_nil {c : StrColumn} (h : c.Inv) : c.offsets ≠ [] := by
  intro he
  simpa [he] using h.first

theorem Inv.getLast {c : StrColumn} (h : c.Inv) :
    ∃ o, c.offsets.getLast? = some o ∧ o.toNat = c.buf.length := by
  obtain ⟨o, ho, hl⟩ := Option.map_eq_some_iff.mp h.last
  exact ⟨o, ho, hl⟩

theorem Inv.buf_lt {c : StrColumn} (h : c.Inv) : c.buf.length < 2 ^ 32 := by
  obtain ⟨o, _, hl⟩ := h.getLast
  exact hl ▸ o.toNat_lt

theorem le_last_of_chain {os : List UInt32} {l : UInt32} (h : os.IsChain (· ≤ ·))
    (hl : os.getLast? = some l) : ∀ o ∈ os, o ≤ l := by
  obtain ⟨init, rfl⟩ := List.getLast?_eq_some_iff.mp hl
  have hp : (init ++ [l]).Pairwise (· ≤ ·) := List.isChain_iff_pairwise.mp h
  have hinit : ∀ o ∈ init, o ≤ l := fun o ho =>
    (List.pairwise_append.mp hp).2.2 o ho l (List.mem_singleton_self l)
  exact List.forall_mem_append.mpr ⟨hinit, List.forall_mem_singleton.mpr (UInt32.le_refl l)⟩

theorem chain_concat {R : UInt32 → UInt32 → Prop} {os : List UInt32} {l x : UInt32}
    (h : os.IsChain R) (hl : os.getLast? = some l) (hx : R l x) : (os ++ [x]).IsChain R := by
  refine List.isChain_append.mpr ⟨h, List.isChain_singleton x, fun a ha b hb => ?_⟩
  obtain rfl := Option.some.inj (hl.symm.trans ha)
  obtain rfl := Option.some.inj hb
  exact hx

theorem Inv.offsets_le {c : StrColumn} (h : c.Inv) : ∀ o ∈ c.offsets, o.toNat ≤ c.buf.length := by
  obtain ⟨l, hl, hb⟩ := h.getLast
  intro o ho
  have hle := le_last_of_chain h.mono hl o ho
  exact hb ▸ UInt32.le_iff_toNat_le.mp hle

theorem Inv.push {c : StrColumn} {s : String} (h : c.Inv)
    (hs : (c.buf ++ utf8 s).length < 2 ^ 32) : (c.push s).Inv := by
  obtain ⟨l, hl, hb⟩ := h.getLast
  have hn : (UInt32.ofNat (c.buf ++ utf8 s).length).toNat = (c.buf ++ utf8 s).length :=
    UInt32.toNat_ofNat_of_lt' hs
  have hle : c.buf.length ≤ (c.buf ++ utf8 s).length := by simp
  refine ⟨?_, ?_, ?_, ?_⟩
  · simp [StrColumn.push, List.head?_append, h.first]
  · simpa [StrColumn.push] using hn
  · refine chain_concat h.mono hl ?_
    rw [UInt32.le_iff_toNat_le, hn, hb]
    exact hle
  · refine chain_concat ?_ hl ?_
    · refine List.IsChain.imp_of_mem_imp ?_ h.text
      intro a b _ hb' ht
      simpa only [StrColumn.push, slice_append_left (h.offsets_le b hb')] using ht
    · have he : slice (c.buf ++ utf8 s) l.toNat (c.buf ++ utf8 s).length = utf8 s := by
        rw [slice, List.take_length, hb, List.drop_left]
      simp only [StrColumn.push, hn, he, fromUtf8_utf8, Option.isSome_some]

theorem isSome_slice_of_chain (buf : Bytes) (os : List UInt32) (o l : UInt32)
    (hl : (o :: os).getLast? = some l)
    (hm : (o :: os).IsChain (· ≤ ·)) (hle : ∀ x ∈ o :: os, x.toNat ≤ buf.length)
    (ht : (o :: os).IsChain (fun s e => (fromUtf8 (slice buf s.toNat e.toNat)).isSome)) :
    (fromUtf8 (slice buf o.toNat l.toNat)).isSome := by
  induction os generalizing o with
  | nil =>
    obtain rfl : o = l := by simpa using hl
    have he : slice buf o.toNat o.toNat = utf8 "" := by simp [slice]
    rw [he, fromUtf8_utf8]
    rfl
  | cons p os ih =>
    have hm' := List.isChain_cons_cons.mp hm
    have ht' := List.isChain_cons_cons.mp ht
    have hl' : (p :: os).getLast? = some l := by simpa using hl
    have hrest := ih p hl' hm'.2 (fun x hx => hle x (List.mem_cons_of_mem _ hx)) ht'.2
    have hpl : p ≤ l := le_last_of_chain hm'.2 hl' p List.mem_cons_self
    rw [← slice_append (UInt32.le_iff_toNat_le.mp hm'.1) (UInt32.le_iff_toNat_le.mp hpl)
      (hle p (by simp))]
    exact fromUtf8_append ht'.1 hrest

theorem Inv.buf_text {c : StrColumn} (h : c.Inv) : (fromUtf8 c.buf).isSome := by
  obtain ⟨l, hl, hb⟩ := h.getLast
  cases ho : c.offsets with
  | nil => exact absurd ho h.ne_nil
  | cons o os =>
    have h0 : o = 0 := by simpa [ho] using h.first
    have hs := isSome_slice_of_chain c.buf os o l (ho ▸ hl) (ho ▸ h.mono)
      (ho ▸ h.offsets_le) (ho ▸ h.text)
    simpa [h0, hb, slice] using hs

theorem Inv.fromParts {c : StrColumn} (h : c.Inv) : fromParts c.buf c.offsets = .ok c := by
  obtain ⟨l, hl, hb⟩ := h.getLast
  have hlast : c.offsets.getLast? = some (UInt32.ofNat c.buf.length) := by
    rw [hl, ← hb, UInt32.ofNat_toNat]
  have hmono : (c.offsets.zip c.offsets.tail).any (fun w => decide (w.1 > w.2)) = false := by
    refine List.any_eq_false.mpr ?_
    intro w hw
    obtain ⟨i, hi, rfl⟩ := List.mem_iff_getElem.mp hw
    have hlen : i + 1 < c.offsets.length := by
      simp only [List.length_zip, List.length_tail] at hi
      omega
    have hle := List.isChain_iff_getElem.mp h.mono i hlen
    simpa [List.getElem_zip, List.getElem_tail, UInt32.not_lt] using hle
  have htext : (fromUtf8 c.buf).isNone = false := by
    simpa [Option.isSome_iff_ne_none] using h.buf_text
  simp [StrColumn.fromParts, h.first, hlast, hmono, htext]

/-- The bytes that texts take together. -/
def textBytes (texts : List String) : Nat :=
  (texts.map (fun s => (utf8 s).length)).sum

theorem textBytes_append (l r : List String) : textBytes (l ++ r) = textBytes l + textBytes r := by
  simp [textBytes]

theorem buf_pushed (texts : List String) :
    (texts.foldl push StrColumn.new).buf = (texts.map utf8).flatten := by
  induction texts using List.reverseRecOn with
  | nil => rfl
  | append_singleton l s ih => simp [push, ih]

theorem length_flatten_utf8 (texts : List String) :
    (texts.map utf8).flatten.length = textBytes texts := by
  simp [textBytes, List.length_flatten, Function.comp_def]

theorem length_offsets_pushed (texts : List String) :
    (texts.foldl push StrColumn.new).offsets.length = texts.length + 1 := by
  induction texts using List.reverseRecOn with
  | nil => rfl
  | append_singleton l s ih => simp [push, ih]

theorem len_pushed (texts : List String) : (texts.foldl push StrColumn.new).len = texts.length := by
  rw [len, length_offsets_pushed]
  rfl

/-- Before a text stand the bytes of those pushed earlier, counted in 32 bits. -/
theorem offset_pushed (texts : List String) {g : Nat} (hg : g ≤ texts.length) :
    (texts.foldl push StrColumn.new).offsets[g]? =
      some (UInt32.ofNat (textBytes (texts.take g))) := by
  induction texts using List.reverseRecOn with
  | nil =>
    obtain rfl : g = 0 := by simpa using hg
    rfl
  | append_singleton l s ih =>
    rw [List.foldl_concat, push]
    by_cases hgl : g ≤ l.length
    · rw [List.getElem?_append_left (by rw [length_offsets_pushed]; omega), ih hgl,
        List.take_append_of_le_length hgl]
    · obtain rfl : g = l.length + 1 := by simp at hg; omega
      rw [List.getElem?_append_right (by rw [length_offsets_pushed]), length_offsets_pushed,
        buf_pushed, List.length_append,
        length_flatten_utf8, List.take_of_length_le (by simp), textBytes_append]
      simp [textBytes]

theorem slice_flatten (texts : List String) {g : Nat} {s : String} (hs : texts[g]? = some s) :
    slice (texts.map utf8).flatten (textBytes (texts.take g)) (textBytes (texts.take (g + 1))) =
      utf8 s := by
  obtain ⟨hg, rfl⟩ := List.getElem?_eq_some_iff.mp hs
  have hsplit : texts = texts.take g ++ (texts[g] :: texts.drop (g + 1)) := by
    rw [List.getElem_cons_drop, List.take_append_drop]
  have hnext : texts.take (g + 1) = texts.take g ++ [texts[g]] := by
    rw [List.take_append_getElem hg]
  have hbuf : (texts.map utf8).flatten = ((texts.take g).map utf8).flatten ++
      (utf8 texts[g] ++ ((texts.drop (g + 1)).map utf8).flatten) := by
    conv => lhs; rw [hsplit]
    rw [List.map_append, List.flatten_append, List.map_cons, List.flatten_cons]
  rw [hbuf, hnext, textBytes_append, slice, ← length_flatten_utf8 (texts.take g),
    List.take_length_add_append, List.drop_left]
  simp [textBytes]

theorem get_eq_ok {c : StrColumn} {i : Nat} {s : String} : c.get i = .ok s ↔
    ∃ a b, c.offsets[i]? = some a ∧ c.offsets[i + 1]? = some b ∧ a ≤ b ∧
      b.toNat ≤ c.buf.length ∧ slice c.buf a.toNat b.toNat = utf8 s := by
  unfold get getBytes
  constructor
  · intro h
    obtain ⟨bytes, hbytes, htext⟩ := bind_eq_ok.mp h
    split at hbytes
    · next a b ha hb =>
      split_ifs at hbytes with hle
      · obtain rfl := Except.ok.inj hbytes
        cases hs : fromUtf8 (slice c.buf a.toNat b.toNat) with
        | none =>
          rw [hs] at htext
          cases htext
        | some t =>
          rw [hs] at htext
          obtain rfl := Except.ok.inj htext
          exact ⟨a, b, ha, hb, hle.1, hle.2, (fromUtf8_eq_some hs).symm⟩
      · cases hbytes
    · cases hbytes
  · rintro ⟨a, b, ha, hb, hle, hend, hslice⟩
    simp only [ha, hb, hle, hend, and_self, if_true, ok_bind, hslice, fromUtf8_utf8]

/-- The texts pushed into an arena read back exactly when they fit its 32-bit offsets. -/
theorem get_pushed_iff (texts : List String) :
    (∀ g s, texts[g]? = some s → (texts.foldl push StrColumn.new).get g = .ok s) ↔
      textBytes texts < 2 ^ 32 := by
  have hmono : ∀ g, textBytes (texts.take g) ≤ textBytes texts := by
    intro g
    conv => rhs; rw [← List.take_append_drop g texts]
    rw [textBytes_append]
    omega
  have hbuf : (texts.foldl push StrColumn.new).buf.length = textBytes texts := by
    rw [buf_pushed, length_flatten_utf8]
  constructor
  · intro h
    by_contra hbig
    -- the text that takes the buffer over the edge does not read back
    have hcross : ∀ g, g ≤ texts.length → 2 ^ 32 ≤ textBytes (texts.take g) →
        ∃ k, k < texts.length ∧ textBytes (texts.take k) < 2 ^ 32 ∧
          2 ^ 32 ≤ textBytes (texts.take (k + 1)) := by
      intro g
      induction g with
      | zero =>
        intro _ h0
        simp [textBytes] at h0
      | succ g ih =>
        intro hg hover
        by_cases hprev : textBytes (texts.take g) < 2 ^ 32
        · exact ⟨g, hg, hprev, hover⟩
        · exact ih (by omega) (by omega)
    obtain ⟨g, hg, hlow, hhigh⟩ :=
      hcross texts.length (Nat.le_refl _) (by rw [List.take_length]; omega)
    have hs : texts[g]? = some texts[g] := List.getElem?_eq_getElem hg
    obtain ⟨a, b, ha, hb, hle, -, hslice⟩ := get_eq_ok.mp (h g _ hs)
    obtain rfl := Option.some.inj ((offset_pushed texts (by omega)).symm.trans ha)
    obtain rfl := Option.some.inj ((offset_pushed texts (by omega)).symm.trans hb)
    have hlen := congrArg List.length hslice
    have hreal := congrArg List.length (slice_flatten texts hs)
    have hend := hmono (g + 1)
    rw [slice, List.length_drop, List.length_take, hbuf] at hlen
    rw [slice, List.length_drop, List.length_take, length_flatten_utf8] at hreal
    rw [UInt32.le_iff_toNat_le] at hle
    simp only [UInt32.toNat_ofNat'] at hlen hle
    omega
  · intro hsmall g s hs
    obtain ⟨hg, -⟩ := List.getElem?_eq_some_iff.mp hs
    have hfit : ∀ g, (UInt32.ofNat (textBytes (texts.take g))).toNat = textBytes (texts.take g) :=
      fun g => UInt32.toNat_ofNat_of_lt' (Nat.lt_of_le_of_lt (hmono g) hsmall)
    refine get_eq_ok.mpr ⟨_, _, offset_pushed texts (by omega), offset_pushed texts (by omega),
      ?_, ?_, ?_⟩
    · rw [UInt32.le_iff_toNat_le, hfit, hfit, List.take_add_one, textBytes_append]
      omega
    · rw [hfit, hbuf]
      exact hmono _
    · rw [hfit, hfit, buf_pushed, slice_flatten texts hs]

end StrColumn

namespace Column

theorem shape_empty {ty : DataType} (h : ty ≠ .vector 0) : (empty ty).Shape := by
  cases ty with
  | vector dim =>
    have hd : dim ≠ 0 := fun he => h (he ▸ rfl)
    simp [empty, Shape, hd]
  | str => exact ⟨by simp [StrColumn.new], fun _ => StrColumn.Inv.new⟩
  | _ => exact trivial

theorem push_ok {c c' : Column} {v : Value} (h : c.push v = .ok c') (hs : c.Shape) (hv : v.Fits) :
    c'.dataType = c.dataType ∧ c'.len = c.len + 1 ∧ c'.Shape := by
  unfold push at h
  split at h
  case h_5 =>
    cases h
    have hl := List.length_pos_of_ne_nil hs.1
    refine ⟨rfl, ?_, by simp [StrColumn.push], fun hlt => ?_⟩
    · simp only [len, StrColumn.len, StrColumn.push, List.length_append, List.length_singleton]
      omega
    · have hbuf : _ < 2 ^ 32 := hlt
      simp only [StrColumn.push, List.length_append] at hbuf
      exact (hs.2 (by omega)).push (by simpa using hbuf)
  case h_6 dim data x =>
    split at h
    · cases h
    · next hx =>
      cases h
      obtain ⟨hd, k, hk⟩ := hs
      have hx' : x.length = dim.toNat := by
        have he : UInt64.ofNat x.length = dim := by simpa using hx
        have hl : x.length < 2 ^ 64 := by
          have : x.length * 4 < 2 ^ 64 := hv
          omega
        rw [← he, UInt64.toNat_ofNat_of_lt' hl]
      have hp : 0 < dim.toNat := by
        rcases Nat.eq_zero_or_pos dim.toNat with h0 | h0
        · exact absurd (UInt64.toNat_inj.mp (by simpa using h0)) hd
        · exact h0
      refine ⟨rfl, ?_, hd, ⟨k + 1, ?_⟩⟩
      · simp only [len, if_neg hd, List.length_append, hx', Nat.add_div_right _ hp]
      · simp only [List.length_append, hk, hx', Nat.mul_add, Nat.mul_one]
  all_goals cases h
  all_goals simp [dataType, len, Shape]

end Column

end Veldb
