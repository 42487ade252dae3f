import Veldb.GroupCrashes
import Veldb.Library.FirstOccurrences
import Veldb.TextArena

/-! Groups are the rows with equal keys, numbered as they come up, and their columns hold
what these rows have in common. -/

namespace Veldb

open Attempts Arr FirstOccurrences LittleEndian

variable {rt : Runtime} {α β : Type} {n ngroups g i j : Nat} {groupOf : List Nat}

section Bytes

variable {k : Arr} {keys : List Arr} {p q x y : Bytes}

/-- The length in front tells where a text ends, as long as it fits its 32 bits. -/
theorem textKey_inj {s t : String} (hs : (utf8 s).length < 2 ^ 32) (ht : (utf8 t).length < 2 ^ 32)
    (h : Writer.u32 (UInt32.ofNat (utf8 s).length) ++ utf8 s ++ x =
      Writer.u32 (UInt32.ofNat (utf8 t).length) ++ utf8 t ++ y) : s = t ∧ x = y := by
  rw [List.append_assoc, List.append_assoc] at h
  obtain ⟨hlen, h⟩ := List.append_inj h (by simp [Writer.u32])
  have hlen := congrArg UInt32.toNat (Writer.u32_inj hlen)
  rw [UInt32.toNat_ofNat_of_lt' hs, UInt32.toNat_ofNat_of_lt' ht] at hlen
  obtain ⟨htext, hrest⟩ := List.append_inj h hlen
  have hback := congrArg fromUtf8 htext
  rw [fromUtf8_utf8, fromUtf8_utf8] at hback
  exact ⟨Option.some.inj hback, hrest⟩

/-- Texts of a key are shorter than the 32-bit offsets of a column can tell. -/
def Arr.Short (k : Arr) : Prop :=
  ∀ v, k = .str v → ∀ s ∈ v, (utf8 s).length < 2 ^ 32

theorem mem_of_pick {v : List α} {a : α} (h : pick v i = .ok a) : a ∈ v :=
  List.mem_of_getElem? (index_eq_ok.mp h)

/-- What follows the bytes of one key does not blur them. -/
theorem keyBytes_inj (hk : k.Short) (hp : keyBytes k i = .ok p) (hq : keyBytes k j = .ok q)
    (h : p ++ x = q ++ y) : k.row i = k.row j ∧ x = y := by
  cases k with
  | i64 v =>
    obtain ⟨a, ha, rfl⟩ := bind_pure_eq_ok.mp hp
    obtain ⟨b, hb, rfl⟩ := bind_pure_eq_ok.mp hq
    obtain ⟨hab, hrest⟩ := List.append_inj h (by simp [Writer.u64])
    obtain rfl : a = b := by simpa using congrArg UInt64.toInt64 (Writer.u64_inj hab)
    exact ⟨(row_i64.mpr ⟨a, ha, rfl⟩).trans (row_i64.mpr ⟨a, hb, rfl⟩).symm, hrest⟩
  | f64 v =>
    obtain ⟨⟨a⟩, ha, rfl⟩ := bind_pure_eq_ok.mp hp
    obtain ⟨⟨b⟩, hb, rfl⟩ := bind_pure_eq_ok.mp hq
    obtain ⟨hab, hrest⟩ := List.append_inj h (by simp [Writer.u64])
    obtain rfl := Writer.u64_inj hab
    exact ⟨(row_f64.mpr ⟨_, ha, rfl⟩).trans (row_f64.mpr ⟨_, hb, rfl⟩).symm, hrest⟩
  | bool v =>
    obtain ⟨a, ha, rfl⟩ := bind_pure_eq_ok.mp hp
    obtain ⟨b, hb, rfl⟩ := bind_pure_eq_ok.mp hq
    obtain ⟨hab, hrest⟩ := List.cons.inj h
    subst hab
    exact ⟨(row_bool.mpr ⟨a, ha, rfl⟩).trans (row_bool.mpr ⟨a, hb, rfl⟩).symm, hrest⟩
  | str v =>
    obtain ⟨s, hs, rfl⟩ := bind_pure_eq_ok.mp hp
    obtain ⟨t, ht, rfl⟩ := bind_pure_eq_ok.mp hq
    obtain ⟨rfl, hrest⟩ := textKey_inj (hk v rfl s (mem_of_pick hs)) (hk v rfl t (mem_of_pick ht)) h
    exact ⟨(row_str.mpr ⟨s, hs, rfl⟩).trans (row_str.mpr ⟨s, ht, rfl⟩).symm, hrest⟩
  | vector dim rows => cases hp

theorem picks_eq {mk : α → β} (hmk : ∀ a b, mk a = mk b → a = b) {a b : Exec α}
    (h : (do return mk (← a)) = (do return mk (← b) : Exec β)) : a = b := by
  cases a with
  | error e =>
    cases b with
    | error e' => exact congrArg _ (Except.error.inj h)
    | ok b => cases h
  | ok a =>
    cases b with
    | error e => cases h
    | ok b => exact congrArg _ (hmk a b (Except.ok.inj h))

theorem keyBytes_congr (h : k.row i = k.row j) : keyBytes k i = keyBytes k j := by
  cases k with
  | i64 v => rw [keyBytes, keyBytes, picks_eq (by simp) h]
  | f64 v => rw [keyBytes, keyBytes, picks_eq (by simp) h]
  | bool v => rw [keyBytes, keyBytes, picks_eq (by simp) h]
  | str v => rw [keyBytes, keyBytes, picks_eq (by simp) h]
  | vector dim rows => rfl

theorem keyBytes_total (hk : k.Sized n) (hvec : ∀ dim rows, k ≠ .vector dim rows) (hi : i < n) :
    ∃ p, keyBytes k i = .ok p := by
  cases k with
  | i64 v => exact (pick_exists hi hk).imp' _ fun _ h => bind_pure_eq_ok.mpr ⟨_, h, rfl⟩
  | f64 v => exact (pick_exists hi hk).imp' _ fun _ h => bind_pure_eq_ok.mpr ⟨_, h, rfl⟩
  | bool v => exact (pick_exists hi hk).imp' _ fun _ h => bind_pure_eq_ok.mpr ⟨_, h, rfl⟩
  | str v => exact (pick_exists hi hk).imp' _ fun _ h => bind_pure_eq_ok.mpr ⟨_, h, rfl⟩
  | vector dim rows => exact absurd rfl (hvec dim rows)

theorem rowKey_inj (hkeys : ∀ k ∈ keys, k.Short) (hp : rowKey keys i = .ok p)
    (hq : rowKey keys j = .ok p) : ∀ k ∈ keys, k.row i = k.row j := by
  obtain ⟨ps, hps, rfl⟩ := bind_pure_eq_ok.mp hp
  obtain ⟨qs, hqs, heq⟩ := bind_pure_eq_ok.mp hq
  clear hp hq
  induction keys generalizing ps qs with
  | nil => simp
  | cons k keys ih =>
    obtain ⟨hk, hkeys⟩ := List.forall_mem_cons.mp hkeys
    rw [List.mapM_cons] at hps hqs
    obtain ⟨p, hp, hps⟩ := bind_eq_ok.mp hps
    obtain ⟨ps', hps', rfl⟩ := bind_pure_eq_ok.mp hps
    obtain ⟨q, hq, hqs⟩ := bind_eq_ok.mp hqs
    obtain ⟨qs', hqs', rfl⟩ := bind_pure_eq_ok.mp hqs
    rw [List.flatten_cons, List.flatten_cons] at heq
    obtain ⟨hrow, hrest⟩ := keyBytes_inj hk hq hp heq
    exact List.forall_mem_cons.mpr ⟨hrow.symm, ih hkeys ps' hps' qs' hqs' hrest⟩

theorem rowKey_congr (h : ∀ k ∈ keys, k.row i = k.row j) : rowKey keys i = rowKey keys j := by
  unfold rowKey
  rw [mapM_congr fun k hk => keyBytes_congr (h k hk)]

end Bytes

section Numbering

variable {keys : List Arr} {bufs seen : List Bytes}

theorem lookup_zipIdx (l : List Bytes) (b : Bytes) :
    l.zipIdx.lookup b = if b ∈ l then some (l.idxOf b) else none := by
  induction l using List.reverseRecOn with
  | nil => rfl
  | append_singleton l x ih =>
    rw [List.zipIdx_append, List.lookup_append, ih]
    by_cases hb : b ∈ l
    · rw [if_pos hb, if_pos (List.mem_append_left _ hb), List.idxOf_append_of_mem hb]
      rfl
    · rw [if_neg hb, Option.none_or]
      by_cases hx : b = x
      · subst hx
        rw [if_pos (by simp), List.idxOf_append_of_notMem hb]
        simp
      · have hne : (b == x) = false := by simpa using hx
        rw [if_neg (by simp [hb, hx]), List.zipIdx_singleton, List.lookup_cons, hne]
        rfl

/-- The map and the ids after these composite keys. -/
def keysNumbered (seen : List Bytes) : List (Bytes × Nat) × List Nat :=
  ((firsts seen).zipIdx, numbers seen)

theorem assignStep_numbered {b : Bytes} (hb : rowKey keys i = .ok b) (hseen : seen.length < 2 ^ 32) :
    assignStep keys (keysNumbered seen) i = .ok (keysNumbered (seen ++ [b])) := by
  unfold assignStep keysNumbered
  rw [hb, ok_bind, lookup_zipIdx, numbers_concat, firsts_concat]
  by_cases hmem : b ∈ firsts seen
  · rw [if_pos hmem, if_pos hmem]
    rfl
  · have hlen := length_firsts_le seen
    have hid : asU32 (firsts seen).zipIdx.length = (firsts seen).idxOf b := by
      rw [List.idxOf_eq_length hmem, List.length_zipIdx, asU32, Nat.mod_eq_of_lt (by omega)]
    rw [if_neg hmem, if_neg hmem, List.zipIdx_append]
    simp only [hid, List.idxOf_eq_length hmem]
    simp [List.zipIdx, pure, Except.pure]

theorem assignRun_numbered {is : List Nat} (hbufs : is.mapM (rowKey keys) = .ok bufs)
    (hseen : seen.length + is.length ≤ 2 ^ 32) :
    is.foldlM (assignStep keys) (keysNumbered seen) = .ok (keysNumbered (seen ++ bufs)) := by
  induction is generalizing seen bufs with
  | nil =>
    obtain rfl : [] = bufs := Except.ok.inj hbufs
    rw [List.append_nil]
    rfl
  | cons i is ih =>
    rw [List.mapM_cons] at hbufs
    obtain ⟨b, hb, hbufs⟩ := bind_eq_ok.mp hbufs
    obtain ⟨bufs', hbufs', rfl⟩ := bind_pure_eq_ok.mp hbufs
    simp only [List.length_cons] at hseen
    rw [List.foldlM_cons, assignStep_numbered hb (by omega), ok_bind, ih hbufs' (by
      rw [List.length_append, List.length_singleton]
      omega), List.append_assoc, List.singleton_append]

/-- The ids are the numbers of the composite keys in the order of their first occurrences. -/
theorem assignGroups_eq (hkeys : keys ≠ []) (hn : n < 2 ^ 32)
    (hbufs : (List.range n).mapM (rowKey keys) = .ok bufs) :
    assignGroups keys n = .ok (numbers bufs, (firsts bufs).length) := by
  have hlen : ([] : List Bytes).length + (List.range n).length ≤ 2 ^ 32 := by
    simp only [List.length_nil, List.length_range]
    omega
  have hrun : (List.range n).foldlM (assignStep keys) ([], []) = .ok (keysNumbered bufs) :=
    assignRun_numbered hbufs hlen
  rw [assignGroups, if_neg (by simpa using hkeys), hrun, ok_bind, keysNumbered]
  simp [pure, Except.pure]

theorem rowKeys_total (hk : ∀ k ∈ keys, k.Sized n)
    (hvec : ∀ k ∈ keys, ∀ dim rows, k ≠ .vector dim rows) :
    ∃ bufs, (List.range n).mapM (rowKey keys) = .ok bufs := by
  refine mapM_total fun i hi => ?_
  obtain ⟨ps, hps⟩ : ∃ ps, keys.mapM (fun k => keyBytes k i) = .ok ps :=
    mapM_total fun k hmem => keyBytes_total (hk k hmem) (hvec k hmem) (List.mem_range.mp hi)
  exact ⟨ps.flatten, bind_pure_eq_ok.mpr ⟨ps, hps, rfl⟩⟩

/-- Rows share a group exactly when they have the same entry in every key. -/
theorem sameGroup_iff (hshort : ∀ k ∈ keys, k.Short)
    (hbufs : (List.range n).mapM (rowKey keys) = .ok bufs) (hi : i < n) (hj : j < n) :
    (numbers bufs)[i]? = (numbers bufs)[j]? ↔ ∀ k ∈ keys, k.row i = k.row j := by
  obtain ⟨p, hp, hbi⟩ := mapM_range_getElem hbufs hi
  obtain ⟨q, hq, hbj⟩ := mapM_range_getElem hbufs hj
  rw [numbers_eq_iff (by rw [mapM_range_length hbufs]; exact hi), hbi, hbj, Option.some.injEq]
  constructor
  · rintro rfl
    exact rowKey_inj hshort hp hq
  · intro h
    exact Except.ok.inj (hp.symm.trans ((rowKey_congr h).trans hq))

end Numbering

section Values

variable {k : Arr}

theorem value_eq_row (a : Arr) (i : Nat) : a.value i = a.row i >>= fun r => r.value 0 := by
  cases a with
  | i64 v => cases h : pick v i <;> simp only [value, row, h] <;> rfl
  | f64 v => cases h : pick v i <;> simp only [value, row, h] <;> rfl
  | bool v => cases h : pick v i <;> simp only [value, row, h] <;> rfl
  | str v => cases h : pick v i <;> simp only [value, row, h] <;> rfl
  | vector dim v => cases h : pick v i <;> simp only [value, row, h] <;> rfl

theorem value_eq_of_row {a b : Arr} (h : a.row i = b.row j) : a.value i = b.value j := by
  rw [value_eq_row, value_eq_row, h]

theorem row_eq_of_value (hbool : ∀ v, k = .bool v → pick v i = pick v j)
    (h : k.value i = k.value j) : k.row i = k.row j := by
  cases k with
  | i64 v => rw [row, row, picks_eq (by simp) h]
  | f64 v => rw [row, row, picks_eq (by simp) h]
  | bool v => rw [row, row, hbool v rfl]
  | str v => rw [row, row, picks_eq (by simp) h]
  | vector dim rows => rw [row, row, picks_eq (by simp) h]

end Values

section Firsts

variable {key first : Arr}

theorem pick_of_getElem {w : List α} {y : α} (h : w[g]? = some y) : pick w g = .ok y := by
  obtain ⟨hlt, -⟩ := List.getElem?_eq_some_iff.mp h
  unfold pick
  by_cases h1 : w.length = 1
  · obtain rfl : g = 0 := by omega
    rw [if_pos h1]
    exact index_eq_ok.mpr h
  · rw [if_neg h1]
    exact index_eq_ok.mpr h

theorem first_row (h : pickFirstPerGroup key groupOf ngroups = .ok first) (hg : g < ngroups) :
    ∃ i, (members groupOf g).head? = some i ∧ first.row g = key.row i := by
  obtain ⟨src, hsrc, hbody⟩ := bind_eq_ok.mp h
  have hfirst := fun g (hg : g < ngroups) => firsts_at hsrc hg
  cases key with
  | i64 x =>
    obtain ⟨w, hw, rfl⟩ := bind_pure_eq_ok.mp hbody
    obtain ⟨i, y, hi, hy, hwg⟩ := picks_at (fun _ => rfl) (by simp) hfirst hw hg
    exact ⟨i, hi, (row_i64.mpr ⟨y, pick_of_getElem hwg, rfl⟩).trans (row_i64.mpr ⟨y, hy, rfl⟩).symm⟩
  | f64 x =>
    obtain ⟨w, hw, rfl⟩ := bind_pure_eq_ok.mp hbody
    obtain ⟨i, y, hi, hy, hwg⟩ := picks_at (fun _ => rfl) (by simp) hfirst hw hg
    exact ⟨i, hi, (row_f64.mpr ⟨y, pick_of_getElem hwg, rfl⟩).trans (row_f64.mpr ⟨y, hy, rfl⟩).symm⟩
  | bool x =>
    obtain ⟨w, hw, rfl⟩ := bind_pure_eq_ok.mp hbody
    obtain ⟨i, y, hi, hy, hwg⟩ := picks_at (fun _ => rfl) (by simp) hfirst hw hg
    exact ⟨i, hi, (row_bool.mpr ⟨y, pick_of_getElem hwg, rfl⟩).trans (row_bool.mpr ⟨y, hy, rfl⟩).symm⟩
  | str x =>
    obtain ⟨w, hw, rfl⟩ := bind_pure_eq_ok.mp hbody
    obtain ⟨i, y, hi, hy, hwg⟩ := picks_at (fun _ => rfl) (by simp) hfirst hw hg
    exact ⟨i, hi, (row_str.mpr ⟨y, pick_of_getElem hwg, rfl⟩).trans (row_str.mpr ⟨y, hy, rfl⟩).symm⟩
  | vector dim x =>
    obtain ⟨w, hw, rfl⟩ := bind_pure_eq_ok.mp hbody
    obtain ⟨i, y, hi, hy, hwg⟩ := picks_at (fun _ => rfl) (by simp) hfirst hw hg
    exact ⟨i, hi, (row_vector.mpr ⟨y, pick_of_getElem hwg, rfl⟩).trans
      (row_vector.mpr ⟨y, hy, rfl⟩).symm⟩

theorem mem_members : i ∈ members groupOf g ↔ groupOf[i]? = some g := by
  unfold members
  rw [List.mem_filter, List.mem_range, beq_iff_eq]
  constructor
  · exact And.right
  · intro h
    exact ⟨(List.getElem?_eq_some_iff.mp h).1, h⟩

theorem pickFirst_total (hkey : key.Sized n) (hlen : groupOf.length = n)
    (hids : ∀ g, g ∈ groupOf ↔ g < ngroups) :
    ∃ first, pickFirstPerGroup key groupOf ngroups = .ok first := by
  have hlt : ∀ g ∈ groupOf, g < ngroups := fun g => (hids g).mp
  cases h : pickFirstPerGroup key groupOf ngroups with
  | ok first => exact ⟨first, rfl⟩
  | error e =>
    cases e with
    | bail m => exact absurd h (pickFirst_not_bail hlt m)
    | crash place =>
      obtain ⟨g, hg, hmem⟩ := (crashes_pickFirst hkey hlen hlt).mp ⟨_, h, trivial⟩
      exact absurd ((hids g).mpr hg) hmem

end Firsts

/-- Before in the order that MIN, or MAX, goes by. -/
def Beats [LE α] (isMin : Bool) (a b : α) : Prop :=
  if isMin then a ≤ b else b ≤ a

/-- The least, or the greatest, of the entries of a group's rows. -/
def Extreme [LE α] (isMin : Bool) (x : List α) (groupOf : List Nat) (g : Nat) (m : α) : Prop :=
  (∃ i, groupOf[i]? = some g ∧ pick x i = .ok m) ∧
    ∀ i y, groupOf[i]? = some g → pick x i = .ok y → Beats isMin m y

section Extremes

variable [LE α] [Std.IsLinearOrder α] {isMin : Bool} {a b c m : α} {x xs : List α}
  {choose : α → α → α}

theorem Beats.refl (a : α) : Beats isMin a a := by
  cases isMin <;> exact Std.le_refl a

theorem Beats.trans (h₁ : Beats isMin a b) (h₂ : Beats isMin b c) : Beats isMin a c := by
  cases isMin with
  | true => exact Std.le_trans h₁ h₂
  | false => exact Std.le_trans h₂ h₁

theorem Beats.antisymm (h₁ : Beats isMin a b) (h₂ : Beats isMin b a) : a = b := by
  cases isMin with
  | true => exact Std.le_antisymm h₁ h₂
  | false => exact Std.le_antisymm h₂ h₁

theorem Extreme.unique (ha : Extreme isMin x groupOf g a) (hb : Extreme isMin x groupOf g b) :
    a = b := by
  obtain ⟨⟨i, hi, hai⟩, hall⟩ := ha
  obtain ⟨⟨j, hj, hbj⟩, hbll⟩ := hb
  exact (hall j b hj hbj).antisymm (hbll i a hi hai)

/-- A choice that keeps one of two and the better one. -/
def Chooses (isMin : Bool) (choose : α → α → α) : Prop :=
  ∀ a b, (choose a b = a ∨ choose a b = b) ∧ Beats isMin (choose a b) a ∧ Beats isMin (choose a b) b

theorem fold_chooses (hc : Chooses isMin choose) (xs : List α) (a : α) :
    ∃ m, xs.foldl (fun acc v => better choose v acc) (some a) = some m ∧ m ∈ a :: xs ∧
      ∀ y ∈ a :: xs, Beats isMin m y := by
  induction xs generalizing a with
  | nil => exact ⟨a, rfl, List.mem_singleton_self a, by simp [Beats.refl]⟩
  | cons x xs ih =>
    obtain ⟨hmem, hleft, hright⟩ := hc a x
    obtain ⟨m, hm, hin, hall⟩ := ih (choose a x)
    refine ⟨m, hm, ?_, fun y hy => ?_⟩
    · rcases List.mem_cons.mp hin with rfl | hin
      · rcases hmem with h | h <;> simp [h]
      · simp [hin]
    · have hfirst := hall _ List.mem_cons_self
      rcases List.mem_cons.mp hy with rfl | hy
      · exact hfirst.trans hleft
      · rcases List.mem_cons.mp hy with rfl | hy
        · exact hfirst.trans hright
        · exact hall y (List.mem_cons_of_mem _ hy)

/-- The fold over a group that is not empty ends with the extreme of its entries. -/
theorem fold_extreme (hc : Chooses isMin choose) (hxs : (members groupOf g).mapM (pick x) = .ok xs)
    (hg : g ∈ groupOf) :
    ∃ m, xs.foldl (fun acc v => better choose v acc) none = some m ∧
      Extreme isMin x groupOf g m := by
  have hmem : ∀ y ∈ xs, ∃ i, groupOf[i]? = some g ∧ pick x i = .ok y := by
    intro y hy
    obtain ⟨i, hi, hpick⟩ := exists_of_mem_mapM hxs hy
    exact ⟨i, mem_members.mp hi, hpick⟩
  have hall : ∀ i y, groupOf[i]? = some g → pick x i = .ok y → y ∈ xs := by
    intro i y hi hy
    obtain ⟨y', hin, hy'⟩ := mapM_mem hxs (mem_members.mpr hi)
    rwa [Except.ok.inj (hy.symm.trans hy')]
  cases xs with
  | nil =>
    obtain ⟨i, hi⟩ := List.getElem?_of_mem hg
    obtain ⟨y, hy, -⟩ := mapM_mem hxs (mem_members.mpr hi)
    cases hy
  | cons a xs =>
    obtain ⟨m, hm, hin, hbeats⟩ := fold_chooses hc xs a
    exact ⟨m, hm, hmem m hin, fun i y hi hy => hbeats y (hall i y hi hy)⟩

end Extremes

theorem chooses_i64 (isMin : Bool) :
    Chooses isMin (fun cur val : Int64 => if isMin then min cur val else max cur val) := by
  intro a b
  by_cases hle : a ≤ b
  · have hmin : min a b = a := if_pos hle
    have hmax : max a b = b := if_pos hle
    cases isMin <;> simp [hmin, hmax, Beats, hle, Std.le_refl]
  · have hmin : min a b = b := if_neg hle
    have hmax : max a b = a := if_neg hle
    have hge : b ≤ a := Std.le_of_not_ge hle
    cases isMin <;> simp [hmin, hmax, Beats, hge, Std.le_refl]

theorem chooses_str (isMin : Bool) :
    Chooses isMin (fun cur s : String => if decide (s < cur) == isMin then s else cur) := by
  intro a b
  by_cases hlt : b < a
  · have hle : b ≤ a := Std.le_of_lt hlt
    cases isMin <;> simp [hlt, Beats, hle, Std.le_refl]
  · have hle : a ≤ b := Std.not_lt.mp hlt
    cases isMin <;> simp [hlt, Beats, hle, Std.le_refl]

/-- Groups as a query means them: their rows, their numbers and their keys. -/
structure ExactGroups (keys : List Arr) (n : Nat) (groupOf : List Nat) (ngroups : Nat) : Prop where
  same : ∀ i j, i < n → j < n →
    (groupOf[i]? = groupOf[j]? ↔ ∀ k ∈ keys, k.value i = k.value j)
  covers : ∀ i < n, ∃ g < ngroups, groupOf[i]? = some g
  used : ∀ g < ngroups, ∃ i < n, groupOf[i]? = some g
  ordered : ∀ (i : Nat) g, groupOf[i]? = some g → ∀ g' < g, ∃ j < i, groupOf[j]? = some g'
  common : ∀ k ∈ keys, ∃ first, pickFirstPerGroup k groupOf ngroups = .ok first ∧
    first.len = ngroups ∧ ∀ (i : Nat) g, groupOf[i]? = some g → first.value g = k.value i

def extremeFunc (isMin : Bool) : AggFunc :=
  if isMin then .min else .max

/-- The column counts the rows of every group. -/
def Counts (groupOf : List Nat) (ngroups : Nat) (c : Column) : Prop :=
  ∃ w, c = .i64 w ∧ w.length = ngroups ∧
    ∀ g < ngroups, w[g]?.map Int64.toInt = some (groupOf.count g : Int)

structure ExactAggregates (rt : Runtime) (f : Frame) (sel : Sel) (groupOf : List Nat)
    (ngroups : Nat) (a : Expr) : Prop where
  rows : ∃ c, runAgg rt (.agg .count none false) f sel groupOf ngroups = .ok c ∧
    Counts groupOf ngroups c
  count : ∃ c, runAgg rt (.agg .count (some a) false) f sel groupOf ngroups = .ok c ∧
    Counts groupOf ngroups c
  ints : ∀ x, eval rt f sel a = .ok (.i64 x) → ∀ isMin, ∃ w,
    runAgg rt (.agg (extremeFunc isMin) (some a) false) f sel groupOf ngroups = .ok (.i64 w) ∧
      w.length = ngroups ∧ ∀ g < ngroups, ∃ m, w[g]? = some m ∧ Extreme isMin x groupOf g m
  texts : ∀ x, eval rt f sel a = .ok (.str x) → ∀ isMin, ∃ c,
    runAgg rt (.agg (extremeFunc isMin) (some a) false) f sel groupOf ngroups = .ok (.str c) ∧
      c.len = ngroups ∧ ∀ g < ngroups, ∃ m, c.get g = .ok m ∧ Extreme isMin x groupOf g m

/-- Rows with the same values in all keys have the same bytes in the BOOL ones, which are
true for any byte but 0. -/
def TruthsAgree (keys : List Arr) (n : Nat) : Prop :=
  ∀ i j, i < n → j < n → (∀ k ∈ keys, k.value i = k.value j) →
    ∀ v, .bool v ∈ keys → pick v i = pick v j

/-- The extreme texts of all groups together fit an arena. -/
def ExtremesFit (rt : Runtime) (f : Frame) (sel : Sel) (groupOf : List Nat) (ngroups : Nat)
    (a : Expr) : Prop :=
  ∀ x, eval rt f sel a = .ok (.str x) → ∀ isMin texts, texts.length = ngroups →
    (∀ (g : Nat) s, texts[g]? = some s → Extreme isMin x groupOf g s) →
      StrColumn.textBytes texts < 2 ^ 32

section Exactness

variable {keys : List Arr} {f : Frame} {sel : Sel} {a : Expr} {v : Arr} {bufs : List Bytes}

theorem counts_rows (hlen : groupOf.length = n) (hn : n < 2 ^ 32)
    (hids : ∀ g ∈ groupOf, g < ngroups) :
    ∃ c, countRows n groupOf ngroups = .ok c ∧ Counts groupOf ngroups c := by
  obtain ⟨w, hw, hwlen⟩ := countRows_total (n := n) hids
  refine ⟨.i64 w, hw, w, rfl, hwlen, fun g hg => ?_⟩
  obtain ⟨w', hc, hcount⟩ := countRows_at hlen hw hg
  obtain rfl := Column.i64.inj hc
  have hle : groupOf.count g ≤ groupOf.length := List.count_le_length
  rw [hcount, members_length, Option.map_some, Int64.toInt_ofNat_of_lt (by omega)]

theorem foldGroups_extreme [LE α] [Std.IsLinearOrder α] {isMin : Bool} {choose : α → α → α}
    {x : List α} (hc : Chooses isMin choose) (hlen : groupOf.length = n)
    (hids : ∀ g, g ∈ groupOf ↔ g < ngroups) (hx : x.length = n ∨ x.length = 1) :
    ∃ acc, foldGroups n groupOf (pick x) (better choose) (List.replicate ngroups none) = .ok acc ∧
      acc.length = ngroups ∧
      ∀ g < ngroups, ∃ m, acc[g]? = some (some m) ∧ Extreme isMin x groupOf g m := by
  obtain ⟨acc, hacc, hacclen⟩ := foldGroups_total (k := better choose) hlen
    (lt_replicate (fun g => (hids g).mp) none) fun i hi => pick_exists hi hx
  refine ⟨acc, hacc, by simpa using hacclen, fun g hg => ?_⟩
  obtain ⟨xs, hxs, hget⟩ := foldGroups_entry hlen hacc hg
  obtain ⟨m, hm, hextreme⟩ := fold_extreme hc hxs ((hids g).mpr hg)
  exact ⟨m, by rw [hget, hm], hextreme⟩

theorem mem_numbers : g ∈ numbers bufs ↔ g < (firsts bufs).length := by
  constructor
  · intro hg
    obtain ⟨i, hi⟩ := List.getElem?_of_mem hg
    exact lt_of_numbers hi
  · intro hg
    obtain ⟨i, hi⟩ := exists_of_lt hg
    exact List.mem_of_getElem? hi

/-- A key that rows can be grouped by. -/
structure Arr.Groupable (n : Nat) (k : Arr) : Prop where
  sized : k.Sized n
  plain : ∀ dim rows, k ≠ .vector dim rows
  short : k.Short

theorem exactGroups_iff (hk : ∀ k ∈ keys, k.Groupable n)
    (hbufs : (List.range n).mapM (rowKey keys) = .ok bufs) :
    ExactGroups keys n (numbers bufs) (firsts bufs).length ↔ TruthsAgree keys n := by
  have hlen : (numbers bufs).length = n := (length_numbers bufs).trans (mapM_range_length hbufs)
  have hrows : ∀ {i j}, i < n → j < n →
      ((numbers bufs)[i]? = (numbers bufs)[j]? ↔ ∀ k ∈ keys, k.row i = k.row j) := fun hi hj =>
    sameGroup_iff (fun k hmem => (hk k hmem).short) hbufs hi hj
  have hplace : ∀ {i g : Nat}, (numbers bufs)[i]? = some g → i < n := fun h =>
    hlen ▸ (List.getElem?_eq_some_iff.mp h).1
  constructor
  · intro h i j hi hj hvalues v hv
    exact picks_eq (by simp) ((hrows hi hj).mp ((h.same i j hi hj).mpr hvalues) _ hv)
  · intro htruths
    refine ⟨fun i j hi hj => ?_, fun i hi => ?_, fun g hg => ?_, fun i g hg g' hlt => ?_,
      fun k hmem => ?_⟩
    · rw [hrows hi hj]
      constructor
      · exact fun h k hmem => value_eq_of_row (h k hmem)
      · intro h k hmem
        exact row_eq_of_value (fun v hv => htruths i j hi hj h v (hv ▸ hmem)) (h k hmem)
    · have hget := List.getElem?_eq_getElem (hlen.symm ▸ hi : i < (numbers bufs).length)
      exact ⟨_, lt_of_numbers hget, hget⟩
    · obtain ⟨i, hi⟩ := exists_of_lt hg
      exact ⟨i, hplace hi, hi⟩
    · exact exists_before hg hlt
    · obtain ⟨first, hfirst⟩ := pickFirst_total (hk k hmem).sized hlen fun g => mem_numbers
      refine ⟨first, hfirst, (pickFirstPerGroup_len hfirst).1, fun i g hg => ?_⟩
      obtain ⟨i₀, hhead, hrow⟩ := first_row hfirst (lt_of_numbers hg)
      have hi₀ := mem_members.mp (List.mem_of_mem_head? hhead)
      have hsame := (hrows (hplace hi₀) (hplace hg)).mp (hi₀.trans hg.symm) k hmem
      exact value_eq_of_row (hrow.trans hsame)

theorem extremeFunc_runs {isMin : Bool} {func : AggFunc} (ha : eval rt f sel a = .ok v)
    (hfunc : extremeFunc isMin = func) :
    runAgg rt (.agg func (some a) false) f sel groupOf ngroups =
      extremeAgg rt isMin v sel.len groupOf ngroups := by
  subst hfunc
  rw [runAgg, ha, ok_bind]
  cases isMin <;> rfl

/-- Entries that are chosen by an order make a column of the extremes of the groups. -/
theorem extremes_column [LE α] [Std.IsLinearOrder α] {isMin : Bool} {choose : α → α → α}
    {x : List α} {d : α} {mk : List α → Column} (hx : eval rt f sel a = .ok v)
    (hv : x.length = sel.len ∨ x.length = 1)
    (hmk : extremeAgg rt isMin v sel.len groupOf ngroups = (do
      let acc ← foldGroups sel.len groupOf (pick x) (better choose) (List.replicate ngroups none)
      return mk (acc.map (·.getD d))))
    (hc : Chooses isMin choose) (hlen : groupOf.length = sel.len)
    (hids : ∀ g, g ∈ groupOf ↔ g < ngroups) : ∃ w,
      runAgg rt (.agg (extremeFunc isMin) (some a) false) f sel groupOf ngroups = .ok (mk w) ∧
        w.length = ngroups ∧ ∀ g < ngroups, ∃ m, w[g]? = some m ∧ Extreme isMin x groupOf g m := by
  obtain ⟨acc, hacc, hacclen, hall⟩ := foldGroups_extreme hc hlen hids hv
  refine ⟨acc.map (·.getD d), ?_, by simpa using hacclen, fun g hg => ?_⟩
  · rw [extremeFunc_runs hx rfl, hmk]
    exact bind_pure_eq_ok.mpr ⟨acc, hacc, rfl⟩
  · obtain ⟨m, hm, hextreme⟩ := hall g hg
    exact ⟨m, by rw [List.getElem?_map, hm]; rfl, hextreme⟩

theorem exactAggregates_iff (hlen : groupOf.length = sel.len) (hn : sel.len < 2 ^ 32)
    (hids : ∀ g, g ∈ groupOf ↔ g < ngroups) (ha : eval rt f sel a = .ok v) :
    ExactAggregates rt f sel groupOf ngroups a ↔ ExtremesFit rt f sel groupOf ngroups a := by
  have hcounts := counts_rows hlen hn fun g => (hids g).mp
  have hints : ∀ x, eval rt f sel a = .ok (.i64 x) → ∀ isMin, ∃ w,
      runAgg rt (.agg (extremeFunc isMin) (some a) false) f sel groupOf ngroups = .ok (.i64 w) ∧
        w.length = ngroups ∧ ∀ g < ngroups, ∃ m, w[g]? = some m ∧ Extreme isMin x groupOf g m :=
    fun x hx isMin => extremes_column hx (eval_sized hx) rfl (chooses_i64 isMin) hlen hids
  have htexts : ∀ x, eval rt f sel a = .ok (.str x) → ∀ isMin, ∃ texts : List String,
      runAgg rt (.agg (extremeFunc isMin) (some a) false) f sel groupOf ngroups =
          .ok (.str (texts.foldl StrColumn.push StrColumn.new)) ∧
        texts.length = ngroups ∧
        ∀ g < ngroups, ∃ m, texts[g]? = some m ∧ Extreme isMin x groupOf g m :=
    fun x hx isMin => extremes_column hx (eval_sized hx) rfl (chooses_str isMin) hlen hids
  constructor
  · intro h x hx isMin texts hn htexts'
    obtain ⟨own, hrun, hown, hextremes⟩ := htexts x hx isMin
    obtain ⟨c, hc, -, hget⟩ := h.texts x hx isMin
    obtain rfl := Column.str.inj (Except.ok.inj (hrun.symm.trans hc))
    -- there is one extreme of each group, so these are the texts the column was filled with
    have heq : texts = own := by
      refine List.ext_getElem (hn.trans hown.symm) fun g h₁ h₂ => ?_
      obtain ⟨m, hm, hextreme⟩ := hextremes g (hown ▸ h₂)
      have hmine := htexts' g _ (List.getElem?_eq_getElem h₁)
      rw [hmine.unique hextreme]
      exact (Option.some.inj ((List.getElem?_eq_getElem h₂).symm.trans hm)).symm
    rw [heq]
    refine (StrColumn.get_pushed_iff own).mp fun g s hs => ?_
    have hg : g < ngroups := hown ▸ (List.getElem?_eq_some_iff.mp hs).1
    obtain ⟨m, hm, hextreme⟩ := hextremes g hg
    obtain ⟨m', hread, hextreme'⟩ := hget g hg
    obtain rfl := Option.some.inj (hs.symm.trans hm)
    rw [hextreme.unique hextreme', hread]
  · intro hfit
    refine ⟨hcounts, ?_, hints, fun x hx isMin => ?_⟩
    · obtain ⟨c, hc, hcount⟩ := hcounts
      refine ⟨c, ?_, hcount⟩
      rw [runAgg, ha, ok_bind]
      exact hc
    · obtain ⟨texts, hrun, htlen, hextremes⟩ := htexts x hx isMin
      have hsmall := hfit x hx isMin texts htlen fun g s hs => by
        obtain ⟨m, hm, hextreme⟩ := hextremes g (htlen ▸ (List.getElem?_eq_some_iff.mp hs).1)
        rwa [Option.some.inj (hs.symm.trans hm)]
      refine ⟨_, hrun, (StrColumn.len_pushed texts).trans htlen, fun g hg => ?_⟩
      obtain ⟨m, hm, hextreme⟩ := hextremes g hg
      exact ⟨m, (StrColumn.get_pushed_iff texts).mpr hsmall g m hm, hextreme⟩

/-- Grouping and the aggregates that order or count are exact exactly where no BOOL key holds
two bytes for true in rows that agree otherwise, and the extreme texts fit an arena. -/
theorem grouping_exact_iff (hkeys : keys ≠ []) (hk : ∀ k ∈ keys, k.Groupable sel.len)
    (hn : sel.len < 2 ^ 32) (ha : eval rt f sel a = .ok v) :
    ∃ groupOf ngroups, assignGroups keys sel.len = .ok (groupOf, ngroups) ∧
      groupOf.length = sel.len ∧
      (ExactGroups keys sel.len groupOf ngroups ∧ ExactAggregates rt f sel groupOf ngroups a ↔
        TruthsAgree keys sel.len ∧ ExtremesFit rt f sel groupOf ngroups a) := by
  obtain ⟨bufs, hbufs⟩ := rowKeys_total (fun k hmem => (hk k hmem).sized) fun k hmem =>
    (hk k hmem).plain
  have hlen : (numbers bufs).length = sel.len := (length_numbers bufs).trans (mapM_range_length hbufs)
  exact ⟨numbers bufs, (firsts bufs).length, assignGroups_eq hkeys hn hbufs, hlen,
    and_congr (exactGroups_iff hk hbufs) (exactAggregates_iff hlen hn (fun g => mem_numbers) ha)⟩

end Exactness

/-- A BOOL column read from a snapshot keeps its bytes, and both of these are true. -/
def truths : Arr := .bool [1, 2]

/-- Two groups, and a text of half an arena as the least of both. -/
theorem grouping_inexact :
    (assignGroups [truths] 2 = .ok ([0, 1], 2) ∧ truths.value 0 = truths.value 1 ∧
      ¬ ExactGroups [truths] 2 [0, 1] 2) ∧
    ¬ ExactAggregates plainRuntime ⟨[]⟩ (.all 2) [0, 1] 2
      (.lit (.str (StrColumn.letters (2 ^ 31)))) := by
  refine ⟨⟨by decide +kernel, by decide +kernel, fun h => ?_⟩, ?_⟩
  · have hsame := (h.same 0 1 (by decide) (by decide)).mpr (by decide +kernel)
    exact absurd hsame (by decide)
  · have hbig : ∀ n, 2 ^ 32 ≤ n + n → ¬ ExactAggregates plainRuntime ⟨[]⟩ (.all 2) [0, 1] 2
        (.lit (.str (StrColumn.letters n))) := by
      intro n hn h
      have heval : eval plainRuntime ⟨[]⟩ (.all 2) (.lit (.str (StrColumn.letters n))) =
          .ok (.str [StrColumn.letters n]) := rfl
      have hids : ∀ g, g ∈ [0, 1] ↔ g < 2 := by
        intro g
        simp only [List.mem_cons, List.not_mem_nil, or_false]
        omega
      have hlen : [0, 1].length = (Sel.all 2).len := rfl
      have hfit := (exactAggregates_iff hlen (by decide) hids heval).mp h
      have hextreme : ∀ g < 2, Extreme true [StrColumn.letters n] [0, 1] g (StrColumn.letters n) := by
        intro g hg
        obtain ⟨i, hi⟩ := List.getElem?_of_mem ((hids g).mpr hg)
        refine ⟨⟨i, hi, rfl⟩, fun j y _ hy => ?_⟩
        obtain rfl := Except.ok.inj (hy : Except.ok (StrColumn.letters n) = .ok y)
        exact Beats.refl _
      have hsum := hfit _ heval true [StrColumn.letters n, StrColumn.letters n] rfl fun g s hs => by
        have hg := (List.getElem?_eq_some_iff.mp hs).1
        have hmem := List.mem_of_getElem? hs
        obtain rfl : s = StrColumn.letters n := by simpa using hmem
        exact hextreme g hg
      simp only [StrColumn.textBytes, List.map_cons, List.map_nil, List.sum_cons, List.sum_nil,
        StrColumn.length_letters] at hsum
      omega
    exact hbig _ (by decide)

theorem grouping_exact_iff_pair :
    ∃ groupOf ngroups, assignGroups [.i64 [3, 3]] 2 = .ok (groupOf, ngroups) ∧
      ExactGroups [.i64 [3, 3]] 2 groupOf ngroups ∧
      ExactAggregates plainRuntime ⟨[.i64 [5, 7]]⟩ (.all 2) groupOf ngroups (.col 0) := by
  have hgroupable : ∀ k ∈ [Arr.i64 [3, 3]], k.Groupable (Sel.all 2).len := by
    intro k hk
    obtain rfl := List.mem_singleton.mp hk
    exact ⟨Or.inl rfl, by simp, fun v hv => by cases hv⟩
  have heval : eval plainRuntime ⟨[.i64 [5, 7]]⟩ (.all 2) (.col 0) = .ok (.i64 [5, 7]) := rfl
  obtain ⟨groupOf, ngroups, hgroups, -, hexact⟩ :=
    grouping_exact_iff (by simp) hgroupable (by decide) heval
  obtain ⟨hg, ha⟩ := hexact.mpr ⟨fun i j _ _ _ v hv => by simp at hv, fun x hx => by
    cases heval.symm.trans hx⟩
  exact ⟨groupOf, ngroups, hgroups, hg, ha⟩

end Veldb
