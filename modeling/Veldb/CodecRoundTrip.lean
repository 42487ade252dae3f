import Mathlib.Data.List.Chain
import Veldb.Codec

/-! Every reader consumes exactly what its writer emits and returns the value
written, provided the lengths fit their 64-bit fields. -/

namespace Veldb

open LittleEndian Reads

namespace Reader

theorem take_yields {n : Nat} {bs : Bytes} (h : bs.length = n) : Yields (take n) bs bs := by
  intro rest
  subst h
  simp [take]

theorem take_map_yields {α : Type} {n : Nat} {bs : Bytes} {a : α} (f : Bytes → α)
    (h : bs.length = n) (ha : f bs = a) : Yields (do return f (← take n)) bs a :=
  (take_yields h).bind_pure (ha ▸ Yields.pure _)

theorem u8_yields (v : UInt8) : Yields u8 (Writer.u8 v) v :=
  take_map_yields _ rfl (by simp [Writer.u8, leNat])

theorem u64_yields (v : UInt64) : Yields u64 (Writer.u64 v) v :=
  take_map_yields _ (length_leBytes 8 _) (ofNat_leNat_uint64 v)

theorem i64_yields (v : Int64) : Yields i64 (Writer.i64 v) v :=
  take_map_yields _ (length_leBytes 8 _) (congrArg UInt64.toInt64 (ofNat_leNat_uint64 v.toUInt64))

theorem f64_yields (v : F64) : Yields f64 (Writer.f64 v) v :=
  take_map_yields _ (length_leBytes 8 _) (congrArg F64.mk (ofNat_leNat_uint64 v.bits))

theorem u32_yields (v : UInt32) : Yields u32 (Writer.u32 v) v :=
  take_map_yields _ (length_leBytes 4 _) (ofNat_leNat_uint32 v)

theorem bytes_yields {v : Bytes} (h : v.length < 2 ^ 64) : Yields bytes (Writer.bytes v) v := by
  refine (u64_yields _).bind (take_yields ?_)
  rw [UInt64.toNat_ofNat_of_lt' h]

theorem str_yields {s : String} (h : (utf8 s).length < 2 ^ 64) : Yields str (Writer.str s) s := by
  refine (bytes_yields h).bind_pure ?_
  rw [fromUtf8_utf8]
  exact Yields.pure s

theorem chunksExact_flatMap {α : Type} {k : Nat} (hk : 0 < k) {item : α → Bytes}
    (hitem : ∀ x, (item x).length = k) (xs : List α) :
    chunksExact k (xs.flatMap item) = xs.map item := by
  have hlen : ∀ ys : List α, (ys.flatMap item).length = ys.length * k := by
    intro ys
    induction ys with
    | nil => simp
    | cons y ys ih =>
      rw [List.flatMap_cons, List.length_append, hitem, ih, List.length_cons, Nat.succ_mul, Nat.add_comm]
  unfold chunksExact
  rw [hlen, Nat.mul_div_cancel _ hk]
  induction xs with
  | nil => rfl
  | cons x xs ih =>
    rw [List.length_cons, List.range_succ_eq_map, List.map_cons, List.map_map, List.map_cons, ← ih]
    congr 1
    · simp [← hitem x]
    · apply List.map_congr_left
      intro i _
      have hd : (item x ++ xs.flatMap item).drop ((i + 1) * k) = (xs.flatMap item).drop (i * k) := by
        rw [Nat.succ_mul, Nat.add_comm, ← List.drop_drop, ← hitem x, List.drop_left]
      simp only [Function.comp_apply, List.flatMap_cons, Nat.succ_eq_add_one, hd]

theorem rawOf_yields {α : Type} {size : Nat} {item : α → Bytes} {parse : Bytes → α}
    (hs : 0 < size) (hitem : ∀ x, (item x).length = size) (hparse : ∀ x, parse (item x) = x)
    {v : List α} (h : v.length * size < 2 ^ 64) :
    Yields (rawOf size parse) (Writer.raw item v) v := by
  have hv : v.length < 2 ^ 64 := lt_of_le_of_lt (Nat.le_mul_of_pos_right _ hs) h
  have hlen : (v.flatMap item).length = v.length * size := by
    simp [List.length_flatMap, hitem]
  refine (u64_yields _).bind ((take_yields ?_).bind_pure ?_)
  · rw [UInt64.toNat_ofNat_of_lt' hv, usizeRange, Nat.mod_eq_of_lt h, hlen]
  · have hm : (v.map item).map parse = v := by
      rw [List.map_map]
      exact (List.map_congr_left (fun x _ => hparse x)).trans (List.map_id v)
    rw [chunksExact_flatMap hs hitem, hm]
    exact Yields.pure v

theorem rawI64_yields {v : List Int64} (h : v.length * 8 < 2 ^ 64) :
    Yields rawI64 (Writer.raw Writer.i64 v) v :=
  rawOf_yields (by omega) (fun _ => length_leBytes _ _)
    (fun x => congrArg UInt64.toInt64 (ofNat_leNat_uint64 x.toUInt64)) h

theorem rawF64_yields {v : List F64} (h : v.length * 8 < 2 ^ 64) :
    Yields rawF64 (Writer.raw Writer.f64 v) v :=
  rawOf_yields (by omega) (fun _ => length_leBytes _ _)
    (fun x => congrArg F64.mk (ofNat_leNat_uint64 x.bits)) h

theorem rawF32_yields {v : List F32} (h : v.length * 4 < 2 ^ 64) :
    Yields rawF32 (Writer.raw Writer.f32 v) v :=
  rawOf_yields (by omega) (fun _ => length_leBytes _ _)
    (fun x => congrArg F32.mk (ofNat_leNat_uint32 x.bits)) h

theorem rawU32_yields {v : List UInt32} (h : v.length * 4 < 2 ^ 64) :
    Yields rawU32 (Writer.raw Writer.u32 v) v :=
  rawOf_yields (by omega) (fun _ => length_leBytes _ _)
    ofNat_leNat_uint32 h

theorem rawU8_yields {v : List UInt8} (h : v.length < 2 ^ 64) :
    Yields rawU8 (Writer.raw Writer.u8 v) v := by
  have he : v.flatMap Writer.u8 = v := List.flatMap_singleton' v
  rw [Writer.raw, he]
  refine (u64_yields _).bind (take_yields ?_)
  rw [UInt64.toNat_ofNat_of_lt' h]

theorem dataType_yields (ty : DataType) : Yields dataType (Writer.dataType ty) ty := by
  cases ty with
  | vector d => exact (u8_yields 5).bind ((u64_yields d).bind_pure (Yields.pure _))
  | _ => exact (u8_yields _).bind_pure (Yields.pure _)

theorem withCapacity_yields {size n : Nat} (h : n * size ≤ isizeMax) :
    Yields (β := UInt8) (monadLift (withCapacity size n) : Reader Unit) [] () := by
  intro rest
  simp [withCapacity, h]
  rfl

end Reader

@[mk_iff] structure Schema.Fits (s : Schema) : Prop where
  count : s.fields.length * Reader.fieldSize ≤ isizeMax
  names : ∀ f ∈ s.fields, (utf8 f.name).length < 2 ^ 64

instance Schema.decidableFits (s : Schema) : Decidable s.Fits :=
  decidable_of_iff' _ (Schema.fits_iff s)

namespace Reader

theorem schema_yields {s : Schema} (h : s.Fits) : Yields schema (Writer.schema s) s := by
  have hn : s.fields.length < 2 ^ 64 := by
    have := h.count
    simp only [fieldSize, isizeMax] at this
    omega
  have hf : ∀ f ∈ s.fields, Yields field (Writer.field f) f := fun f hf =>
    (str_yields (h.names f hf)).bind ((dataType_yields f.ty).bind_pure (Yields.pure f))
  refine (u64_yields _).bind ?_
  rw [UInt64.toNat_ofNat_of_lt' hn]
  exact (withCapacity_yields h.count).bind ((Yields.times hf).bind_pure (Yields.pure s))

theorem value_yields {v : Value} (h : v.Fits) : Yields (value v.typeOf) (Writer.value v) v := by
  cases v with
  | i64 x => exact (i64_yields x).map Value.i64
  | f64 x => exact (f64_yields x).map Value.f64
  | bool x => cases x <;> exact (u8_yields _).map _
  | str x => exact (str_yields h).map Value.str
  | vector x =>
    refine (rawF32_yields h).bind_pure ?_
    rw [if_neg (by simp)]
    exact Yields.pure _

end Reader

end Veldb
