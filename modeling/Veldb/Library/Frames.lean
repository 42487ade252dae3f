import Mathlib.Data.List.Basic
import Mathlib.Data.List.Flatten

/-! A log of self-delimiting frames: what a scan finds in a whole log, in a log
cut at any place, and in one continued after the cut. -/

namespace Frames

variable {β α : Type}

/-- `next` reads the frame at the start of the bytes and tells its length. A
frame is read back whatever follows it, and no proper prefix of it is one. -/
structure Framing (β α : Type) where
  encode : α → List β
  next : List β → Option (α × Nat)
  Good : α → Prop
  next_whole : ∀ a rest, Good a → next (encode a ++ rest) = some (a, (encode a).length)
  next_torn : ∀ a k, Good a → k < (encode a).length → next ((encode a).take k) = none
  next_nil : next [] = none

variable (F : Framing β α)

def stream (as : List α) : List β :=
  as.flatMap F.encode

/-- The frames from the start of the bytes up to the first place that holds
none, and their length. -/
inductive Scan : List β → List α → Nat → Prop where
  | stop {bs} : F.next bs = none → Scan bs [] 0
  | frame {bs a k as n} : F.next bs = some (a, k) → Scan (bs.drop k) as n → Scan bs (a :: as) (k + n)

variable {F}

theorem Scan.unique {bs : List β} {as as' : List α} {n n' : Nat} (h : Scan F bs as n)
    (h' : Scan F bs as' n') : as = as' ∧ n = n' := by
  induction h generalizing as' n' with
  | stop hs =>
    cases h' with
    | stop _ => exact ⟨rfl, rfl⟩
    | frame hn _ => rw [hs] at hn; cases hn
  | frame hn _ ih =>
    cases h' with
    | stop hs => rw [hs] at hn; cases hn
    | frame hn' hrest =>
      obtain ⟨rfl, rfl⟩ := Prod.mk.inj (Option.some.inj (hn.symm.trans hn'))
      obtain ⟨rfl, rfl⟩ := ih hrest
      exact ⟨rfl, rfl⟩

theorem Scan.nil_iff {bs : List β} {as : List α} {n : Nat} (h : Scan F bs as n) :
    as = [] ↔ F.next bs = none := by
  cases h with
  | stop hs => exact iff_of_true rfl hs
  | frame hn _ => simp [hn]

@[simp] theorem stream_nil : stream F [] = [] := rfl

@[simp] theorem stream_cons (a : α) (as : List α) :
    stream F (a :: as) = F.encode a ++ stream F as := rfl

theorem stream_append (as bs : List α) : stream F (as ++ bs) = stream F as ++ stream F bs :=
  List.flatMap_append

theorem scan_append {as : List α} (h : ∀ a ∈ as, F.Good a) {bs : List β} {cs : List α} {n : Nat}
    (hbs : Scan F bs cs n) : Scan F (stream F as ++ bs) (as ++ cs) ((stream F as).length + n) := by
  induction as with
  | nil => simpa using hbs
  | cons a as ih =>
    have ha := F.next_whole a (stream F as ++ bs) (h a List.mem_cons_self)
    have has := ih (fun b hb => h b (List.mem_cons_of_mem _ hb))
    rw [stream_cons, List.append_assoc, List.length_append, Nat.add_assoc]
    refine .frame ha ?_
    rwa [List.drop_left]

theorem scan_stream {as : List α} (h : ∀ a ∈ as, F.Good a) {tail : List β} (ht : F.next tail = none) :
    Scan F (stream F as ++ tail) as (stream F as).length := by
  simpa using scan_append h (.stop ht)

/-- A log cut after `k` bytes is the log of the frames that end within them,
followed by a tail that starts no frame. -/
theorem stream_take {as : List α} (h : ∀ a ∈ as, F.Good a) (k : Nat) :
    ∃ m tail, (stream F as).take k = stream F (as.take m) ++ tail ∧ F.next tail = none ∧
      m ≤ as.length ∧ ∀ i < as.length, (stream F (as.take (i + 1))).length ≤ k ↔ i < m := by
  induction as generalizing k with
  | nil => exact ⟨0, [], by simp, F.next_nil, by simp, by simp⟩
  | cons a as ih =>
    have ha := h a List.mem_cons_self
    by_cases hk : k < (F.encode a).length
    · refine ⟨0, (F.encode a).take k, ?_, F.next_torn a k ha hk, by simp, ?_⟩
      · rw [stream_cons, List.take_append_of_le_length (by omega)]
        rfl
      · intro i _
        simp only [List.take_succ_cons, stream_cons, List.length_append]
        omega
    · obtain ⟨m, tail, htake, htail, hm, hend⟩ :=
        ih (fun b hb => h b (List.mem_cons_of_mem _ hb)) (k - (F.encode a).length)
      refine ⟨m + 1, tail, ?_, htail, by simpa using hm, ?_⟩
      · rw [stream_cons, List.take_append, List.take_of_length_le (by omega), htake,
          List.take_succ_cons, stream_cons, List.append_assoc]
      · intro i hi
        cases i with
        | zero =>
          simp only [Nat.zero_add, List.take_succ_cons, List.take_zero, stream_cons, stream_nil,
            List.append_nil]
          omega
        | succ i =>
          have hi' := hend i (by simpa using hi)
          simp only [List.take_succ_cons, stream_cons, List.length_append] at hi' ⊢
          omega

end Frames
