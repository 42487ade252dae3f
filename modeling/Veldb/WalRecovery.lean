import Veldb.Library.Frames
import Veldb.BatchInsert

/-! The log file as a stream of frames: what `open` finds after any appends,
after a cut at any byte, and after appends that follow the cut. -/

namespace Veldb

open LittleEndian Frames

namespace Wal

def header : Bytes :=
  walMagic ++ Writer.u32 formatVersion

/-- One turn of the scanning loop: the frame at the start of `bs` and its length. -/
def frameAt (bs : Bytes) : Option (RawRecord × Nat) :=
  let len := leNat (bs.take 4)
  if bs.length < frameHeader ∨ bs.length < frameHeader + len then none
  else
    let body := (bs.take (frameHeader + len)).drop 8
    if crc32 body ≠ UInt32.ofNat (leNat ((bs.take 8).drop 4)) then none
    else some ((UInt64.ofNat (leNat (body.take 8)), body.drop 8), frameHeader + len)

theorem length_frame (lsn : UInt64) (payload : Bytes) :
    (frame lsn payload).length = frameHeader + payload.length := by
  simp [frame, Writer.u32, Writer.u64, frameHeader]
  omega

theorem leNat_frame_take (lsn : UInt64) {payload : Bytes} (h : payload.length < 2 ^ 32) {k : Nat}
    (hk : 4 ≤ k) : leNat (((frame lsn payload).take k).take 4) = payload.length := by
  have hlen : (Writer.u32 (UInt32.ofNat payload.length)).length = 4 := length_leBytes _ _
  rw [List.take_take, Nat.min_eq_left hk, frame, List.append_assoc, List.take_append_of_le_length (by omega),
    List.take_of_length_le (by omega), Writer.u32, UInt32.toNat_ofNat_of_lt' h]
  exact leNat_leBytes_of_lt h

theorem frameAt_torn {lsn : UInt64} {payload : Bytes} (h : payload.length < 2 ^ 32) {k : Nat}
    (hk : k < (frame lsn payload).length) : frameAt ((frame lsn payload).take k) = none := by
  have hlen : ((frame lsn payload).take k).length = k := by
    rw [List.length_take, Nat.min_eq_left (Nat.le_of_lt hk)]
  by_cases hs : k < frameHeader
  · simp [frameAt, hlen, hs]
  · have hn := leNat_frame_take lsn h (k := k) (by simp only [frameHeader] at hs; omega)
    rw [length_frame] at hk
    simp [frameAt, hlen, hn, hk]

/-- A frame is what its length announces, if the checksum agrees. -/
theorem frameAt_announced (n crc : UInt32) {body : Bytes} (h : body.length = 8 + n.toNat)
    (rest : Bytes) :
    frameAt (Writer.u32 n ++ (Writer.u32 crc ++ (body ++ rest))) =
      if crc32 body ≠ crc then none
      else some ((UInt64.ofNat (leNat (body.take 8)), body.drop 8), frameHeader + n.toNat) := by
  have hn : (Writer.u32 n).length = 4 := length_leBytes _ _
  have hc : (Writer.u32 crc).length = 4 := length_leBytes _ _
  have hlen : leNat ((Writer.u32 n ++ (Writer.u32 crc ++ (body ++ rest))).take 4) = n.toNat := by
    rw [List.take_append_of_le_length (by omega), List.take_of_length_le (by omega), Writer.u32]
    exact leNat_leBytes_of_lt n.toNat_lt
  have hcrc : ((Writer.u32 n ++ (Writer.u32 crc ++ (body ++ rest))).take 8).drop 4 =
      Writer.u32 crc := by
    simp [List.take_append, hn, hc]
  have hbody : ((Writer.u32 n ++ (Writer.u32 crc ++ (body ++ rest))).take
      (frameHeader + n.toNat)).drop 8 = body := by
    have hhead : (Writer.u32 n ++ Writer.u32 crc).length = 8 := by rw [List.length_append, hn, hc]
    have hwidth : frameHeader + n.toNat - 8 = body.length := by
      rw [frameHeader, h]
      omega
    rw [← List.append_assoc, List.drop_take, hwidth, List.drop_left' hhead, List.take_left]
  have hback : UInt32.ofNat (leNat (Writer.u32 crc)) = crc := ofNat_leNat_uint32 _
  have hguard : ¬((Writer.u32 n ++ (Writer.u32 crc ++ (body ++ rest))).length < frameHeader ∨
      (Writer.u32 n ++ (Writer.u32 crc ++ (body ++ rest))).length < frameHeader + n.toNat) := by
    simp only [List.length_append, hn, hc, h, frameHeader]
    omega
  simp only [frameAt, hlen, if_neg hguard, hbody, hcrc, hback]

theorem frame_append (lsn : UInt64) (payload rest : Bytes) :
    frame lsn payload ++ rest = Writer.u32 (UInt32.ofNat payload.length) ++
      (Writer.u32 (crc32 (Writer.u64 lsn ++ payload)) ++ ((Writer.u64 lsn ++ payload) ++ rest)) := by
  simp only [frame, List.append_assoc]

theorem frameAt_frame {lsn : UInt64} {payload : Bytes} (h : payload.length < 2 ^ 32) (rest : Bytes) :
    frameAt (frame lsn payload ++ rest) = some ((lsn, payload), (frame lsn payload).length) := by
  have hbody : (Writer.u64 lsn ++ payload).length = 8 + (UInt32.ofNat payload.length).toNat := by
    rw [List.length_append, UInt32.toNat_ofNat_of_lt' h]
    rfl
  have hlsn : UInt64.ofNat (leNat ((Writer.u64 lsn ++ payload).take 8)) = lsn := by
    simp [Writer.u64]
  have hpay : (Writer.u64 lsn ++ payload).drop 8 = payload := by
    simp [Writer.u64]
  rw [frame_append, frameAt_announced _ _ hbody, if_neg (not_not.mpr rfl), hlsn, hpay, length_frame,
    UInt32.toNat_ofNat_of_lt' h]

def framing : Framing UInt8 RawRecord where
  encode r := frame r.1 r.2
  next := frameAt
  Good r := r.2.length < 2 ^ 32
  next_whole _ rest h := frameAt_frame h rest
  next_torn _ _ h hk := frameAt_torn h hk
  next_nil := by simp [frameAt, frameHeader]

theorem framing_next (bs : Bytes) : framing.next bs = frameAt bs := rfl

theorem slice_add (data : Bytes) (pos start stop : Nat) :
    slice data (pos + start) (pos + stop) = ((data.drop pos).take stop).drop start := by
  rw [slice, ← List.drop_drop, List.drop_take, Nat.add_sub_cancel_left]

theorem scanFrames_eq (raw : Bytes) (pos : Nat) :
    scanFrames raw pos = match frameAt (raw.drop pos) with
      | none => ([], pos)
      | some (r, k) => (r :: (scanFrames raw (pos + k)).1, (scanFrames raw (pos + k)).2) := by
  rw [scanFrames]
  have hlen : leNat (slice raw pos (pos + 4)) = leNat ((raw.drop pos).take 4) :=
    congrArg leNat (slice_add raw pos 0 4)
  have hcrc := slice_add raw pos 4 8
  by_cases hh : pos + frameHeader ≤ raw.length
  · by_cases hs : pos + frameHeader + leNat ((raw.drop pos).take 4) > raw.length
    · have hg : raw.length - pos < frameHeader ∨
          raw.length - pos < frameHeader + leNat ((raw.drop pos).take 4) := by omega
      simp only [hlen, hh, hs, if_true, frameAt, List.length_drop, hg]
    · have hg : ¬(raw.length - pos < frameHeader ∨
          raw.length - pos < frameHeader + leNat ((raw.drop pos).take 4)) := by omega
      have hbody : slice raw (pos + 8) (pos + frameHeader + leNat ((raw.drop pos).take 4)) =
          ((raw.drop pos).take (frameHeader + leNat ((raw.drop pos).take 4))).drop 8 := by
        rw [Nat.add_assoc, slice_add]
      simp only [hlen, hh, hs, if_true, if_false, frameAt, List.length_drop, hg, hbody, hcrc]
      split
      · rfl
      · simp only [Nat.add_assoc]
  · have hg : raw.length - pos < frameHeader ∨
        raw.length - pos < frameHeader + leNat ((raw.drop pos).take 4) := by
      simp only [frameHeader] at hh ⊢
      omega
    simp only [hh, if_false, frameAt, List.length_drop, hg, if_true]

theorem frameAt_pos {bs : Bytes} {r : RawRecord} {k : Nat} (h : frameAt bs = some (r, k)) :
    0 < k ∧ k ≤ bs.length := by
  unfold frameAt at h
  dsimp only at h
  split at h
  · cases h
  · next hg =>
    split at h
    · cases h
    · obtain ⟨-, rfl⟩ := Prod.mk.inj (Option.some.inj h)
      simp only [frameHeader] at hg ⊢
      omega

theorem scanFrames_scan (raw : Bytes) (pos : Nat) :
    ∃ n, Scan framing (raw.drop pos) (scanFrames raw pos).1 n ∧ (scanFrames raw pos).2 = pos + n := by
  induction hm : raw.length - pos using Nat.strong_induction_on generalizing pos with
  | _ m ih =>
    rw [scanFrames_eq]
    cases hf : frameAt (raw.drop pos) with
    | none => exact ⟨0, .stop hf, rfl⟩
    | some f =>
      obtain ⟨r, k⟩ := f
      obtain ⟨hk, hle⟩ := frameAt_pos hf
      rw [List.length_drop] at hle
      obtain ⟨n, hscan, hend⟩ := ih (raw.length - (pos + k)) (by omega) (pos + k) rfl
      refine ⟨k + n, .frame hf ?_, by simp only [hend, Nat.add_assoc]⟩
      rwa [List.drop_drop]

theorem scanFrames_stream {rs : List RawRecord} (h : ∀ r ∈ rs, r.2.length < 2 ^ 32) {tail : Bytes}
    (ht : frameAt tail = none) :
    scanFrames (header ++ (stream framing rs ++ tail)) 12 =
      (rs, (header ++ stream framing rs).length) := by
  obtain ⟨n, hscan, hend⟩ := scanFrames_scan (header ++ (stream framing rs ++ tail)) 12
  have hd : (header ++ (stream framing rs ++ tail)).drop 12 = stream framing rs ++ tail := rfl
  have hs := scan_stream (F := framing) h ht
  rw [hd] at hscan
  obtain ⟨h1, h2⟩ := hscan.unique hs
  have hl : (header ++ stream framing rs).length = 12 + (stream framing rs).length :=
    List.length_append
  exact Prod.ext h1 (by rw [hend, h2, hl])

def fileOf (rs : List RawRecord) : File :=
  ⟨header ++ stream framing rs, (header ++ stream framing rs).length⟩

def lsnAfter (rs : List RawRecord) : UInt64 :=
  match rs.getLast? with
  | some (l, _) => l + 1
  | none => 1

/-- A file with a whole header opens with what the scan finds, cut off behind it. -/
theorem openFile_header (bs : Bytes) (d : Durability) :
    openFile (header ++ bs) d =
      .ok (⟨(if (scanFrames (header ++ bs) 12).2 ≠ (header ++ bs).length then
          (File.mk (header ++ bs) (header ++ bs).length).setLen (scanFrames (header ++ bs) 12).2
        else File.mk (header ++ bs) (header ++ bs).length).seekEnd,
        lsnAfter (scanFrames (header ++ bs) 12).1, d⟩, (scanFrames (header ++ bs) 12).1) := by
  have hne : header ++ bs ≠ [] := by simp [header, walMagic]
  have hlong : ¬((header ++ bs).length < walMagic.length + 4 ∨ (header ++ bs).take 8 ≠ walMagic) := by
    rintro (hs | hs)
    · simp [header, walMagic, Writer.u32] at hs
      omega
    · exact hs rfl
  have hver : UInt32.ofNat (leNat (slice (header ++ bs) 8 12)) = formatVersion :=
    ofNat_leNat_uint32 formatVersion
  simp only [openFile, if_neg hne, if_neg hlong, hver, ne_eq, not_true, if_false]
  rfl

theorem openFile_stream {rs : List RawRecord} (h : ∀ r ∈ rs, r.2.length < 2 ^ 32) (tail : Bytes)
    (ht : frameAt tail = none) (d : Durability) :
    openFile (header ++ (stream framing rs ++ tail)) d = .ok (⟨fileOf rs, lsnAfter rs, d⟩, rs) := by
  have htake : (header ++ (stream framing rs ++ tail)).take (header ++ stream framing rs).length =
      header ++ stream framing rs := by
    rw [← List.append_assoc, List.take_left]
  have hfile : (if (header ++ stream framing rs).length ≠
      (header ++ (stream framing rs ++ tail)).length then
        (File.mk (header ++ (stream framing rs ++ tail))
          (header ++ (stream framing rs ++ tail)).length).setLen (header ++ stream framing rs).length
      else File.mk (header ++ (stream framing rs ++ tail))
        (header ++ (stream framing rs ++ tail)).length).seekEnd = fileOf rs := by
    by_cases he : tail = []
    · simp [he, fileOf, File.seekEnd]
    · have hn : (header ++ stream framing rs).length ≠ (header ++ (stream framing rs ++ tail)).length := by
        have := List.length_pos_of_ne_nil he
        simp only [List.length_append]
        omega
      have hz : (header ++ stream framing rs).length -
          (header ++ (stream framing rs ++ tail)).length = 0 := by
        simp only [List.length_append]
        omega
      simp only [if_pos hn, File.setLen, htake, hz, List.replicate_zero, List.append_nil, File.seekEnd,
        fileOf]
  rw [openFile_header, scanFrames_stream h ht]
  exact congrArg (fun f => Except.ok (Wal.mk f (lsnAfter rs) d, rs)) hfile

def numbered : UInt64 → List Bytes → List RawRecord
  | _, [] => []
  | lsn, p :: ps => (lsn, p) :: numbered (lsn + 1) ps

def appendAll (w : Wal) (ps : List Bytes) : Wal :=
  ps.foldl (fun w p => (w.append .done p).2) w

theorem numbered_length (lsn : UInt64) (ps : List Bytes) : (numbered lsn ps).length = ps.length := by
  induction ps generalizing lsn with
  | nil => rfl
  | cons p ps ih => simp [numbered, ih]

theorem numbered_payload {lsn : UInt64} {ps : List Bytes} {n : Nat} (h : ∀ p ∈ ps, p.length < n) :
    ∀ r ∈ numbered lsn ps, r.2.length < n := by
  induction ps generalizing lsn with
  | nil => simp [numbered]
  | cons p ps ih =>
    obtain ⟨hp, hps⟩ := List.forall_mem_cons.mp h
    exact List.forall_mem_cons.mpr ⟨hp, ih hps⟩

theorem fileOf_writeAll (rs : List RawRecord) (r : RawRecord) :
    (fileOf rs).writeAll (frame r.1 r.2) = fileOf (rs ++ [r]) := by
  have hs : header ++ stream framing (rs ++ [r]) = header ++ stream framing rs ++ frame r.1 r.2 := by
    rw [stream_append, List.append_assoc, stream_cons, stream_nil, List.append_nil]
    rfl
  have hd : (header ++ stream framing rs).drop
      ((header ++ stream framing rs).length + (frame r.1 r.2).length) = [] :=
    List.drop_of_length_le (Nat.le_add_right _ _)
  have hl : (header ++ stream framing rs ++ frame r.1 r.2).length =
      (header ++ stream framing rs).length + (frame r.1 r.2).length := List.length_append
  simp only [File.writeAll, fileOf, hs, hl, List.take_length, Nat.sub_self, List.replicate_zero,
    List.append_nil, hd]

theorem append_fileOf {w : Wal} {rs : List RawRecord} (h : w.file = fileOf rs) (p : Bytes) :
    w.append .done p = (.ok w.nextLsn,
      { w with file := fileOf (rs ++ [(w.nextLsn, p)]), nextLsn := w.nextLsn + 1 }) := by
  simp only [append, h, ← fileOf_writeAll rs (w.nextLsn, p)]

theorem appendAll_file {w : Wal} {rs : List RawRecord} (h : w.file = fileOf rs) (ps : List Bytes) :
    (w.appendAll ps).file = fileOf (rs ++ numbered w.nextLsn ps) := by
  induction ps generalizing w rs with
  | nil => simpa [appendAll, numbered] using h
  | cons p ps ih =>
    have hstep := append_fileOf h p
    rw [appendAll, List.foldl_cons, hstep]
    have hrest := ih (w := { w with
      file := fileOf (rs ++ [(w.nextLsn, p)]), nextLsn := w.nextLsn + 1 }) rfl
    rw [List.append_assoc] at hrest
    exact hrest

theorem openFile_nil (d : Durability) : openFile [] d = .ok (⟨fileOf [], 1, d⟩, []) := by
  rfl

theorem reset_file (w : Wal) : w.reset = { w with file := fileOf [] } := by
  simp only [reset, File.setLen, List.take_zero, Nat.zero_sub, List.replicate_zero]
  rfl

theorem openFile_fileOf {rs : List RawRecord} (h : ∀ r ∈ rs, r.2.length < 2 ^ 32) (d : Durability) :
    openFile (fileOf rs).content d = .ok (⟨fileOf rs, lsnAfter rs, d⟩, rs) := by
  have ht := openFile_stream h [] framing.next_nil d
  rwa [List.append_nil] at ht

/-- A log cut at any byte past its header opens with the records whose frames
end before the cut, and goes on from there. -/
theorem openFile_take {w : Wal} {rs : List RawRecord} (hw : w.file = fileOf rs)
    (hrs : ∀ r ∈ rs, r.2.length < 2 ^ 32) (ps : List Bytes) (hps : ∀ p ∈ ps, p.length < 2 ^ 32)
    (k : Nat) (hk : 12 ≤ k) (d : Durability) :
    let log := rs ++ numbered w.nextLsn ps
    let stop := fun m => 12 + ((log.take m).flatMap (fun r => frame r.1 r.2)).length
    ∃ m ≤ log.length, (∀ i < log.length, stop (i + 1) ≤ k ↔ i < m) ∧
      ∃ w', openFile ((w.appendAll ps).file.content.take k) d = .ok (w', log.take m) ∧
        w'.file.content = (w.appendAll ps).file.content.take (stop m) ∧
        ∀ qs : List Bytes, (∀ q ∈ qs, q.length < 2 ^ 32) →
          ∃ w'', openFile (w'.appendAll qs).file.content d =
            .ok (w'', log.take m ++ numbered w'.nextLsn qs) := by
  intro log stop
  have hlog : ∀ r ∈ log, r.2.length < 2 ^ 32 :=
    List.forall_mem_append.mpr ⟨hrs, numbered_payload hps⟩
  obtain ⟨m, tail, htake, htail, hm, hend⟩ := stream_take (F := framing) hlog (k - 12)
  have hsurv : ∀ r ∈ log.take m, r.2.length < 2 ^ 32 := fun r hr => hlog r (List.mem_of_mem_take hr)
  have hfile : (w.appendAll ps).file.content = header ++ stream framing log := by
    rw [appendAll_file hw]
    rfl
  have hcut : (header ++ stream framing log).take k =
      header ++ (stream framing (log.take m) ++ tail) := by
    have hh : header.length = 12 := rfl
    rw [List.take_append, List.take_of_length_le (by omega), hh, htake]
  have hopen := openFile_stream hsurv tail htail d
  refine ⟨m, hm, ?_, ⟨fileOf (log.take m), lsnAfter (log.take m), d⟩, ?_, ?_, ?_⟩
  · intro i hi
    have hi' := hend i hi
    change 12 + (stream framing (log.take (i + 1))).length ≤ k ↔ i < m
    omega
  · rw [hfile, hcut, hopen]
  · have hh : stop m = (header ++ stream framing (log.take m)).length := by
      rw [List.length_append]
      rfl
    have hsplit : header ++ stream framing log =
        header ++ stream framing (log.take m) ++ stream framing (log.drop m) := by
      rw [List.append_assoc, ← stream_append, List.take_append_drop]
    rw [hfile, hh, hsplit, List.take_left]
    rfl
  · intro qs hqs
    have hgood : ∀ r ∈ log.take m ++ numbered (lsnAfter (log.take m)) qs, r.2.length < 2 ^ 32 :=
      List.forall_mem_append.mpr ⟨hsurv, numbered_payload hqs⟩
    rw [appendAll_file (w := ⟨fileOf (log.take m), lsnAfter (log.take m), d⟩) rfl]
    exact ⟨_, openFile_fileOf hgood d⟩

theorem openFile_take_inside_last :
    openFile ((appendAll ⟨fileOf [], 1, .fsync⟩ [[1], [2, 3]]).file.content.take 40) .fsync =
      .ok (⟨fileOf [(1, [1])], 2, .fsync⟩, [(1, [1])]) ∧
    ∃ m ≤ 2, ∃ w', openFile ((appendAll ⟨fileOf [], 1, .fsync⟩ [[1], [2, 3]]).file.content.take 40)
      .fsync = .ok (w', [(1, [1]), (2, [2, 3])].take m) := by
  refine ⟨by decide +kernel, ?_⟩
  have hw : (⟨fileOf [], 1, .fsync⟩ : Wal).file = fileOf [] := rfl
  obtain ⟨m, hm, -, w', hopen, -⟩ :=
    openFile_take hw (by simp) [[1], [2, 3]] (by decide) 40 (by decide) .fsync
  exact ⟨m, hm, w', hopen⟩

end Wal

end Veldb
