import Veldb.Library.FeedbackRegister
import Veldb.WalRecovery

/-! A checksum changes with every damage of at most four consecutive bytes, so that a log
opens with the records before the damaged frame and a damaged snapshot is refused. -/

namespace Veldb

open FeedbackRegister Frames LittleEndian

def crcPolynomial : BitVec 32 := 0xEDB88320

theorem low_bit (c : UInt32) : c &&& 1 = if c.toBitVec.getLsbD 0 then 1 else 0 := by
  have hlow : (c &&& 1).toNat = c.toNat % 2 := by
    rw [UInt32.toNat_and]
    exact Nat.and_one_is_mod _
  have hbit : c.toBitVec.getLsbD 0 = decide (c.toNat % 2 = 1) := by
    rw [BitVec.getLsbD, Nat.testBit_zero, UInt32.toNat_toBitVec]
  refine UInt32.toNat_inj.mp ?_
  rw [hlow, hbit]
  by_cases h : c.toNat % 2 = 1
  · simp [h]
  · simp [h]
    omega

theorem crc32Bit_toBitVec (c : UInt32) : (crc32Bit c).toBitVec = shift crcPolynomial c.toBitVec := by
  unfold crc32Bit shift
  rw [low_bit]
  by_cases h : c.toBitVec.getLsbD 0 = true
  · rw [if_pos h, if_pos h]
    rfl
  · rw [if_neg h, if_neg h]
    rfl

theorem crc32Byte_toBitVec (c : UInt32) (b : UInt8) :
    (crc32Byte c b).toBitVec = feed crcPolynomial 8 c.toBitVec b.toNat := by
  have hrepeat : ∀ n c, (Nat.repeat crc32Bit n c).toBitVec = (shift crcPolynomial)^[n] c.toBitVec := by
    intro n
    induction n with
    | zero => exact fun c => rfl
    | succ n ih =>
      intro c
      rw [Nat.repeat, crc32Bit_toBitVec, ih, Function.iterate_succ_apply']
  have hsymbol : b.toUInt32.toBitVec = BitVec.ofNat 32 b.toNat := by
    refine BitVec.eq_of_toNat_eq ?_
    rw [UInt32.toNat_toBitVec, BitVec.toNat_ofNat, UInt8.toNat_toUInt32]
    have := b.toNat_lt
    omega
  rw [crc32Byte, hrepeat, UInt32.toBitVec_xor, hsymbol, feed]

theorem crc32_toBitVec (data : Bytes) (c : UInt32) :
    (data.foldl crc32Byte c).toBitVec =
      (data.map UInt8.toNat).foldl (feed crcPolynomial 8) c.toBitVec := by
  induction data generalizing c with
  | nil => rfl
  | cons b data ih => rw [List.foldl_cons, ih, crc32Byte_toBitVec]; rfl

/-- Byte strings that differ within four consecutive bytes have different checksums. -/
theorem crc32_differs {a b : Bytes} {start : Nat} (h : DiffersOnly start 4 a b) (hne : a ≠ b) :
    crc32 a ≠ crc32 b := by
  intro heq
  have hsame : a.foldl crc32Byte (~~~ 0) = b.foldl crc32Byte (~~~ 0) := by
    have := congrArg (~~~ ·) heq
    simpa [crc32] using this
  have hbyte : ∀ l : Bytes, ∀ x ∈ l.map UInt8.toNat, x < 2 ^ 8 := by
    intro l x hx
    obtain ⟨c, -, rfl⟩ := List.mem_map.mp hx
    exact c.toNat_lt
  have hmap : a.map UInt8.toNat ≠ b.map UInt8.toNat :=
    fun hm => hne (List.map_injective_iff.mpr (fun _ _ => UInt8.toNat_inj.mp) hm)
  have hbits := congrArg UInt32.toBitVec hsame
  rw [crc32_toBitVec, crc32_toBitVec] at hbits
  exact foldl_feed_differs (by decide) (by omega) (hbyte a) (hbyte b) (h.map _) (by omega) hmap _ hbits

namespace Wal

theorem scan_exists (bs : Bytes) : ∃ rs n, Scan framing bs rs n := by
  obtain ⟨n, hscan, -⟩ := scanFrames_scan bs 0
  exact ⟨_, n, hscan⟩

theorem openFile_scan {bs : Bytes} {rs : List RawRecord} {n : Nat} (h : Scan framing bs rs n)
    (d : Durability) : ∃ w, openFile (header ++ bs) d = .ok (w, rs) := by
  obtain ⟨m, hscan, -⟩ := scanFrames_scan (header ++ bs) 12
  obtain ⟨hrs, -⟩ := hscan.unique h
  rw [openFile_header, hrs]
  exact ⟨_, rfl⟩

/-- The length of a frame is written modulo `2 ^ 32`, and so many bytes are read back. -/
theorem frameAt_wrapped (n : Nat) (crc : UInt32) {body : Bytes} (h : body.length = 8 + n)
    (rest : Bytes) :
    frameAt (Writer.u32 (UInt32.ofNat n) ++ (Writer.u32 crc ++ (body ++ rest))) =
      if crc32 (body.take (8 + n % 2 ^ 32)) ≠ crc then none
      else some ((UInt64.ofNat (leNat ((body.take (8 + n % 2 ^ 32)).take 8)),
        (body.take (8 + n % 2 ^ 32)).drop 8), frameHeader + n % 2 ^ 32) := by
  have hn : (UInt32.ofNat n).toNat = n % 2 ^ 32 := UInt32.toNat_ofNat'
  have hmod : n % 2 ^ 32 ≤ n := Nat.mod_le _ _
  have hlen : (body.take (8 + n % 2 ^ 32)).length = 8 + (UInt32.ofNat n).toNat := by
    rw [List.length_take, hn, h]
    omega
  have hframe := frameAt_announced (UInt32.ofNat n) crc hlen (body.drop (8 + n % 2 ^ 32) ++ rest)
  rwa [← List.append_assoc (body.take _), List.take_append_drop, hn] at hframe

/-- A frame whose length has wrapped is not read back. -/
theorem frameAt_oversized {lsn : UInt64} {payload : Bytes} (h : 2 ^ 32 ≤ payload.length)
    (rest : Bytes) (k : Nat) : frameAt (frame lsn payload ++ rest) ≠ some ((lsn, payload), k) := by
  have hbody : (Writer.u64 lsn ++ payload).length = 8 + payload.length := by
    rw [List.length_append]
    rfl
  rw [frame_append, frameAt_wrapped payload.length _ hbody]
  by_cases hcrc : crc32 ((Writer.u64 lsn ++ payload).take (8 + payload.length % 2 ^ 32)) ≠
      crc32 (Writer.u64 lsn ++ payload)
  · rw [if_pos hcrc]
    simp
  · rw [if_neg hcrc]
    intro heq
    have hpay := congrArg List.length (congrArg Prod.snd (Prod.mk.inj (Option.some.inj heq)).1)
    simp only [List.length_drop, List.length_take, hbody] at hpay
    omega

/-- Where the body of frame `j` begins. -/
def bodyStart (log : List RawRecord) (j : Nat) : Nat :=
  header.length + ((log.take j).map fun r => frameHeader + r.2.length).sum + 8

theorem length_stream (rs : List RawRecord) :
    (stream framing rs).length = (rs.map fun r => frameHeader + r.2.length).sum := by
  induction rs with
  | nil => rfl
  | cons r rs ih =>
    rw [stream_cons, List.length_append, ih, List.map_cons, List.sum_cons]
    exact congrArg (· + _) (length_frame r.1 r.2)

theorem slice_middle (pre : Bytes) {mid : Bytes} (post : Bytes) {n : Nat} (h : n ≤ mid.length) :
    slice (pre ++ (mid ++ post)) pre.length (pre.length + n) = mid.take n := by
  rw [slice, List.drop_take, List.drop_left, Nat.add_sub_cancel_left,
    List.take_append_of_le_length h]

theorem splice_middle {pre mid post raw : Bytes}
    (h : DiffersOnly pre.length mid.length (pre ++ (mid ++ post)) raw) :
    ∃ mid', raw = pre ++ (mid' ++ post) ∧ mid'.length = mid.length := by
  have hsplice := h.splice
  rw [List.take_left, ← List.drop_drop, List.drop_left, List.drop_left] at hsplice
  refine ⟨_, hsplice.symm, ?_⟩
  have hlen := h.1
  simp only [List.length_append] at hlen
  rw [List.length_take, List.length_drop]
  omega

section Damage

variable {log : List RawRecord} {j : Nat} {r : RawRecord} {body' post : Bytes}

/-- The bytes before the body of a frame. -/
def beforeBody (log : List RawRecord) (j : Nat) (r : RawRecord) : Bytes :=
  header ++ (stream framing (log.take j) ++ (Writer.u32 (UInt32.ofNat r.2.length) ++
    Writer.u32 (crc32 (Writer.u64 r.1 ++ r.2))))

theorem length_beforeBody : (beforeBody log j r).length = bodyStart log j := by
  simp only [beforeBody, bodyStart, List.length_append, length_stream, Writer.u32, length_leBytes]
  omega

theorem beforeBody_append (rest : Bytes) :
    beforeBody log j r ++ rest = header ++ (stream framing (log.take j) ++
      (Writer.u32 (UInt32.ofNat r.2.length) ++ (Writer.u32 (crc32 (Writer.u64 r.1 ++ r.2)) ++ rest))) := by
  simp only [beforeBody, List.append_assoc]

theorem fileOf_split (hr : log[j]? = some r) :
    (fileOf log).content = beforeBody log j r ++
      ((Writer.u64 r.1 ++ r.2) ++ stream framing (log.drop (j + 1))) := by
  obtain ⟨hj, rfl⟩ := List.getElem?_eq_some_iff.mp hr
  have hlog : stream framing log = stream framing (log.take j) ++
      (frame log[j].1 log[j].2 ++ stream framing (log.drop (j + 1))) := by
    have hsplit := stream_append (F := framing) (log.take j) (log.drop j)
    rwa [List.take_append_drop, List.drop_eq_getElem_cons hj, stream_cons] at hsplit
  rw [beforeBody_append, ← frame_append, ← hlog]
  rfl

/-- Behind readable frames the scan stops at once exactly when the checksum of the bytes it
reads as the body disagrees. -/
theorem openFile_small_iff (hsmall : ∀ q ∈ log.take j, q.2.length < 2 ^ 32)
    (hbody : body'.length = 8 + r.2.length) (d : Durability) :
    (∃ w, openFile (beforeBody log j r ++ (body' ++ post)) d = .ok (w, log.take j)) ↔
      crc32 (body'.take (8 + r.2.length % 2 ^ 32)) ≠ crc32 (Writer.u64 r.1 ++ r.2) := by
  obtain ⟨rest, n, hrest⟩ := scan_exists (Writer.u32 (UInt32.ofNat r.2.length) ++
    (Writer.u32 (crc32 (Writer.u64 r.1 ++ r.2)) ++ (body' ++ post)))
  obtain ⟨w, hw⟩ := openFile_scan (scan_append hsmall hrest) d
  have hstop : rest = [] ↔
      crc32 (body'.take (8 + r.2.length % 2 ^ 32)) ≠ crc32 (Writer.u64 r.1 ++ r.2) := by
    rw [hrest.nil_iff, framing_next, frameAt_wrapped _ _ hbody, ite_eq_left_iff]
    simp
  rw [beforeBody_append, hw, ← hstop]
  constructor
  · rintro ⟨w', h⟩
    exact List.append_right_eq_self.mp (Prod.mk.inj (Except.ok.inj h)).2
  · rintro rfl
    exact ⟨w, by rw [List.append_nil]⟩

/-- A frame whose length has wrapped hides all frames from itself on. -/
theorem openFile_oversized (hlarge : ¬ ∀ q ∈ log.take j, q.2.length < 2 ^ 32) (rest : Bytes)
    (d : Durability) (w : Wal) :
    openFile (header ++ (stream framing (log.take j) ++ rest)) d ≠ .ok (w, log.take j) := by
  have hfind : ∃ q, (log.take j).find? (fun q => decide (2 ^ 32 ≤ q.2.length)) = some q := by
    rw [← Option.isSome_iff_exists, List.find?_isSome]
    push Not at hlarge
    obtain ⟨q, hq, hlen⟩ := hlarge
    exact ⟨q, hq, decide_eq_true hlen⟩
  obtain ⟨⟨lsn, payload⟩, hq⟩ := hfind
  obtain ⟨hlen, good, more, hsplit, hgood⟩ := List.find?_eq_some_iff_append.mp hq
  have hsmall : ∀ g ∈ good, g.2.length < 2 ^ 32 := fun g hg => by simpa using hgood g hg
  obtain ⟨found, n, hfound⟩ := scan_exists (frame lsn payload ++ (stream framing more ++ rest))
  obtain ⟨w', hw⟩ := openFile_scan (scan_append hsmall hfound) d
  have hbytes : stream framing (log.take j) ++ rest =
      stream framing good ++ (frame lsn payload ++ (stream framing more ++ rest)) := by
    rw [hsplit, stream_append, stream_cons, List.append_assoc, List.append_assoc]
    rfl
  rw [hbytes, hw]
  intro heq
  have hrecords := (Prod.mk.inj (Except.ok.inj heq)).2
  rw [hsplit, List.append_cancel_left_eq] at hrecords
  subst hrecords
  cases hfound with
  | frame hnext _ =>
    rw [framing_next] at hnext
    exact frameAt_oversized (of_decide_eq_true hlen) _ _ hnext

end Damage

/-- Damage of at most four consecutive bytes in the body of a frame leaves exactly the records
before it, as long as the lengths of the frames up to it have not wrapped. -/
theorem openFile_damaged_iff {log : List RawRecord} {j : Nat} {r : RawRecord}
    (hr : log[j]? = some r) {raw : Bytes} (hne : raw ≠ (fileOf log).content) {start : Nat}
    (hfour : DiffersOnly start 4 (fileOf log).content raw)
    (hbody : DiffersOnly (bodyStart log j) (8 + r.2.length) (fileOf log).content raw)
    (d : Durability) :
    (∃ w, openFile raw d = .ok (w, log.take j)) ↔
      (∀ q ∈ log.take j, q.2.length < 2 ^ 32) ∧ (r.2.length < 2 ^ 32 ∨
        crc32 (slice raw (bodyStart log j) (bodyStart log j + (8 + r.2.length % 2 ^ 32))) ≠
          crc32 (Writer.u64 r.1 ++ r.2)) := by
  have hlen : (Writer.u64 r.1 ++ r.2).length = 8 + r.2.length := by
    rw [List.length_append]
    rfl
  have hstart : (beforeBody log j r).length = bodyStart log j := length_beforeBody
  rw [fileOf_split hr] at hne hfour hbody
  rw [← hstart, ← hlen] at hbody
  obtain ⟨body', rfl, hlen'⟩ := splice_middle hbody
  rw [hlen] at hlen'
  have hchanged : crc32 body' ≠ crc32 (Writer.u64 r.1 ++ r.2) := by
    refine (crc32_differs hfour.middle fun heq => hne ?_).symm
    rw [heq]
  have hmod : r.2.length % 2 ^ 32 ≤ r.2.length := Nat.mod_le _ _
  by_cases hsmall : ∀ q ∈ log.take j, q.2.length < 2 ^ 32
  · rw [openFile_small_iff hsmall hlen', ← hstart, slice_middle _ _ (by omega)]
    refine ⟨fun h => ⟨hsmall, Or.inr h⟩, ?_⟩
    rintro ⟨-, hfit | h⟩
    · rwa [Nat.mod_eq_of_lt hfit, ← hlen', List.take_length]
    · exact h
  · refine iff_of_false ?_ fun h => hsmall h.1
    rintro ⟨w, hw⟩
    rw [beforeBody_append] at hw
    exact openFile_oversized hsmall _ d w hw

end Wal

open Wal

/-- A snapshot with up to four consecutive bytes changed before its checksum is refused. -/
theorem decodeSnapshot_damaged {tables : List Table} {lsn : UInt64} {bytes raw : Bytes} {start : Nat}
    (henc : encodeSnapshot tables lsn = .ok bytes) (hne : raw ≠ bytes)
    (hfour : DiffersOnly start 4 bytes raw) (hbefore : DiffersOnly 0 (bytes.length - 4) bytes raw) :
    ∃ msg, decodeSnapshot raw = bail msg := by
  obtain rfl : snapshotBody tables lsn ++ Writer.u32 (crc32 (snapshotBody tables lsn)) = bytes :=
    Except.ok.inj henc
  have htail : ∀ c, (Writer.u32 c).length = 4 := fun c => length_leBytes _ _
  rw [List.length_append, htail, Nat.add_sub_cancel] at hbefore
  have hwhole : DiffersOnly ([] : Bytes).length (snapshotBody tables lsn).length
      ([] ++ (snapshotBody tables lsn ++ Writer.u32 (crc32 (snapshotBody tables lsn)))) raw := hbefore
  obtain ⟨body', rfl, hlen⟩ := splice_middle hwhole
  have hchanged : crc32 body' ≠ crc32 (snapshotBody tables lsn) := by
    have hfront : DiffersOnly start 4
        ([] ++ (snapshotBody tables lsn ++ Writer.u32 (crc32 (snapshotBody tables lsn))))
        ([] ++ (body' ++ Writer.u32 (crc32 (snapshotBody tables lsn)))) := hfour
    refine (crc32_differs hfront.middle fun heq => hne ?_).symm
    rw [heq]
    rfl
  rw [List.nil_append]
  have hcut : (body' ++ Writer.u32 (crc32 (snapshotBody tables lsn))).length - 4 = body'.length := by
    rw [List.length_append, htail, Nat.add_sub_cancel]
  have hback : UInt32.ofNat (leNat (Writer.u32 (crc32 (snapshotBody tables lsn)))) =
      crc32 (snapshotBody tables lsn) := ofNat_leNat_uint32 _
  simp only [decodeSnapshot, ensureLe, bind, Except.bind, hcut, List.take_left, List.drop_left, hback,
    if_pos hchanged]
  split_ifs
  · exact ⟨_, rfl⟩
  · exact ⟨_, rfl⟩

/-- Small damage is always found: by the checksum of a frame whose length fits its field, and
by the checksum of a snapshot. -/
theorem smallDamage_detected_iff {w : Wal} {rs : List RawRecord} (hw : w.file = fileOf rs)
    (ps : List Bytes) :
    (∀ j r raw start, (rs ++ numbered w.nextLsn ps)[j]? = some r →
      raw ≠ (w.appendAll ps).file.content →
      DiffersOnly start 4 (w.appendAll ps).file.content raw →
      DiffersOnly (bodyStart (rs ++ numbered w.nextLsn ps) j) (8 + r.2.length)
        (w.appendAll ps).file.content raw →
      ∀ d, (∃ w', openFile raw d = .ok (w', (rs ++ numbered w.nextLsn ps).take j)) ↔
        (∀ q ∈ (rs ++ numbered w.nextLsn ps).take j, q.2.length < 2 ^ 32) ∧
          (r.2.length < 2 ^ 32 ∨
            crc32 (slice raw (bodyStart (rs ++ numbered w.nextLsn ps) j)
              (bodyStart (rs ++ numbered w.nextLsn ps) j + (8 + r.2.length % 2 ^ 32))) ≠
            crc32 (Writer.u64 r.1 ++ r.2))) ∧
    (∀ tables lsn bytes raw start, encodeSnapshot tables lsn = .ok bytes → raw ≠ bytes →
      DiffersOnly start 4 bytes raw → DiffersOnly 0 (bytes.length - 4) bytes raw →
      ∃ msg, decodeSnapshot raw = bail msg) ∧
    ∀ a b start, DiffersOnly start 4 a b → a ≠ b → crc32 a ≠ crc32 b := by
  have hfile : (w.appendAll ps).file = fileOf (rs ++ numbered w.nextLsn ps) := appendAll_file hw ps
  rw [hfile]
  exact ⟨fun j r raw start hr hne hfour hbody d => openFile_damaged_iff hr hne hfour hbody d,
    fun tables lsn bytes raw start => decodeSnapshot_damaged, fun a b start => crc32_differs⟩

/-- Behind a payload whose length has wrapped even a damaged frame is not looked at. -/
theorem openFile_behind_oversized {p : Bytes} (hp : 2 ^ 32 ≤ p.length) :
    ∃ raw, raw ≠ (fileOf [(1, p), (2, [])]).content ∧
      DiffersOnly (bodyStart [(1, p), (2, [])] 1) 4 (fileOf [(1, p), (2, [])]).content raw ∧
      DiffersOnly (bodyStart [(1, p), (2, [])] 1) 8 (fileOf [(1, p), (2, [])]).content raw ∧
      ∀ w d, openFile raw d ≠ .ok (w, [(1, p)]) := by
  have hfile : (fileOf [(1, p), (2, [])]).content =
      beforeBody [(1, p), (2, [])] 1 (2, []) ++ ([2, 0, 0, 0] ++ [0, 0, 0, 0]) := fileOf_split rfl
  have hstart : (beforeBody [(1, p), (2, [])] 1 (2, [])).length = bodyStart [(1, p), (2, [])] 1 :=
    length_beforeBody
  have hlarge : ¬ ∀ q ∈ ([(1, p), (2, [])] : List RawRecord).take 1, q.2.length < 2 ^ 32 := by
    intro h
    exact absurd hp (Nat.not_le_of_lt (h (1, p) (List.mem_singleton_self _)))
  have hlen : ([2, 0, 0, 0] : Bytes).length = ([3, 0, 0, 0] : Bytes).length := rfl
  have hdiff := differsOnly_middle (beforeBody [(1, p), (2, [])] 1 (2, [])) [0, 0, 0, 0] hlen
  refine ⟨beforeBody [(1, p), (2, [])] 1 (2, []) ++ ([3, 0, 0, 0] ++ [0, 0, 0, 0]), ?_, ?_, ?_, ?_⟩
  · rw [hfile]
    intro heq
    exact absurd (List.append_cancel_left heq) (by decide)
  · rw [hfile, ← hstart]
    exact hdiff
  · rw [hfile, ← hstart]
    exact hdiff.mono (Nat.le_refl _) (Nat.add_le_add_left (by decide) _)
  · intro w d
    rw [beforeBody_append]
    exact openFile_oversized hlarge _ d w

/-- A payload of `2 ^ 32` bytes comes before the damaged frame and is not read back. -/
theorem smallDamage_behind_large :
    ∃ raw, raw ≠ ((Wal.mk (fileOf []) 1 .fsync).appendAll [List.replicate (2 ^ 32) 0, []]).file.content ∧
      DiffersOnly (bodyStart (numbered 1 [List.replicate (2 ^ 32) 0, []]) 1) 4
        ((Wal.mk (fileOf []) 1 .fsync).appendAll [List.replicate (2 ^ 32) 0, []]).file.content raw ∧
      DiffersOnly (bodyStart (numbered 1 [List.replicate (2 ^ 32) 0, []]) 1) 8
        ((Wal.mk (fileOf []) 1 .fsync).appendAll [List.replicate (2 ^ 32) 0, []]).file.content raw ∧
      ¬ ∃ w, openFile raw .fsync = .ok (w, (numbered 1 [List.replicate (2 ^ 32) 0, []]).take 1) := by
  have hp : 2 ^ 32 ≤ (List.replicate (2 ^ 32) (0 : UInt8)).length :=
    Nat.le_of_eq List.length_replicate.symm
  generalize List.replicate (2 ^ 32) (0 : UInt8) = p at hp ⊢
  have hnew : (Wal.mk (fileOf []) 1 .fsync).file = fileOf [] := rfl
  have hlog : numbered 1 [p, []] = [(1, p), (2, [])] := rfl
  have hfile := appendAll_file hnew [p, []]
  obtain ⟨raw, hne, hfour, hbody, hopen⟩ := openFile_behind_oversized hp
  rw [hfile, List.nil_append, hlog]
  exact ⟨raw, hne, hfour, hbody, fun ⟨w, hw⟩ => hopen w .fsync hw⟩

/-- The log of two payloads, and the same log with its last byte changed. -/
def pairLog : Wal :=
  (Wal.mk (fileOf []) 1 .fsync).appendAll [[1], [2, 3]]

def flippedLog : Bytes :=
  pairLog.file.content.take 46 ++ [7]

theorem smallDamage_detected_iff_flipped :
    ∃ w, openFile flippedLog .fsync = .ok (w, [(1, [1])]) := by
  have hnew : (Wal.mk (fileOf []) 1 .fsync).file = fileOf [] := rfl
  have hlast : pairLog.file.content.drop 46 = [3] := by decide +kernel
  have hfile : pairLog.file.content.take 46 ++ ([3] ++ []) = pairLog.file.content := by
    rw [List.append_nil, ← hlast, List.take_append_drop]
  have hstart : (pairLog.file.content.take 46).length = 46 := by decide +kernel
  have hlen : ([3] : Bytes).length = ([7] : Bytes).length := rfl
  have hdiff : DiffersOnly 46 1 pairLog.file.content flippedLog := by
    have hmid := differsOnly_middle (pairLog.file.content.take 46) [] hlen
    rwa [hfile, hstart] at hmid
  have hne : flippedLog ≠ pairLog.file.content := by decide +kernel
  obtain ⟨hlog, -⟩ := smallDamage_detected_iff hnew [[1], [2, 3]]
  have hflip := hlog 1 (2, [2, 3]) flippedLog 46 rfl hne (hdiff.mono (by omega) (by omega))
    (hdiff.mono (by decide) (by decide)) .fsync
  exact hflip.mpr ⟨by decide, Or.inl (by decide)⟩

end Veldb
