import Veldb.WalRecovery

/-! Appends that fail on the way. The handle goes on from wherever the file was
left, so a frame is safe only while no failed one lies in front of it. -/

namespace Veldb

open LittleEndian Frames

theorem File.writeAll_end {f : File} (h : f.pos = f.content.length) (bs : Bytes) :
    f.writeAll bs = ⟨f.content ++ bs, (f.content ++ bs).length⟩ := by
  have hd : f.content.drop (f.content.length + bs.length) = [] :=
    List.drop_of_length_le (Nat.le_add_right _ _)
  simp only [writeAll, h, List.take_length, Nat.sub_self, List.replicate_zero, List.append_nil, hd,
    List.length_append]

/-- The append fails and some of its frame is in the file. -/
def AppendIo.Leaves (d : Durability) (io : AppendIo) : Prop :=
  ¬io.Succeeds d ∧ io ≠ .writeFails 0

instance AppendIo.decidableSucceeds (d : Durability) : (io : AppendIo) → Decidable (io.Succeeds d)
  | .done => isTrue trivial
  | .writeFails _ => isFalse id
  | .syncFails => inferInstanceAs (Decidable (d ≠ .fsync))

instance AppendIo.decidableLeaves (d : Durability) (io : AppendIo) : Decidable (io.Leaves d) := by
  unfold Leaves
  infer_instance

namespace Wal

/-- Appends one after another: the records whose append returned `Ok`, and the log. -/
def appends (w : Wal) : List (AppendIo × Bytes) → List RawRecord × Wal
  | [] => ([], w)
  | (io, p) :: run =>
    match w.append io p with
    | (.ok lsn, w') => ((lsn, p) :: (w'.appends run).1, (w'.appends run).2)
    | (.error _, w') => w'.appends run

/-- The file holds `rs` and nothing else; their numbers rise up to the next one. -/
structure Clean (w : Wal) (rs : List RawRecord) : Prop where
  logged : w.file = fileOf rs
  payloads : ∀ r ∈ rs, r.2.length < 2 ^ 32
  below : ∀ r ∈ rs, r.1 < w.nextLsn
  distinct : (rs.map Prod.fst).Nodup

theorem Clean.at_end {w : Wal} {rs : List RawRecord} (h : w.Clean rs) :
    w.file.pos = w.file.content.length := by
  rw [h.logged]
  rfl

theorem distinct_concat {rs : List RawRecord} {lsn : UInt64} (hb : ∀ r ∈ rs, r.1 < lsn)
    (hd : (rs.map Prod.fst).Nodup) (p : Bytes) : ((rs ++ [(lsn, p)]).map Prod.fst).Nodup := by
  have hnot : lsn ∉ rs.map Prod.fst := by
    intro hm
    obtain ⟨r, hr, he⟩ := List.mem_map.mp hm
    exact absurd (hb r hr) (he ▸ UInt64.lt_irrefl _)
  rw [List.map_append, List.map_singleton]
  exact hd.append (List.nodup_singleton _) (by simpa using hnot)

theorem Clean.append {w : Wal} {rs : List RawRecord} (h : w.Clean rs) {p : Bytes}
    (hp : p.length < 2 ^ 32) (hn : w.nextLsn.toNat + 1 < 2 ^ 64) :
    Clean { w with file := w.file.writeAll (frame w.nextLsn p), nextLsn := w.nextLsn + 1 }
      (rs ++ [(w.nextLsn, p)]) := by
  have hlt : w.nextLsn < w.nextLsn + 1 := by
    rw [UInt64.lt_iff_toNat_lt, UInt64.toNat_add, UInt64.toNat_one, Nat.mod_eq_of_lt hn]
    exact Nat.lt_succ_self _
  have hbelow : ∀ r ∈ rs, r.1 < w.nextLsn + 1 := fun r hr => UInt64.lt_trans (h.below r hr) hlt
  refine ⟨?_, ?_, ?_, distinct_concat h.below h.distinct p⟩
  · simp only [h.logged]
    exact fileOf_writeAll rs (w.nextLsn, p)
  · exact List.forall_mem_append.mpr ⟨h.payloads, List.forall_mem_singleton.mpr hp⟩
  · exact List.forall_mem_append.mpr ⟨hbelow, List.forall_mem_singleton.mpr hlt⟩

theorem append_nothing {w : Wal} (h : w.file.pos = w.file.content.length) (p : Bytes) :
    w.append (.writeFails 0) p = (bail "write_all", w) := by
  simp only [append, List.take_zero, File.writeAll_end h, List.append_nil, ← h]

theorem appends_nothing {w : Wal} {run : List (AppendIo × Bytes)}
    (h : w.file.pos = w.file.content.length) (hr : ∀ x ∈ run, x.1 = .writeFails 0) :
    w.appends run = ([], w) := by
  induction run with
  | nil => rfl
  | cons x run ih =>
    obtain ⟨hx, hrest⟩ := List.forall_mem_cons.mp hr
    obtain ⟨io, p⟩ := x
    obtain rfl : io = .writeFails 0 := hx
    rw [appends, append_nothing h]
    exact ih hrest

/-- What a failed append leaves: some first bytes of the frame, perhaps all of them. -/
theorem append_leaves {w : Wal} {io : AppendIo} (h : io.Leaves w.durability)
    (he : w.file.pos = w.file.content.length) (p : Bytes) :
    ∃ e k w', w.append io p = (.error e, w') ∧
      w'.file.content = w.file.content ++ (frame w.nextLsn p).take k ∧
      w'.file.pos = w'.file.content.length := by
  obtain ⟨hfail, hne⟩ := h
  cases io with
  | done => exact absurd trivial hfail
  | writeFails k =>
    refine ⟨_, k, _, rfl, ?_, ?_⟩
    · rw [File.writeAll_end he]
    · rw [File.writeAll_end he]
  | syncFails =>
    have hd : w.durability = .fsync := not_not.mp hfail
    refine ⟨_, (frame w.nextLsn p).length, { w with file := w.file.writeAll (frame w.nextLsn p) },
      if_pos hd, ?_, ?_⟩
    · rw [File.writeAll_end he, List.take_length]
    · rw [File.writeAll_end he]

/-- Such a rest is either the record itself or no record at all. -/
theorem Clean.open_rest {w : Wal} {rs : List RawRecord} (h : w.Clean rs) {p : Bytes}
    (hp : p.length < 2 ^ 32) (k : Nat) (d : Durability) :
    ∃ w' found, openFile (w.file.content ++ (frame w.nextLsn p).take k) d = .ok (w', found) ∧
      rs.Sublist found ∧ (found.map Prod.fst).Nodup := by
  by_cases hk : k < (frame w.nextLsn p).length
  · have htorn : frameAt ((frame w.nextLsn p).take k) = none := frameAt_torn hp hk
    have hopen := openFile_stream h.payloads _ htorn d
    rw [← List.append_assoc] at hopen
    refine ⟨⟨fileOf rs, lsnAfter rs, d⟩, rs, ?_, List.Sublist.refl _, h.distinct⟩
    rw [h.logged]
    exact hopen
  · have hgood : ∀ r ∈ rs ++ [(w.nextLsn, p)], r.2.length < 2 ^ 32 :=
      List.forall_mem_append.mpr ⟨h.payloads, List.forall_mem_singleton.mpr hp⟩
    have hfile : w.file.content ++ frame w.nextLsn p = (fileOf (rs ++ [(w.nextLsn, p)])).content := by
      rw [← fileOf_writeAll rs (w.nextLsn, p), ← h.logged, File.writeAll_end h.at_end]
    have hopen := openFile_fileOf hgood d
    rw [← hfile] at hopen
    rw [List.take_of_length_le (by omega)]
    exact ⟨_, _, hopen, List.sublist_append_left _ _, distinct_concat h.below h.distinct p⟩

theorem Clean.appends {w : Wal} {rs : List RawRecord} (h : w.Clean rs)
    {run : List (AppendIo × Bytes)} (hn : w.nextLsn.toNat + run.length < 2 ^ 64)
    (hp : ∀ x ∈ run, x.1 ≠ .writeFails 0 → x.2.length < 2 ^ 32)
    (hr : run.Pairwise (fun a b => a.1.Leaves w.durability → b.1 = .writeFails 0)) (d : Durability) :
    ∃ w' found, openFile (w.appends run).2.file.content d = .ok (w', found) ∧
      (rs ++ (w.appends run).1).Sublist found ∧ (found.map Prod.fst).Nodup := by
  induction run generalizing w rs with
  | nil =>
    have hopen := openFile_fileOf h.payloads d
    rw [← h.logged] at hopen
    exact ⟨_, rs, hopen, by simp [Wal.appends], h.distinct⟩
  | cons x run ih =>
    obtain ⟨io, p⟩ := x
    obtain ⟨hio, hrest⟩ := List.pairwise_cons.mp hr
    obtain ⟨hpx, hps⟩ := List.forall_mem_cons.mp hp
    rw [List.length_cons] at hn
    by_cases hl : io.Leaves w.durability
    · -- the frame that stays behind is the last thing in the file
      obtain ⟨e, k, w', happ, hfile, hend⟩ := append_leaves hl h.at_end p
      have hidle := appends_nothing hend (fun y hy => hio y hy hl)
      rw [Wal.appends, happ]
      simp only [hidle, hfile, List.append_nil]
      exact h.open_rest (hpx hl.2) k d
    · by_cases hok : io.Succeeds w.durability
      · have hne : io ≠ .writeFails 0 := by
          rintro rfl
          exact hok
        have hclean := h.append (hpx hne) (by omega)
        have hnext : (w.nextLsn + 1).toNat = w.nextLsn.toNat + 1 := by
          rw [UInt64.toNat_add, UInt64.toNat_one, Nat.mod_eq_of_lt (by omega)]
        have hrun := ih hclean (by simp only [hnext]; omega) hps hrest
        rw [List.append_assoc] at hrun
        rw [Wal.appends, append_ok hok]
        exact hrun
      · have hz : io = .writeFails 0 := by
          by_contra hne
          exact hl ⟨hok, hne⟩
        subst hz
        rw [Wal.appends, append_nothing h.at_end]
        exact ih h (by omega) hps hrest

/-- While nothing is written behind a failed append, the log opens with every record
that was acknowledged and no number twice. -/
theorem appends_survive (w : Wal) (rs : List RawRecord) (h : w.Clean rs)
    (run : List (AppendIo × Bytes)) (hn : w.nextLsn.toNat + run.length < 2 ^ 64)
    (hp : ∀ x ∈ run, x.1 ≠ .writeFails 0 → x.2.length < 2 ^ 32)
    (hr : run.Pairwise (fun a b => a.1.Leaves w.durability → b.1 = .writeFails 0)) (d : Durability) :
    ∃ w' found, openFile (w.appends run).2.file.content d = .ok (w', found) ∧
      (w.appends run).1.Sublist found ∧ (found.map Prod.fst).Nodup := by
  obtain ⟨w', found, hopen, hsub, hnd⟩ := h.appends hn hp hr d
  exact ⟨w', found, hopen, (List.sublist_append_right _ _).trans hsub, hnd⟩

theorem clean_new (d : Durability) : Clean ⟨fileOf [], 1, d⟩ [] :=
  ⟨rfl, by simp, by simp, by simp⟩

/-- An append that wrote nothing, one that went through, one that was cut short. -/
theorem appends_survive_cut :
    (appends ⟨fileOf [], 1, .fsync⟩
      [(.writeFails 0, [1]), (.done, [2]), (.writeFails 18, [3, 4]), (.writeFails 0, [5])]).1 = [(1, [2])] ∧
    ∃ w' found, openFile (appends ⟨fileOf [], 1, .fsync⟩
      [(.writeFails 0, [1]), (.done, [2]), (.writeFails 18, [3, 4]), (.writeFails 0, [5])]).2.file.content
        .fsync = .ok (w', found) ∧ [(1, [2])].Sublist found := by
  have hacked : (appends ⟨fileOf [], 1, .fsync⟩
      [(.writeFails 0, [1]), (.done, [2]), (.writeFails 18, [3, 4]), (.writeFails 0, [5])]).1 =
      [(1, [2])] := by decide +kernel
  obtain ⟨w', found, hopen, hsub, -⟩ := appends_survive ⟨fileOf [], 1, .fsync⟩ [] (clean_new .fsync)
    [(.writeFails 0, [1]), (.done, [2]), (.writeFails 18, [3, 4]), (.writeFails 0, [5])] (by decide)
    (by decide) (by decide) .fsync
  exact ⟨hacked, w', found, hopen, hacked ▸ hsub⟩

/-- A record that was acknowledged behind a torn frame is not found again, and one behind a
frame that only missed its sync is found under a number given twice. -/
theorem appends_behind_failed :
    (appends ⟨fileOf [], 1, .fsync⟩ [(.writeFails 5, [1]), (.done, [2])]).1 = [(1, [2])] ∧
    (openFile (appends ⟨fileOf [], 1, .fsync⟩
      [(.writeFails 5, [1]), (.done, [2])]).2.file.content .fsync).toOption.map Prod.snd = some [] ∧
    (openFile (appends ⟨fileOf [], 1, .fsync⟩
      [(.syncFails, [1]), (.done, [2])]).2.file.content .fsync).toOption.map Prod.snd =
        some [(1, [1]), (1, [2])] := by
  decide +kernel

/-- What is acknowledged behind a failed append is lost with it, unless the torn bytes and the
new frame together start with a frame; a whole one in front has the same number. -/
theorem append_behind {w : Wal} {rs : List RawRecord} (h : w.Clean rs) {p q : Bytes} {k : Nat}
    (hp : p.length < 2 ^ 32) (hq : q.length < 2 ^ 32) (d : Durability) :
    let run := [(AppendIo.writeFails k, p), (.done, q)]
    (w.appends run).1 = [(w.nextLsn, q)] ∧
      (frameAt ((frame w.nextLsn p).take k ++ frame w.nextLsn q) = none →
        ∃ w', openFile (w.appends run).2.file.content d = .ok (w', rs)) ∧
      ((frame w.nextLsn p).length ≤ k →
        ∃ w', openFile (w.appends run).2.file.content d =
          .ok (w', rs ++ [(w.nextLsn, p), (w.nextLsn, q)])) := by
  intro run
  have hend : (w.file.writeAll ((frame w.nextLsn p).take k)).pos =
      (w.file.writeAll ((frame w.nextLsn p).take k)).content.length := by
    rw [File.writeAll_end h.at_end]
  have hfile : (w.appends run).2.file.content =
      w.file.content ++ ((frame w.nextLsn p).take k ++ frame w.nextLsn q) := by
    simp only [run, appends, append, bail, File.writeAll_end h.at_end]
    rw [File.writeAll_end rfl, List.append_assoc]
  refine ⟨rfl, fun hnone => ?_, fun hk => ?_⟩
  · rw [hfile, h.logged]
    have hopen := openFile_stream h.payloads _ hnone d
    rw [← List.append_assoc] at hopen
    exact ⟨_, hopen⟩
  · have hpair : ∀ r ∈ [(w.nextLsn, p), (w.nextLsn, q)], r.2.length < 2 ^ 32 :=
      List.forall_mem_cons.mpr ⟨hp, List.forall_mem_singleton.mpr hq⟩
    have hgood : ∀ r ∈ rs ++ [(w.nextLsn, p), (w.nextLsn, q)], r.2.length < 2 ^ 32 :=
      List.forall_mem_append.mpr ⟨h.payloads, hpair⟩
    have hopen := openFile_fileOf hgood d
    have hwhole : (w.appends run).2.file.content =
        (fileOf (rs ++ [(w.nextLsn, p), (w.nextLsn, q)])).content := by
      rw [hfile, h.logged, List.take_of_length_le hk]
      simp only [fileOf, stream_append, stream_cons, stream_nil, List.append_nil, List.append_assoc]
      rfl
    rw [← hwhole] at hopen
    exact ⟨_, hopen⟩

end Wal

end Veldb
