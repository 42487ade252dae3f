import Veldb.ReplicaAgreement

/-! What the answer of a poll tells the replica. An empty log looks the same whether
nothing was written or a snapshot has taken everything away. -/

namespace Veldb

open Wal Frames

variable {lower : String → String}

namespace Database

def LogHolds (db : Database) : Prop :=
  ∃ s ∈ db.store, 12 < s.wal.file.content.length

/-- The log still has the record of number `lsn`. -/
def Logged (db : Database) (lsn : UInt64) : Prop :=
  ∃ rs, (db.walSince 0).1 = .ok rs ∧ lsn ∈ rs.map Prod.fst

end Database

/-- An `Ok` means that the replica has everything logged so far, and a record that is gone
from the log shows as the error after which `follow` starts over. -/
structure Net.PollTells (lower : String → String) (net : Net) (applied : UInt64) : Prop where
  caughtUp : ∀ lsn n db,
    net.replica.pullOnce lower (net.primary.wal applied).1 applied = (.ok (lsn, n), db) →
      net.primary.nextLsn = lsn + 1 ∧ db.tables = net.primary.tables
  gap : ∀ l, applied < l → l < net.primary.nextLsn → ¬net.primary.Logged l →
    ∃ e, (net.replica.pullOnce lower (net.primary.wal applied).1 applied).1 = .error e ∧
      e.isGap = true

theorem numbered_mem {n i : Nat} {ps : List Bytes} (h : i < ps.length) :
    UInt64.ofNat (n + i) ∈ (numbered (UInt64.ofNat n) ps).map Prod.fst := by
  induction ps generalizing n i with
  | nil => cases h
  | cons p ps ih =>
    rw [numbered, List.map_cons, ofNat_succ]
    cases i with
    | zero => exact List.mem_cons_self
    | succ i =>
      have hi := ih (n := n + 1) (Nat.lt_of_succ_lt_succ h)
      rw [show n + 1 + i = n + (i + 1) by omega] at hi
      exact List.mem_cons_of_mem _ hi

section

variable {net : Net} {H : List Bytes} {w : Nat}

theorem Agrees.nextLsn (h : Agrees lower net H w) :
    net.primary.nextLsn = UInt64.ofNat (H.length + 1) := by
  obtain ⟨s, base, hnext, hrec⟩ := h.recovers
  simp only [Database.nextLsn, hrec.stored, hnext]

theorem Agrees.logHolds (h : Agrees lower net H w) : net.primary.LogHolds ↔ w < H.length := by
  obtain ⟨s, base, -, hrec⟩ := h.recovers
  have hwithin := h.within
  have hcontent : s.wal.file.content.length =
      12 + (stream framing (numbered (UInt64.ofNat (w + 1)) (H.drop w))).length := by
    rw [hrec.logged, fileOf, List.length_append]
    rfl
  have hholds : net.primary.LogHolds ↔ 12 < s.wal.file.content.length := by
    simp [Database.LogHolds, hrec.stored]
  rw [hholds, hcontent]
  cases hd : H.drop w with
  | nil =>
    have hle := List.drop_eq_nil_iff.mp hd
    simp only [numbered, stream_nil, List.length_nil]
    omega
  | cons p ps =>
    have hlen := congrArg List.length hd
    rw [List.length_drop, List.length_cons] at hlen
    have hframe : (framing.encode (UInt64.ofNat (w + 1), p)).length = frameHeader + p.length :=
      length_frame _ _
    simp only [numbered, stream_cons, List.length_append, hframe, frameHeader]
    omega

/-- Everything above what the snapshot took is in the log. -/
theorem Agrees.logged (h : Agrees lower net H w) {l : UInt64} (hw : UInt64.ofNat w < l)
    (hl : l < net.primary.nextLsn) : net.primary.Logged l := by
  have hwithin := h.within
  have hcounted := h.counted
  rw [h.nextLsn, UInt64.lt_iff_toNat_lt, UInt64.toNat_ofNat_of_lt' hcounted] at hl
  rw [UInt64.lt_iff_toNat_lt, UInt64.toNat_ofNat_of_lt' (show w < 2 ^ 64 by omega)] at hw
  refine ⟨_, congrArg Prod.fst (h.walSince 0), ?_⟩
  have hmem : l ∈ (numbered (UInt64.ofNat (w + 1)) (H.drop w)).map Prod.fst := by
    have hi : l.toNat - (w + 1) < (H.drop w).length := by
      rw [List.length_drop]
      omega
    have hm := numbered_mem (n := w + 1) hi
    rw [show w + 1 + (l.toNat - (w + 1)) = l.toNat by omega, UInt64.ofNat_toNat] at hm
    exact hm
  obtain ⟨r, hr, rfl⟩ := List.mem_map.mp hmem
  refine List.mem_map.mpr ⟨r, List.mem_filter.mpr ⟨hr, ?_⟩, rfl⟩
  refine decide_eq_true (UInt64.lt_iff_toNat_lt.mpr ?_)
  rw [UInt64.toNat_zero]
  omega

theorem Agrees.pollTells {applied : UInt64} (h : Agrees lower net H w)
    (happ : net.applied = some applied) :
    net.PollTells lower applied ↔ net.primary.LogHolds ∨ net.primary.nextLsn = applied + 1 := by
  obtain ⟨k, hk, rfl, hplay⟩ := h.follows applied happ
  have hwithin := h.within
  have hcounted := h.counted
  have hnext : net.primary.nextLsn = UInt64.ofNat k + 1 ↔ k = H.length := by
    rw [h.nextLsn, ofNat_succ]
    constructor
    · intro he
      have := ofNat_inj (by omega) (by omega) he
      omega
    · intro he
      rw [he]
  rw [hnext, h.logHolds]
  rcases h.poll hk hplay with ⟨hw, n, hok⟩ | ⟨hkw, hlog, e, herr, hgap⟩ | ⟨hkw, hempty, hok⟩
  · -- the log reaches back to the replica
    refine iff_of_true ⟨fun lsn n' db hpull => ?_, fun l hal hl hnot => ?_⟩ (by omega)
    · rw [hok] at hpull
      obtain ⟨hres, rfl⟩ := Prod.mk.inj hpull
      obtain ⟨rfl, -⟩ := Prod.mk.inj (Except.ok.inj hres)
      rw [h.nextLsn, ofNat_succ]
      exact ⟨rfl, rfl⟩
    · have hwl : UInt64.ofNat w < l := by
        refine UInt64.lt_of_le_of_lt ?_ hal
        rw [UInt64.le_iff_toNat_le, UInt64.toNat_ofNat_of_lt' (show w < 2 ^ 64 by omega),
          UInt64.toNat_ofNat_of_lt' (show k < 2 ^ 64 by omega)]
        exact hw
      exact absurd (h.logged hwl hl) hnot
  · -- a snapshot took records the replica lacks, and the log starts behind them
    refine iff_of_true ⟨fun lsn n' db hpull => ?_, fun l _ _ _ => ?_⟩ (.inl hlog)
    · rw [herr] at hpull
      cases (Prod.mk.inj hpull).1
    · rw [herr]
      exact ⟨e, rfl, hgap⟩
  · -- a snapshot took them, and nothing was logged since
    refine iff_of_false (fun htells => ?_) (by omega)
    have hcaught := (htells.caughtUp _ _ _ hok).1
    have := hnext.mp hcaught
    omega

end

/-- In whatever state a run leaves the primary and the replica: the next poll tells the truth
exactly when the log holds a record or the replica has them all. -/
theorem poll_tells_iff (lower : String → String) (d : Durability) (net net' : Net) (ops : List NetOp)
    (applied : UInt64) (hstart : net.Starts lower d) (hs : NetSafeFrom lower net ops)
    (hrun : netRunFrom lower net ops = some net') (happ : net'.applied = some applied) :
    net'.PollTells lower applied ↔
      net'.primary.LogHolds ∨ net'.primary.nextLsn = applied + 1 := by
  obtain ⟨H, w, h⟩ := (Agrees.starts hstart).runFrom hs hrun
  exact h.pollTells happ

/-- The replica lags one record behind and the log has it. -/
def oneBehind : List NetOp :=
  [.call (.createTable "t" ⟨[⟨"x", .i64⟩]⟩), .bootstrap [intsWith []],
    .call (.insertRows "t" [[.i64 1]])]

theorem poll_tells_oneBehind :
    ∃ net', netRunFrom id freshNet oneBehind = some net' ∧ net'.applied = some 1 ∧
      net'.PollTells id 1 := by
  obtain ⟨net', hrun⟩ : ∃ net', netRunFrom id freshNet oneBehind = some net' :=
    Option.isSome_iff_exists.mp (by decide +kernel)
  have hend : ∀ net' ∈ netRunFrom id freshNet oneBehind, net'.applied = some 1 ∧
      ∃ s ∈ net'.primary.store, 12 < s.wal.file.content.length := by decide +kernel
  obtain ⟨happ, hlog⟩ := hend net' hrun
  have hstart : freshNet.Starts id .fsync := ⟨by decide +kernel, nofun⟩
  exact ⟨net', hrun, happ, (poll_tells_iff id .fsync freshNet net' oneBehind 1 hstart
    (by decide +kernel) hrun happ).mpr (.inl hlog)⟩

/-- A row, a snapshot, and an idle primary: the poll reports success and misses the row. -/
theorem idle_primary_hides_row :
    ∃ net', freshNet.Starts id .fsync ∧
      netRunFrom id freshNet (oneBehind ++ [.call (.snapshot [intsWith [1]])]) = some net' ∧
      net'.applied = some 1 ∧
      (net'.replica.pullOnce id (net'.primary.wal 1).1 1).1 = .ok (1, 0) ∧
      net'.primary.nextLsn = 3 ∧ ¬net'.PollTells id 1 := by
  obtain ⟨net', hrun⟩ : ∃ net',
      netRunFrom id freshNet (oneBehind ++ [.call (.snapshot [intsWith [1]])]) = some net' :=
    Option.isSome_iff_exists.mp (by decide +kernel)
  have hend : ∀ net' ∈ netRunFrom id freshNet (oneBehind ++ [.call (.snapshot [intsWith [1]])]),
      net'.applied = some 1 ∧ (net'.replica.pullOnce id (net'.primary.wal 1).1 1).1 = .ok (1, 0) ∧
        net'.primary.nextLsn = 3 := by decide +kernel
  obtain ⟨happ, hpull, hnext⟩ := hend net' hrun
  refine ⟨net', ⟨by decide +kernel, nofun⟩, hrun, happ, hpull, hnext, fun htells => ?_⟩
  have hcaught := (htells.caughtUp _ _ _ (Prod.ext hpull rfl)).1
  rw [hnext] at hcaught
  exact absurd hcaught (by decide)

end Veldb
