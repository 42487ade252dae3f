import Veldb.HexTransport

/-! A replica that reports the primary's last number holds the primary's tables:
the invariant ties both to one history of payloads. -/

namespace Veldb

open Wal

variable {lower : String → String}

namespace Wal

theorem ofNat_succ (n : Nat) : UInt64.ofNat n + 1 = UInt64.ofNat (n + 1) := by
  rw [UInt64.ofNat_add]
  rfl

theorem numbered_append (lsn : UInt64) (ps qs : List Bytes) :
    numbered lsn (ps ++ qs) = numbered lsn ps ++ numbered (lsn + UInt64.ofNat ps.length) qs := by
  induction ps generalizing lsn with
  | nil => simp [numbered]
  | cons p ps ih =>
    have hl : lsn + 1 + UInt64.ofNat ps.length = lsn + UInt64.ofNat (p :: ps).length := by
      rw [List.length_cons, ← ofNat_succ, UInt64.add_assoc, UInt64.add_comm 1]
    rw [List.cons_append, numbered, ih, hl, numbered, List.cons_append]

theorem mem_numbered {n : Nat} {ps : List Bytes} {r : RawRecord}
    (h : r ∈ numbered (UInt64.ofNat n) ps) : ∃ i < ps.length, r.1 = UInt64.ofNat (n + i) := by
  induction ps generalizing n with
  | nil => cases h
  | cons p ps ih =>
    rw [numbered, ofNat_succ] at h
    rcases List.mem_cons.mp h with rfl | h
    · exact ⟨0, by simp, rfl⟩
    · obtain ⟨i, hi, hr⟩ := ih h
      exact ⟨i + 1, by simpa using hi, by rw [hr]; congr 1; omega⟩

theorem filter_numbered {H : List Bytes} {w k : Nat} (hw : w ≤ k) (hk : k ≤ H.length)
    (hH : H.length + 1 < 2 ^ 64) :
    (numbered (UInt64.ofNat (w + 1)) (H.drop w)).filter (fun r => UInt64.ofNat k < r.1) =
      numbered (UInt64.ofNat (k + 1)) (H.drop k) := by
  have hsplit : H.drop w = (H.drop w).take (k - w) ++ H.drop k := by
    have := List.take_append_drop (k - w) (H.drop w)
    rw [List.drop_drop, show w + (k - w) = k by omega] at this
    exact this.symm
  have hlen : ((H.drop w).take (k - w)).length = k - w := by
    rw [List.length_take, List.length_drop]
    omega
  have hstart : UInt64.ofNat (w + 1) + UInt64.ofNat (k - w) = UInt64.ofNat (k + 1) := by
    rw [← UInt64.ofNat_add]
    congr 1
    omega
  have hlt : ∀ a b : Nat, a < 2 ^ 64 → b < 2 ^ 64 → (UInt64.ofNat a < UInt64.ofNat b ↔ a < b) := by
    intro a b ha hb
    rw [UInt64.lt_iff_toNat_lt, UInt64.toNat_ofNat_of_lt' ha, UInt64.toNat_ofNat_of_lt' hb]
  rw [hsplit, numbered_append, hlen, hstart, List.filter_append]
  have hnone : (numbered (UInt64.ofNat (w + 1)) ((H.drop w).take (k - w))).filter
      (fun r => UInt64.ofNat k < r.1) = [] := by
    refine List.filter_eq_nil_iff.mpr (fun r hr => ?_)
    obtain ⟨i, hi, hri⟩ := mem_numbered hr
    rw [hlen] at hi
    have := hlt k (w + 1 + i) (by omega) (by omega)
    rw [hri]
    simp only [this, decide_eq_true_eq]
    omega
  have hall : (numbered (UInt64.ofNat (k + 1)) (H.drop k)).filter (fun r => UInt64.ofNat k < r.1) =
      numbered (UInt64.ofNat (k + 1)) (H.drop k) := by
    refine List.filter_eq_self.mpr (fun r hr => ?_)
    obtain ⟨i, hi, hri⟩ := mem_numbered hr
    rw [List.length_drop] at hi
    have := hlt k (k + 1 + i) (by omega) (by omega)
    rw [hri]
    simp only [this, decide_eq_true_eq]
    omega
  rw [hnone, hall, List.nil_append]

end Wal

namespace Catalog

def playAll (lower : String → String) (lsn : UInt64) (m : Catalog) (ps : List Bytes) : Exec Catalog :=
  (numbered lsn ps).foldlM (fun m r => m.applyPayload lower r.1 r.2) m

theorem playAll_append (lower : String → String) (lsn : UInt64) (m : Catalog) (ps qs : List Bytes) :
    playAll lower lsn m (ps ++ qs) =
      playAll lower lsn m ps >>= fun m' => playAll lower (lsn + UInt64.ofNat ps.length) m' qs := by
  rw [playAll, numbered_append, List.foldlM_append]
  rfl

theorem applyPayload_ok {m m' : Catalog} {lsn : UInt64} {p : Bytes}
    (h : m.applyPayload lower lsn p = .ok m') :
    ∃ r, WalRecord.decode p (m.schemaOf lower) = .ok r ∧ m.apply lower r = (.ok (), m') := by
  unfold applyPayload at h
  cases hd : WalRecord.decode p (m.schemaOf lower) with
  | error e =>
    cases e <;> simp [hd, withContext, bind, Except.bind] at h
  | ok r =>
    refine ⟨r, rfl, ?_⟩
    simp only [hd, withContext_ok, bind, Except.bind] at h
    split at h
    · next e m'' ha =>
      cases e <;> simp [withContext] at h
    · next m'' ha =>
      obtain rfl := Except.ok.inj h
      exact ha

end Catalog

def replyOf (rs : List RawRecord) : List ReplyRecord :=
  rs.map (fun r => ⟨some r.1, some (hex r.2)⟩)

theorem pullRecords_numbered {m m' : Catalog} (lsn : UInt64) {ps : List Bytes} (n : Nat)
    (h : Catalog.playAll lower (lsn + 1) m ps = .ok m') :
    Database.pullRecords lower m lsn n (replyOf (numbered (lsn + 1) ps)) =
      (.ok (lsn + UInt64.ofNat ps.length, n + ps.length), m') := by
  induction ps generalizing m lsn n with
  | nil =>
    obtain rfl := Except.ok.inj h
    simp [numbered, replyOf, Database.pullRecords]
  | cons p ps ih =>
    rw [Catalog.playAll, numbered, List.foldlM_cons] at h
    cases hp : m.applyPayload lower (lsn + 1) p with
    | error e => simp [hp, bind, Except.bind] at h
    | ok m₁ =>
      obtain ⟨r, hdec, happ⟩ := Catalog.applyPayload_ok hp
      rw [hp] at h
      have hrest := ih (lsn + 1) (n + 1) h
      have hl : lsn + 1 + UInt64.ofNat ps.length = lsn + UInt64.ofNat (p :: ps).length := by
        rw [List.length_cons, ← ofNat_succ, UInt64.add_assoc, UInt64.add_comm 1]
      rw [hl, show n + 1 + ps.length = n + (p :: ps).length by rw [List.length_cons]; omega] at hrest
      rw [← hrest, numbered, replyOf, List.map_cons, Database.pullRecords]
      simp only [ne_eq, not_true, if_false, unhex_hex, hdec, withContext_ok, happ]
      rfl

/-- A record that does not continue the replica's number stops the pull at once. -/
theorem pullRecords_gap (lower : String → String) (m : Catalog) (n : Nat) {lsn next : UInt64}
    (h : next ≠ lsn + 1) (p : Bytes) (rs : List RawRecord) :
    ∃ e, Database.pullRecords lower m lsn n (replyOf ((next, p) :: rs)) = (.error e, m) ∧
      e.isGap = true := by
  refine ⟨.bail s!"разрыв в WAL: ожидался lsn={(lsn + 1).toNat}, пришёл {next.toNat}", ?_, ?_⟩
  · simp only [replyOf, List.map_cons, Database.pullRecords, ne_eq, h, not_false_eq_true, if_true]
    rfl
  · have hhead : "разрыв в WAL: ожидался lsn=".toList =
        "разрыв в WAL".toList ++ ": ожидался lsn=".toList := by decide
    refine decide_eq_true ⟨[], ?_⟩
    simp only [toString, String.toList_append, hhead, List.nil_append, List.append_assoc]
    exact ⟨_, rfl⟩

namespace Database

/-- The record fits its frame, reads back as it is, and is not the last that can
be numbered. -/
@[mk_iff] structure Ships (lower : String → String) (db : Database) (r : WalRecord) : Prop where
  length : r.payload.length < 2 ^ 32
  keeps : r.Keeps lower db.tables
  number : db.nextLsn + 1 ≠ 0

instance decidableShips (db : Database) (r : WalRecord) : Decidable (db.Ships lower r) :=
  decidable_of_iff' _ (ships_iff lower db r)

/-- A restart goes on counting: the log holds a record, or none was ever written. -/
def KeepsCount (db : Database) : Prop :=
  db.nextLsn = 1 ∨ ∃ s ∈ db.store, 12 < s.wal.file.content.length

instance decidableKeepsCount (db : Database) : Decidable db.KeepsCount :=
  match h : db.store with
  | none => decidable_of_iff (db.nextLsn = 1) (by simp [KeepsCount, h])
  | some s =>
    decidable_of_iff (db.nextLsn = 1 ∨ 12 < s.wal.file.content.length) (by simp [KeepsCount, h])

end Database

def NetOp.Safe (lower : String → String) (net : Net) : NetOp → Prop
  | .call (.snapshot tables) => Database.StoresSafely tables
  | .call (.restart _) => net.primary.KeepsCount
  | .call op => ∀ r ∈ op.record lower net.primary, net.primary.Ships lower r
  | .bootstrap tables => Database.StoresSafely tables
  | .pull => True

instance NetOp.decidableSafe (net : Net) : (op : NetOp) → Decidable (op.Safe lower net)
  | .call (.snapshot tables) => inferInstanceAs (Decidable (Database.StoresSafely tables))
  | .call (.restart _) => inferInstanceAs (Decidable net.primary.KeepsCount)
  | .call (.createTable name schema) => inferInstanceAs (Decidable
      (∀ r ∈ (Op.createTable name schema).record lower net.primary, net.primary.Ships lower r))
  | .call (.dropTable name) => inferInstanceAs (Decidable
      (∀ r ∈ (Op.dropTable name).record lower net.primary, net.primary.Ships lower r))
  | .call (.insertRows name rows) => inferInstanceAs (Decidable
      (∀ r ∈ (Op.insertRows name rows).record lower net.primary, net.primary.Ships lower r))
  | .bootstrap tables => inferInstanceAs (Decidable (Database.StoresSafely tables))
  | .pull => inferInstanceAs (Decidable True)

def netRunFrom (lower : String → String) (net : Net) (ops : List NetOp) : Option Net :=
  ops.foldlM (NetOp.exec lower) net

def NetSafeFrom (lower : String → String) : Net → List NetOp → Prop
  | _, [] => True
  | net, op :: ops => op.Safe lower net ∧ ∀ net' ∈ op.exec lower net, NetSafeFrom lower net' ops

instance decidableNetSafeFrom :
    (net : Net) → (ops : List NetOp) → Decidable (NetSafeFrom lower net ops)
  | _, [] => isTrue trivial
  | net, op :: ops =>
    have := fun net' => decidableNetSafeFrom net' ops
    inferInstanceAs (Decidable
      (op.Safe lower net ∧ ∀ net' ∈ op.exec lower net, NetSafeFrom lower net' ops))

/-- A primary on a fresh directory and a replica that is empty or has not yet
bootstrapped. -/
structure Net.Starts (lower : String → String) (d : Durability) (net : Net) : Prop where
  primary : openFresh lower d = some net.primary
  replica : ∀ lsn, net.applied = some lsn → lsn = 0 ∧ net.replica.tables = ∅

/-- `H` is every payload ever logged, `w` how many of them the snapshot holds;
the replica has replayed as many as it reports. -/
structure Agrees (lower : String → String) (net : Net) (H : List Bytes) (w : Nat) : Prop where
  recovers : ∃ s base, s.wal.nextLsn = UInt64.ofNat (H.length + 1) ∧
    Recovers lower net.primary s base (UInt64.ofNat w) (numbered (UInt64.ofNat (w + 1)) (H.drop w))
  played : Catalog.playAll lower 1 ∅ H = .ok net.primary.tables
  within : w ≤ H.length
  counted : H.length + 1 < 2 ^ 64
  follows : ∀ lsn, net.applied = some lsn → ∃ k ≤ H.length, lsn = UInt64.ofNat k ∧
    Catalog.playAll lower 1 ∅ (H.take k) = .ok net.replica.tables

section

variable {net : Net} {H : List Bytes} {w : Nat}

theorem Agrees.starts {d : Durability} (h : net.Starts lower d) : Agrees lower net [] 0 := by
  obtain ⟨db, hopen, hempty, hrec⟩ := recovers_fresh lower d
  have hdb := h.primary
  rw [openFresh, hopen] at hdb
  obtain rfl : db = net.primary := Option.some.inj hdb
  refine ⟨⟨_, _, rfl, hrec⟩, by rw [hempty]; rfl, le_refl 0, by decide, fun lsn hl => ?_⟩
  obtain ⟨rfl, hrep⟩ := h.replica lsn hl
  exact ⟨0, le_refl 0, rfl, by rw [hrep]; rfl⟩

theorem ofNat_lt_ofNat {a b : Nat} (ha : a < 2 ^ 64) (hb : b < 2 ^ 64) :
    UInt64.ofNat a < UInt64.ofNat b ↔ a < b := by
  rw [UInt64.lt_iff_toNat_lt, UInt64.toNat_ofNat_of_lt' ha, UInt64.toNat_ofNat_of_lt' hb]

theorem ofNat_inj {a b : Nat} (ha : a < 2 ^ 64) (hb : b < 2 ^ 64)
    (h : UInt64.ofNat a = UInt64.ofNat b) : a = b := by
  rw [← UInt64.toNat_ofNat_of_lt' ha, h, UInt64.toNat_ofNat_of_lt' hb]

theorem Agrees.write {r : WalRecord} {db : Database} (h : Agrees lower net H w)
    (hw : net.primary.Writes lower .done r db) (hs : net.primary.Ships lower r) :
    Agrees lower { net with primary := db } (H ++ [r.payload]) w := by
  obtain ⟨s, base, hnext, hrec⟩ := h.recovers
  obtain ⟨m, ha, hlog⟩ := hw
  have hwithin := h.within
  have hcounted := h.counted
  have hnum : net.primary.nextLsn = UInt64.ofNat (H.length + 1) := by
    simp only [Database.nextLsn, hrec.stored, hnext]
  have hroom : H.length + 2 < 2 ^ 64 := by
    have hne := hs.number
    rw [hnum, ofNat_succ] at hne
    by_contra hge
    have heq : H.length + 1 + 1 = 2 ^ 64 := by omega
    rw [heq] at hne
    exact hne rfl
  have hlt : UInt64.ofNat w < s.wal.nextLsn := by
    rw [hnext]
    exact (ofNat_lt_ofNat (by omega) (by omega)).mpr (by omega)
  have hstored : { net.primary with tables := m }.store = some s := hrec.stored
  have hdb := Database.log_done hstored hlog
  have hrec' := hrec.write ha hlt hs.length hs.keeps
  have happ := append_fileOf hrec.logged r.payload
  have hlsn : (s.wal.append .done r.payload).2.nextLsn = s.wal.nextLsn + 1 := by rw [happ]
  have hdrop : numbered (UInt64.ofNat (w + 1)) (H.drop w) ++ [(s.wal.nextLsn, r.payload)] =
      numbered (UInt64.ofNat (w + 1)) ((H ++ [r.payload]).drop w) := by
    have hstart : UInt64.ofNat (w + 1) + UInt64.ofNat (H.drop w).length = s.wal.nextLsn := by
      rw [hnext, ← UInt64.ofNat_add, List.length_drop]
      congr 1
      omega
    rw [List.drop_append_of_le_length hwithin, numbered_append, hstart]
    rfl
  have hpay := Catalog.applyPayload_payload hrec.sound hs.length hs.keeps ha (1 + UInt64.ofNat H.length)
  refine ⟨⟨_, base, ?_, hdrop ▸ hdb ▸ hrec'⟩, ?_, ?_, ?_, ?_⟩
  · rw [hlsn, hnext, ofNat_succ, List.length_append, List.length_singleton]
  · rw [Catalog.playAll_append, h.played, hdb]
    change Catalog.playAll lower _ net.primary.tables [r.payload] = _
    simp only [Catalog.playAll, numbered, List.foldlM_cons, List.foldlM_nil, hpay]
    rfl
  · rw [List.length_append]
    omega
  · rw [List.length_append, List.length_singleton]
    omega
  · intro lsn hl
    obtain ⟨k, hk, hlk, hplay⟩ := h.follows lsn hl
    exact ⟨k, by rw [List.length_append]; omega, hlk, by rwa [List.take_append_of_le_length hk]⟩

theorem Agrees.snapshot {db : Database} {tables : List Table} {lsn : UInt64}
    (h : Agrees lower net H w) (hl : net.primary.tables.Lists tables)
    (hst : Database.StoresSafely tables) (hs : net.primary.snapshot tables = (.ok lsn, db)) :
    Agrees lower { net with primary := db } H H.length := by
  obtain ⟨s, base, hnext, hrec⟩ := h.recovers
  obtain ⟨bytes, _, hdb, hrec'⟩ := recovers_snapshot hrec.stored hrec.sound hl hst.1 hst.2 hs
  have hcounted := h.counted
  have hmark : s.wal.nextLsn - 1 = UInt64.ofNat H.length := by
    rw [hnext, ← ofNat_succ, UInt64.add_sub_cancel]
  have hreset : s.wal.reset.nextLsn = UInt64.ofNat (H.length + 1) := by rw [reset_file, ← hnext]
  refine ⟨⟨⟨some bytes, none, s.wal.reset⟩, net.primary.tables, hreset, ?_⟩, ?_, le_refl _, hcounted,
    h.follows⟩
  · rw [List.drop_length, ← hmark]
    exact hrec'
  · rw [hdb]
    exact h.played

theorem Agrees.restart {db : Database} {d : Durability} (h : Agrees lower net H w)
    (hk : net.primary.KeepsCount) (ho : Database.openDir lower net.primary.close d = .ok db) :
    Agrees lower { net with primary := db } H w := by
  obtain ⟨s, base, hnext, hrec⟩ := h.recovers
  obtain ⟨htables, hrec'⟩ := hrec.restart ho
  have hwithin := h.within
  have hcounted := h.counted
  have hcount : lsnAfter (numbered (UInt64.ofNat (w + 1)) (H.drop w)) = UInt64.ofNat (H.length + 1) := by
    rcases hrec.next with hnil | hlast
    · have hw : w = H.length := by
        have hlen := congrArg List.length hnil
        rw [numbered_length, List.length_drop] at hlen
        simp only [List.length_nil] at hlen
        omega
      rcases hk with hone | ⟨s', hs', hlong⟩
      · simp only [Database.nextLsn, hrec.stored, hnext] at hone
        have h0 : H.length + 1 = 1 := ofNat_inj hcounted (by decide) hone
        rw [hnil, h0]
        rfl
      · obtain rfl : s = s' := Option.some.inj (hrec.stored.symm.trans hs')
        rw [hrec.logged, hnil] at hlong
        exact absurd hlong (by decide)
    · rw [← hlast, hnext]
  refine ⟨⟨_, base, hcount, hrec'⟩, ?_, hwithin, hcounted, h.follows⟩
  rw [htables]
  exact h.played

theorem Agrees.bootstrap {replica : Database} {tables : List Table} {lsn : UInt64}
    (h : Agrees lower net H w) (hl : net.primary.tables.Lists tables)
    (hst : Database.StoresSafely tables)
    (hb : net.replica.bootstrap lower (net.primary.snapshotBytes tables) = (.ok lsn, replica)) :
    Agrees lower { net with replica := replica, applied := some lsn } H w := by
  obtain ⟨s, base, hnext, hrec⟩ := h.recovers
  have hinv : ∀ t ∈ tables, t.Inv := by
    intro t ht
    obtain ⟨k, hk⟩ := (Catalog.lists_mem hl t).mp ht
    exact (hrec.sound.shaped k t hk).inv (hst.1 t ht)
  obtain ⟨bytes, henc, hdec⟩ := decodeSnapshot_encodeSnapshot net.primary.frozenLsn hinv hst.2
  have hmark : net.primary.frozenLsn = UInt64.ofNat H.length := by
    simp only [Database.frozenLsn, hrec.stored]
    rw [hnext, ← ofNat_succ, UInt64.add_sub_cancel]
  simp only [Database.bootstrap, Database.snapshotBytes, henc, withContext_ok,
    Database.loadSnapshotBytes, hdec, Prod.mk.injEq, Except.ok.injEq] at hb
  obtain ⟨rfl, rfl⟩ := hb
  refine ⟨⟨s, base, hnext, hrec⟩, h.played, h.within, h.counted, fun lsn hlsn => ?_⟩
  refine ⟨H.length, le_refl _, ?_, ?_⟩
  · rw [← Option.some.inj hlsn, hmark]
  · rw [List.take_length, Catalog.ofTables_eq hrec.sound.keyed hl]
    exact h.played

theorem Agrees.walSince (h : Agrees lower net H w) (after : UInt64) :
    net.primary.walSince after = (.ok ((numbered (UInt64.ofNat (w + 1)) (H.drop w)).filter
      (fun r => after < r.1)), net.primary) := by
  obtain ⟨s, base, hnext, hrec⟩ := h.recovers
  have hopen := openFile_fileOf hrec.payloads s.wal.durability
  rw [← hrec.logged] at hopen
  have hafter : s.wal.recordsAfter after = (.ok ((numbered (UInt64.ofNat (w + 1)) (H.drop w)).filter
      (fun r => after < r.1)), s.wal) := by
    simp only [Wal.recordsAfter, hopen]
  have hdb : { net.primary with store := some s } = net.primary := by rw [← hrec.stored]
  simp only [Database.walSince, hrec.stored, hafter]
  rw [hdb]

theorem Agrees.wal (h : Agrees lower net H w) (after : UInt64) :
    net.primary.wal after = (.ok ⟨some (replyOf ((numbered (UInt64.ofNat (w + 1)) (H.drop w)).filter
      (fun r => after < r.1)))⟩, net.primary) := by
  simp only [Database.wal, h.walSince]
  rfl

/-- A pull from number `k`. Where the log reaches back to `k` the replica comes to the end of
the history; where it does not, the pull fails if there is anything in the log to see it by. -/
theorem Agrees.poll {k : Nat} (h : Agrees lower net H w) (hk : k ≤ H.length)
    (hplay : Catalog.playAll lower 1 ∅ (H.take k) = .ok net.replica.tables) :
    (w ≤ k ∧ ∃ n, net.replica.pullOnce lower (net.primary.wal (UInt64.ofNat k)).1 (UInt64.ofNat k) =
        (.ok (UInt64.ofNat H.length, n), { net.replica with tables := net.primary.tables })) ∨
      (k < w ∧ w < H.length ∧ ∃ e, net.replica.pullOnce lower (net.primary.wal (UInt64.ofNat k)).1
        (UInt64.ofNat k) = (.error e, net.replica) ∧ e.isGap = true) ∨
      (k < w ∧ w = H.length ∧ net.replica.pullOnce lower (net.primary.wal (UInt64.ofNat k)).1
        (UInt64.ofNat k) = (.ok (UInt64.ofNat k, 0), net.replica)) := by
  have hwithin := h.within
  have hcounted := h.counted
  rw [h.wal]
  by_cases hw : w ≤ k
  · have hrest : Catalog.playAll lower (UInt64.ofNat k + 1) net.replica.tables (H.drop k) =
        .ok net.primary.tables := by
      have hwhole := h.played
      rw [← List.take_append_drop k H, Catalog.playAll_append, hplay, List.length_take,
        Nat.min_eq_left hk, UInt64.add_comm] at hwhole
      exact hwhole
    have hpull := pullRecords_numbered _ 0 hrest
    have hlast : UInt64.ofNat k + UInt64.ofNat (H.drop k).length = UInt64.ofNat H.length := by
      rw [← UInt64.ofNat_add, List.length_drop]
      congr 1
      omega
    rw [hlast, ofNat_succ] at hpull
    refine .inl ⟨hw, 0 + (H.drop k).length, ?_⟩
    rw [filter_numbered hw hk hcounted]
    simp only [Database.pullOnce, hpull]
  · have hkw : k < w := by omega
    refine .inr ?_
    cases hd : H.drop w with
    | nil => exact .inr ⟨hkw, le_antisymm hwithin (List.drop_eq_nil_iff.mp hd), rfl⟩
    | cons p ps =>
      have hlen := congrArg List.length hd
      rw [List.length_drop, List.length_cons] at hlen
      have hfirst : UInt64.ofNat k < UInt64.ofNat (w + 1) :=
        (ofNat_lt_ofNat (by omega) (by omega)).mpr (by omega)
      have hgap : UInt64.ofNat (w + 1) ≠ UInt64.ofNat k + 1 := by
        intro he
        rw [ofNat_succ] at he
        have := ofNat_inj (by omega) (by omega) he
        omega
      have hhead : (numbered (UInt64.ofNat (w + 1)) (p :: ps)).filter (fun r => UInt64.ofNat k < r.1) =
          (UInt64.ofNat (w + 1), p) :: (numbered (UInt64.ofNat (w + 1) + 1) ps).filter
            (fun r => UInt64.ofNat k < r.1) := by
        rw [numbered, List.filter_cons_of_pos (by simpa using hfirst)]
      obtain ⟨e, he, hisGap⟩ := pullRecords_gap lower net.replica.tables 0 hgap p
        ((numbered (UInt64.ofNat (w + 1) + 1) ps).filter (fun r => UInt64.ofNat k < r.1))
      exact .inl ⟨hkw, by omega, e, by simp only [hhead, Database.pullOnce, he], hisGap⟩

/-- A pull that does not bring the replica to the end of the history does nothing. -/
theorem Agrees.pull {k : Nat} (h : Agrees lower net H w) (hk : k ≤ H.length)
    (hplay : Catalog.playAll lower 1 ∅ (H.take k) = .ok net.replica.tables) :
    (∃ n, net.replica.pullOnce lower (net.primary.wal (UInt64.ofNat k)).1 (UInt64.ofNat k) =
        (.ok (UInt64.ofNat H.length, n), { net.replica with tables := net.primary.tables })) ∨
      ∃ r, net.replica.pullOnce lower (net.primary.wal (UInt64.ofNat k)).1 (UInt64.ofNat k) =
        (r, net.replica) ∧ ∀ lsn n, r = .ok (lsn, n) → lsn = UInt64.ofNat k := by
  rcases h.poll hk hplay with ⟨-, hok⟩ | ⟨-, -, e, he, -⟩ | ⟨-, -, hsame⟩
  · exact .inl hok
  · exact .inr ⟨.error e, he, by simp⟩
  · refine .inr ⟨.ok (UInt64.ofNat k, 0), hsame, ?_⟩
    intro lsn n hr
    exact (Prod.mk.inj (Except.ok.inj hr)).1.symm

theorem bootstrap_error {db db' : Database} {reply : Exec Bytes} {e : Fault}
    (h : db.bootstrap lower reply = (.error e, db')) : db' = db := by
  unfold Database.bootstrap at h
  split at h
  · exact (Prod.mk.inj h).2.symm
  · unfold Database.loadSnapshotBytes at h
    split at h
    · exact (Prod.mk.inj h).2.symm
    · cases (Prod.mk.inj h).1

theorem Agrees.exec {net' : Net} {op : NetOp} (h : Agrees lower net H w) (hs : op.Safe lower net)
    (he : op.exec lower net = some net') : ∃ H' w', Agrees lower net' H' w' := by
  cases op with
  | call op =>
    obtain ⟨db, hdb, rfl⟩ := Option.map_eq_some_iff.mp he
    rcases Op.exec_cases hdb with ⟨r, hrec, hw⟩ | ⟨_, _, _, rfl⟩ | ⟨tables, lsn, rfl, hl, hsnap⟩ |
      ⟨d, rfl, hopen⟩
    · have hship : net.primary.Ships lower r := by
        cases op with
        | createTable name schema => exact hs r hrec
        | dropTable name => exact hs r hrec
        | insertRows name rows => exact hs r hrec
        | snapshot tables => cases hrec
        | restart d => cases hrec
      exact ⟨_, _, h.write hw hship⟩
    · exact ⟨H, w, h⟩
    · exact ⟨_, _, h.snapshot hl hs hsnap⟩
    · exact ⟨_, _, h.restart hs hopen⟩
  | bootstrap tables =>
    simp only [NetOp.exec] at he
    split at he
    · next hl =>
      split at he
      · next lsn db hb =>
        obtain rfl := Option.some.inj he
        exact ⟨_, _, h.bootstrap hl hs hb⟩
      · next e db hb =>
        obtain rfl := Option.some.inj he
        exact ⟨H, w, bootstrap_error hb ▸ h⟩
    · cases he
  | pull =>
    simp only [NetOp.exec] at he
    cases happ : net.applied with
    | none => simp [happ] at he
    | some lsn =>
      obtain ⟨k, hk, rfl, hplay⟩ := h.follows lsn happ
      have hprimary : (net.primary.wal (UInt64.ofNat k)).2 = net.primary := by rw [h.wal]
      simp only [happ, hprimary] at he
      rcases h.pull hk hplay with ⟨n, hpull⟩ | ⟨r, hpull, hsame⟩
      · simp only [hpull] at he
        obtain rfl := Option.some.inj he
        refine ⟨H, w, h.recovers, h.played, h.within, h.counted, fun lsn hl => ?_⟩
        refine ⟨H.length, le_refl _, (Option.some.inj hl).symm, ?_⟩
        rw [List.take_length]
        exact h.played
      · have hnet : net' = { net with applied := some (UInt64.ofNat k) } := by
          simp only [hpull] at he
          cases r with
          | ok res =>
            obtain ⟨lsn, n⟩ := res
            obtain rfl := hsame lsn n rfl
            exact (Option.some.inj he).symm
          | error e => exact (Option.some.inj he).symm
        rw [hnet, ← happ]
        exact ⟨H, w, h⟩

theorem Agrees.runFrom {net' : Net} {ops : List NetOp} (h : Agrees lower net H w)
    (hs : NetSafeFrom lower net ops) (hrun : netRunFrom lower net ops = some net') :
    ∃ H' w', Agrees lower net' H' w' := by
  induction ops generalizing net H w with
  | nil =>
    obtain rfl := Option.some.inj hrun
    exact ⟨H, w, h⟩
  | cons op ops ih =>
    obtain ⟨hop, hops⟩ := hs
    rw [netRunFrom, List.foldlM_cons] at hrun
    cases he : op.exec lower net with
    | none => simp [he] at hrun
    | some net₁ =>
      rw [he] at hrun
      obtain ⟨H₁, w₁, h₁⟩ := h.exec hop he
      exact ih h₁ (hops net₁ he) hrun

end

/-- After a safe run a replica that reports the primary's last number has the
primary's tables. -/
theorem replica_agrees (lower : String → String) (d : Durability) (net net' : Net) (ops : List NetOp)
    (lsn : UInt64) (hstart : net.Starts lower d) (hs : NetSafeFrom lower net ops)
    (hrun : netRunFrom lower net ops = some net') (happ : net'.applied = some lsn)
    (hnext : net'.primary.nextLsn = lsn + 1) : net'.replica.tables = net'.primary.tables := by
  obtain ⟨H, w, h⟩ := (Agrees.starts hstart).runFrom hs hrun
  obtain ⟨k, hk, rfl, hplay⟩ := h.follows lsn happ
  obtain ⟨s, base, hcount, hrec⟩ := h.recovers
  have hcounted := h.counted
  simp only [Database.nextLsn, hrec.stored, hcount, ofNat_succ] at hnext
  have hkH : H.length = k := Nat.succ.inj (ofNat_inj hcounted (by omega) hnext)
  rw [← hkH, List.take_length, h.played] at hplay
  exact (Except.ok.inj hplay).symm

def freshNet : Net :=
  ⟨⟨∅, some ⟨none, none, ⟨fileOf [], 1, .fsync⟩⟩, false, 0⟩, Database.new, none⟩

def catchUp : List NetOp :=
  [.call (.createTable "t" ⟨[⟨"x", .i64⟩]⟩), .bootstrap [intsWith []],
    .call (.insertRows "t" [[.i64 1]]), .pull, .call (.snapshot [intsWith [1]]),
    .call (.insertRows "t" [[.i64 2]]), .call (.restart .fsync), .pull]

theorem replica_agrees_catchUp :
    ∃ net', netRunFrom id freshNet catchUp = some net' ∧ net'.applied = some 3 ∧
      net'.replica.tables = net'.primary.tables := by
  have hends : (netRunFrom id freshNet catchUp).isSome = true ∧
      ∀ net' ∈ netRunFrom id freshNet catchUp,
        net'.applied = some 3 ∧ net'.primary.nextLsn = 3 + 1 := by decide +kernel
  obtain ⟨net', hrun⟩ := Option.isSome_iff_exists.mp hends.1
  obtain ⟨happ, hnext⟩ := hends.2 net' hrun
  have hstart : freshNet.Starts id .fsync := ⟨by decide +kernel, nofun⟩
  exact ⟨net', hrun, happ,
    replica_agrees id .fsync freshNet net' catchUp 3 hstart (by decide +kernel) hrun happ hnext⟩

/-- Snapshot, restart, write: the number of the write is one the replica already has. -/
def reusedNumber : List NetOp :=
  [.call (.createTable "t" ⟨[⟨"x", .i64⟩]⟩), .bootstrap [intsWith []],
    .call (.snapshot [intsWith []]), .call (.restart .fsync), .call (.insertRows "t" [[.i64 1]]), .pull]

theorem replica_diverges :
    ∃ net', freshNet.Starts id .fsync ∧ netRunFrom id freshNet reusedNumber = some net' ∧
      net'.applied = some 1 ∧ net'.primary.nextLsn = 1 + 1 ∧
      net'.primary.tables.lookup "t" = some (intsWith [1]) ∧
      net'.replica.tables.lookup "t" = some (intsWith []) := by
  have hends : (netRunFrom id freshNet reusedNumber).isSome = true ∧
      ∀ net' ∈ netRunFrom id freshNet reusedNumber,
        net'.applied = some 1 ∧ net'.primary.nextLsn = 1 + 1 ∧
          net'.primary.tables.lookup "t" = some (intsWith [1]) ∧
          net'.replica.tables.lookup "t" = some (intsWith []) := by decide +kernel
  obtain ⟨net', hrun⟩ := Option.isSome_iff_exists.mp hends.1
  exact ⟨net', ⟨by decide +kernel, nofun⟩, hrun, hends.2 net' hrun⟩

end Veldb
