import Veldb.ReplicaAgreement

/-! The loop of a replica under any answers. A pull changes the tables record by
record and reports its progress only at the end. -/

namespace Veldb

open Wal

variable {lower : String → String}

/-- The body of the loop of `pull_once`, for the record behind number `lsn`. -/
def takeRecord (lower : String → String) (m : Catalog) (lsn : UInt64) (rec : ReplyRecord) :
    Exec Unit × Catalog :=
  match Database.pullRecords lower m lsn 0 [rec] with
  | (.ok _, m') => (.ok (), m')
  | (.error e, m') => (.error e, m')

/-- The records follow number `lsn` one by one and take the catalog to the last one. -/
def TakesAll (lower : String → String) : Catalog → UInt64 → List ReplyRecord → Catalog → Prop
  | m, _, [], m' => m' = m
  | m, lsn, rec :: rs, m' =>
    ∃ m₁, takeRecord lower m lsn rec = (.ok (), m₁) ∧ TakesAll lower m₁ (lsn + 1) rs m'

theorem pullRecords_cons (lower : String → String) (m : Catalog) (lsn : UInt64) (n : Nat)
    (rec : ReplyRecord) (rs : List ReplyRecord) :
    (∃ m', takeRecord lower m lsn rec = (.ok (), m') ∧
      Database.pullRecords lower m lsn n (rec :: rs) =
        Database.pullRecords lower m' (lsn + 1) (n + 1) rs) ∨
    ∃ e m', takeRecord lower m lsn rec = (.error e, m') ∧
      Database.pullRecords lower m lsn n (rec :: rs) = (.error e, m') := by
  simp only [takeRecord, Database.pullRecords]
  cases hlsn : rec.lsn with
  | none => exact .inr ⟨_, _, rfl, rfl⟩
  | some l =>
    by_cases hl : l ≠ lsn + 1
    · simp only [if_pos hl]
      exact .inr ⟨_, _, rfl, rfl⟩
    · obtain rfl : l = lsn + 1 := not_not.mp hl
      simp only [if_neg hl]
      cases hpay : rec.payload with
      | none => exact .inr ⟨_, _, rfl, rfl⟩
      | some text =>
        cases hhex : unhex text with
        | error e =>
          simp only [hhex]
          exact .inr ⟨_, _, rfl, rfl⟩
        | ok p =>
          simp only [hhex]
          cases hdec : withContext s!"разбор записи lsn={(lsn + 1).toNat}"
              (WalRecord.decode p (m.schemaOf lower)) with
          | error e => exact .inr ⟨_, _, rfl, rfl⟩
          | ok r =>
            rcases happ : m.apply lower r with ⟨e | u, m'⟩
            · simp only [happ]
              cases e with
              | bail msg => exact .inr ⟨_, m', rfl, rfl⟩
              | crash place => exact .inr ⟨_, m', rfl, rfl⟩
            · simp only [happ]
              exact .inl ⟨m', rfl, rfl⟩

theorem pullRecords_all {m m' : Catalog} {lsn : UInt64} {rs : List ReplyRecord} (n : Nat)
    (rest : List ReplyRecord) (h : TakesAll lower m lsn rs m') :
    Database.pullRecords lower m lsn n (rs ++ rest) =
      Database.pullRecords lower m' (lsn + UInt64.ofNat rs.length) (n + rs.length) rest := by
  induction rs generalizing m lsn n with
  | nil =>
    obtain rfl : m' = m := h
    simp
  | cons rec rs ih =>
    obtain ⟨m₁, htake, hrest⟩ := h
    rcases pullRecords_cons lower m lsn n rec (rs ++ rest) with ⟨m₂, htake', hpull⟩ | ⟨e, m₂, htake', -⟩
    · obtain rfl := (Prod.mk.inj (htake.symm.trans htake')).2
      have hl : lsn + 1 + UInt64.ofNat rs.length = lsn + UInt64.ofNat (rec :: rs).length := by
        rw [List.length_cons, ← ofNat_succ, UInt64.add_assoc, UInt64.add_comm 1]
      rw [List.cons_append, hpull, ih (n + 1) hrest, hl, List.length_cons,
        show n + 1 + rs.length = n + (rs.length + 1) by omega]
    · cases (Prod.mk.inj (htake.symm.trans htake')).1

/-- A pull takes its whole batch, or stops at the first record that cannot be taken. -/
theorem pullRecords_cases (lower : String → String) (m : Catalog) (lsn : UInt64)
    (records : List ReplyRecord) :
    (∃ m', TakesAll lower m lsn records m' ∧ ∀ n, Database.pullRecords lower m lsn n records =
        (.ok (lsn + UInt64.ofNat records.length, n + records.length), m')) ∨
      ∃ good bad rest m' e m'', records = good ++ bad :: rest ∧ TakesAll lower m lsn good m' ∧
        takeRecord lower m' (lsn + UInt64.ofNat good.length) bad = (.error e, m'') ∧
        ∀ n, Database.pullRecords lower m lsn n records = (.error e, m'') := by
  induction records generalizing m lsn with
  | nil => exact .inl ⟨m, rfl, fun n => by simp [Database.pullRecords]⟩
  | cons rec rs ih =>
    have hl : ∀ k : Nat, lsn + 1 + UInt64.ofNat k = lsn + UInt64.ofNat (k + 1) := by
      intro k
      rw [← ofNat_succ, UInt64.add_assoc, UInt64.add_comm 1]
    rcases htake : takeRecord lower m lsn rec with ⟨e | u, m₁⟩
    · refine .inr ⟨[], rec, rs, m, e, m₁, rfl, rfl, by simpa using htake, fun n => ?_⟩
      rcases pullRecords_cons lower m lsn n rec rs with ⟨m₂, htake', -⟩ | ⟨e', m₂, htake', hpull⟩
      · cases (Prod.mk.inj (htake.symm.trans htake')).1
      · obtain ⟨he, rfl⟩ := Prod.mk.inj (htake.symm.trans htake')
        rw [hpull, Except.error.inj he]
    · have hstep : ∀ n, Database.pullRecords lower m lsn n (rec :: rs) =
          Database.pullRecords lower m₁ (lsn + 1) (n + 1) rs := by
        intro n
        rcases pullRecords_cons lower m lsn n rec rs with ⟨m₂, htake', hpull⟩ | ⟨e', m₂, htake', -⟩
        · rw [hpull, (Prod.mk.inj (htake.symm.trans htake')).2]
        · cases (Prod.mk.inj (htake.symm.trans htake')).1
      rcases ih m₁ (lsn + 1) with ⟨m', hall, hpull⟩ | ⟨good, bad, rest, m', e, m'', rfl, hall, hbad, hpull⟩
      · refine .inl ⟨m', ⟨m₁, htake, hall⟩, fun n => ?_⟩
        rw [hstep, hpull, hl, List.length_cons, show n + 1 + rs.length = n + (rs.length + 1) by omega]
      · refine .inr ⟨rec :: good, bad, rest, m', e, m'', rfl, ⟨m₁, htake, hall⟩, ?_, fun n => ?_⟩
        · rw [hl] at hbad
          exact hbad
        · rw [hstep, hpull]

theorem TakesAll.unique {m m₁ m₂ : Catalog} {lsn : UInt64} {rs : List ReplyRecord}
    (h₁ : TakesAll lower m lsn rs m₁) (h₂ : TakesAll lower m lsn rs m₂) : m₁ = m₂ := by
  induction rs generalizing m lsn with
  | nil => exact h₁.trans h₂.symm
  | cons rec rs ih =>
    obtain ⟨a, ha, h₁⟩ := h₁
    obtain ⟨b, hb, h₂⟩ := h₂
    obtain rfl := (Prod.mk.inj (ha.symm.trans hb)).2
    exact ih h₁ h₂

theorem TakesAll.append {m m₁ m₂ : Catalog} {lsn : UInt64} {rs ss : List ReplyRecord}
    (h₁ : TakesAll lower m lsn rs m₁)
    (h₂ : TakesAll lower m₁ (lsn + UInt64.ofNat rs.length) ss m₂) :
    TakesAll lower m lsn (rs ++ ss) m₂ := by
  induction rs generalizing m lsn with
  | nil =>
    obtain rfl : m₁ = m := h₁
    simpa using h₂
  | cons rec rs ih =>
    obtain ⟨a, ha, h₁⟩ := h₁
    have hl : lsn + 1 + UInt64.ofNat rs.length = lsn + UInt64.ofNat (rec :: rs).length := by
      rw [List.length_cons, ← ofNat_succ, UInt64.add_assoc, UInt64.add_comm 1]
    exact ⟨a, ha, ih h₁ (hl ▸ h₂)⟩

/-- What is taken of a batch before the record that stops it leaves the tables as they were;
an error with the text of a gap does not matter. -/
def Unharmed (lower : String → String) (m : Catalog) (lsn : UInt64) (reply : Exec WalReply) : Prop :=
  ∀ records good bad rest m' msg m'', reply = .ok ⟨some records⟩ → records = good ++ bad :: rest →
    TakesAll lower m lsn good m' →
    takeRecord lower m' (lsn + UInt64.ofNat good.length) bad = (.error (.bail msg), m'') →
    (Fault.bail msg).isGap = false → m'' = m

theorem takeRecord_error {m m' : Catalog} {lsn : UInt64} {rec : ReplyRecord} {e : Fault}
    (rest : List ReplyRecord) (n : Nat) (h : takeRecord lower m lsn rec = (.error e, m')) :
    Database.pullRecords lower m lsn n (rec :: rest) = (.error e, m') := by
  rcases pullRecords_cons lower m lsn n rec rest with ⟨m₂, htake, -⟩ | ⟨e', m₂, htake, hpull⟩
  · cases (Prod.mk.inj (h.symm.trans htake)).1
  · obtain ⟨he, rfl⟩ := Prod.mk.inj (h.symm.trans htake)
    rw [hpull, Except.error.inj he]

theorem unharmed_iff {db : Database} {lsn : UInt64} {reply : Exec WalReply} :
    Unharmed lower db.tables lsn reply ↔
      ∀ msg db', db.pullOnce lower reply lsn = (.error (.bail msg), db') →
        (Fault.bail msg).isGap = false → db'.tables = db.tables := by
  constructor
  · intro h msg db' hpull hgap
    unfold Database.pullOnce at hpull
    split at hpull
    · rw [← (Prod.mk.inj hpull).2]
    · rw [← (Prod.mk.inj hpull).2]
    · next records =>
      obtain ⟨hres, rfl⟩ := Prod.mk.inj hpull
      rcases pullRecords_cases lower db.tables lsn records with
        ⟨m', -, hok⟩ | ⟨good, bad, rest, m', e, m'', hsplit, hall, hbad, herr⟩
      · rw [hok] at hres
        cases hres
      · rw [herr] at hres ⊢
        obtain rfl := Except.error.inj hres
        exact h records good bad rest m' msg m'' rfl hsplit hall hbad hgap
  · intro h records good bad rest m' msg m'' hreply hsplit hall hbad hgap
    subst hreply hsplit
    have hpull := pullRecords_all 0 (bad :: rest) hall
    rw [takeRecord_error rest _ hbad] at hpull
    refine h msg { db with tables := m'' } ?_ hgap
    simp only [Database.pullOnce, hpull]

/-- The snapshot the replica started from and the records counted since. -/
structure Ledger where
  base : Catalog
  start : UInt64
  taken : List ReplyRecord

namespace Ledger

/-- A follower that reports a number has the snapshot and the records up to it, once each and
in order. -/
def Shows (lower : String → String) (L : Ledger) (s : Follower) : Prop :=
  ∀ l, s.applied = some l → l = L.start + UInt64.ofNat L.taken.length ∧
    TakesAll lower L.base L.start L.taken s.db.tables

/-- The snapshot of an iteration that needs one. -/
def loaded (L : Ledger) (s : Follower) (l : UInt64) (db : Database) : Ledger :=
  if s.applied = none then ⟨db.tables, l, []⟩ else L

/-- A pull counts when it returns `Ok`. -/
def counted (L : Ledger) (reply : Exec WalReply) (pulled : Exec (UInt64 × Nat)) : Ledger :=
  match pulled, reply with
  | .ok _, .ok ⟨some records⟩ => { L with taken := L.taken ++ records }
  | _, _ => L

def next (lower : String → String) (L : Ledger) (s : Follower) (snapshot : Exec Bytes)
    (reply : Exec WalReply) : Ledger :=
  match s.pullFrom lower snapshot with
  | (.error _, _) => L
  | (.ok l, db) => (L.loaded s l db).counted reply (db.pullOnce lower reply l).1

end Ledger

theorem Ledger.Shows.pullFrom {L : Ledger} {s : Follower} {snapshot : Exec Bytes} {l : UInt64}
    {db : Database} (h : L.Shows lower s) (hp : s.pullFrom lower snapshot = (.ok l, db)) :
    (L.loaded s l db).Shows lower ⟨db, some l⟩ := by
  intro l' hl'
  obtain rfl := Option.some.inj hl'
  unfold Follower.pullFrom at hp
  cases happ : s.applied with
  | none =>
    rw [Ledger.loaded, if_pos happ]
    exact ⟨by simp, rfl⟩
  | some k =>
    rw [happ] at hp
    obtain ⟨hk, rfl⟩ := Prod.mk.inj hp
    obtain rfl := Except.ok.inj hk
    rw [Ledger.loaded, if_neg (by simp [happ])]
    exact h k happ

theorem Ledger.Shows.counted {L : Ledger} {db db' : Database} {l lsn : UInt64} {n : Nat}
    {reply : Exec WalReply} (h : L.Shows lower ⟨db, some l⟩)
    (hpull : db.pullOnce lower reply l = (.ok (lsn, n), db')) :
    (L.counted reply (.ok (lsn, n))).Shows lower ⟨db', some lsn⟩ := by
  intro l' hl'
  obtain rfl := Option.some.inj hl'
  unfold Database.pullOnce at hpull
  split at hpull
  · cases (Prod.mk.inj hpull).1
  · cases (Prod.mk.inj hpull).1
  · next records =>
    obtain ⟨hres, rfl⟩ := Prod.mk.inj hpull
    obtain ⟨hl, htakes⟩ := h l rfl
    rcases pullRecords_cases lower db.tables l records with
      ⟨m', hall, hok⟩ | ⟨good, bad, rest, m', e, m'', -, -, -, herr⟩
    · rw [hok] at hres ⊢
      obtain ⟨rfl, -⟩ := Prod.mk.inj (Except.ok.inj hres)
      refine ⟨?_, htakes.append (hl ▸ hall)⟩
      simp only [Ledger.counted, List.length_append, UInt64.ofNat_add]
      rw [← UInt64.add_assoc, ← hl]
    · rw [herr] at hres
      cases hres

/-- One iteration keeps the ledger right exactly when a batch cut short does no harm. -/
theorem Ledger.Shows.follow {L : Ledger} {s s' : Follower} {snapshot : Exec Bytes}
    {reply : Exec WalReply} (h : L.Shows lower s) (hs : s.follow lower snapshot reply = some s') :
    (L.next lower s snapshot reply).Shows lower s' ↔
      ∀ l db, s.pullFrom lower snapshot = (.ok l, db) → Unharmed lower db.tables l reply := by
  unfold Follower.follow at hs
  rcases hp : s.pullFrom lower snapshot with ⟨e | l, db⟩
  · rw [hp] at hs
    cases e with
    | crash place => cases hs
    | bail msg =>
      obtain rfl := Option.some.inj hs
      refine iff_of_true (fun l hl => ?_) (fun l db' hok => ?_)
      · simp at hl
      · cases (Prod.mk.inj hok).1
  · have hload := h.pullFrom hp
    have hcond : (∀ l' db', (Except.ok l, db) = ((.ok l', db') : Exec UInt64 × Database) →
        Unharmed lower db'.tables l' reply) ↔ Unharmed lower db.tables l reply := by
      constructor
      · intro hall
        exact hall l db rfl
      · intro hone l' db' he
        obtain ⟨hl, rfl⟩ := Prod.mk.inj he
        rwa [← Except.ok.inj hl]
    rw [hcond, unharmed_iff, Ledger.next, hp]
    simp only [hp] at hs ⊢
    rcases hpull : db.pullOnce lower reply l with ⟨e | ⟨lsn, n⟩, db'⟩
    · rw [hpull] at hs
      cases e with
      | crash place => cases hs
      | bail msg =>
        obtain rfl := Option.some.inj hs
        cases hgap : (Fault.bail msg).isGap with
        | true =>
          refine iff_of_true (fun l hl => ?_) (fun msg' db'' he hnot => ?_)
          · simp at hl
          · rw [(Fault.bail.inj (Except.error.inj (Prod.mk.inj he).1)), hnot] at hgap
            cases hgap
        | false =>
          constructor
          · intro hshow msg' db'' he _
            obtain ⟨-, rfl⟩ := Prod.mk.inj he
            obtain ⟨-, htakes⟩ := hshow l (by simp)
            exact htakes.unique (hload l rfl).2
          · intro hkeep l' hl'
            obtain rfl : l = l' := by simpa [hgap] using hl'
            have hsame := hkeep msg db' rfl hgap
            obtain ⟨hl, htakes⟩ := hload l rfl
            exact ⟨hl, hsame ▸ htakes⟩
    · rw [hpull] at hs
      obtain rfl := Option.some.inj hs
      refine iff_of_true (hload.counted hpull) (fun msg db'' he => ?_)
      cases (Prod.mk.inj he).1

/-- At the head of every iteration the ledger shows what the replica has. -/
def Steady (lower : String → String) :
    Ledger → Follower → List (Exec Bytes × Exec WalReply) → Prop
  | L, s, [] => L.Shows lower s
  | L, s, (snapshot, reply) :: answers =>
    L.Shows lower s ∧ ∀ s' ∈ s.follow lower snapshot reply,
      Steady lower (L.next lower s snapshot reply) s' answers

/-- In no iteration does a batch that is cut short change the tables. -/
def UnharmedRun (lower : String → String) : Follower → List (Exec Bytes × Exec WalReply) → Prop
  | _, [] => True
  | s, (snapshot, reply) :: answers =>
    (s.follow lower snapshot reply ≠ none →
      ∀ l db, s.pullFrom lower snapshot = (.ok l, db) → Unharmed lower db.tables l reply) ∧
    ∀ s' ∈ s.follow lower snapshot reply, UnharmedRun lower s' answers

theorem steady_of_shows {L : Ledger} {s : Follower} {answers : List (Exec Bytes × Exec WalReply)}
    (h : L.Shows lower s) : Steady lower L s answers ↔ UnharmedRun lower s answers := by
  induction answers generalizing L s with
  | nil => exact iff_of_true h trivial
  | cons answer answers ih =>
    obtain ⟨snapshot, reply⟩ := answer
    rw [Steady, UnharmedRun]
    cases hs : s.follow lower snapshot reply with
    | none => simp [h]
    | some s' =>
      have hstep := h.follow hs
      simp only [Option.mem_def, Option.some.injEq, forall_eq', ne_eq, not_false_eq_true,
        reduceCtorEq, forall_const]
      constructor
      · intro ⟨_, hrest⟩
        have hnext : (L.next lower s snapshot reply).Shows lower s' := by
          cases answers with
          | nil => exact hrest
          | cons answer answers => exact hrest.1
        exact ⟨hstep.mp hnext, (ih hnext).mp hrest⟩
      · intro ⟨hone, hrest⟩
        have hnext := hstep.mpr hone
        exact ⟨h, (ih hnext).mpr hrest⟩

end Veldb
