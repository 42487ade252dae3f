import Veldb.Library.Attempts
import Veldb.Library.Reads

/-! Readers that take notes on the way, and the rules for readers that fail well and meet their
notes exactly when the notes are small, and that read what is written of their results exactly
when the notes are right. -/

namespace Reads

open Attempts

variable {β ε δ α γ : Type}

/-- A reader with the notes it takes on a byte string, as far as it comes. -/
structure Traced (β ε δ α : Type) where
  run : Reader β ε α
  notes : List β → List δ

namespace Traced

/-- The notes of what follows a successful read. -/
def after (r : Except ε (α × List β)) (next : α → List β → List δ) : List δ :=
  match r with
  | .ok (a, rest) => next a rest
  | .error _ => []

instance : Monad (Traced β ε δ) where
  pure a := ⟨pure a, fun _ => []⟩
  bind p f := ⟨p.run >>= fun a => (f a).run,
    fun bs => p.notes bs ++ after (p.run bs) fun a => (f a).notes⟩

def ofReader (p : Reader β ε α) : Traced β ε δ α :=
  ⟨p, fun _ => []⟩

/-- A note about the bytes still unread. -/
def note (d : List β → δ) : Traced β ε δ Unit :=
  ⟨pure (), fun bs => [d bs]⟩

def times (p : Traced β ε δ α) : Nat → Traced β ε δ (List α)
  | 0 => pure []
  | n + 1 => do
    let x ← p
    let xs ← times p n
    return x :: xs

def each (p : γ → Traced β ε δ α) : List γ → Traced β ε δ (List α)
  | [] => pure []
  | c :: cs => do
    let x ← p c
    let xs ← each p cs
    return x :: xs

@[simp] theorem run_pure (a : α) : (pure a : Traced β ε δ α).run = pure a := rfl

@[simp] theorem run_bind (p : Traced β ε δ α) (f : α → Traced β ε δ γ) :
    (p >>= f).run = p.run >>= fun a => (f a).run := rfl

@[simp] theorem run_ofReader (p : Reader β ε α) : (ofReader p : Traced β ε δ α).run = p := rfl

@[simp] theorem run_note (d : List β → δ) : (note d : Traced β ε δ Unit).run = pure () := rfl

@[simp] theorem run_ite (c : Prop) [Decidable c] (p q : Traced β ε δ α) :
    (if c then p else q).run = if c then p.run else q.run :=
  apply_ite run c p q

@[simp] theorem run_map (f : α → γ) (p : Traced β ε δ α) : (f <$> p).run = f <$> p.run :=
  bind_pure_comp f p.run

@[simp] theorem run_times (p : Traced β ε δ α) (n : Nat) : (times p n).run = Reads.times p.run n := by
  induction n with
  | zero => rfl
  | succ n ih => simp only [times, Reads.times, run_bind, run_pure, ih]

@[simp] theorem run_each (p : γ → Traced β ε δ α) (cs : List γ) :
    (each p cs).run = Reads.each (fun c => (p c).run) cs := by
  induction cs with
  | nil => rfl
  | cons c cs ih => simp only [each, Reads.each, run_bind, run_pure, ih]

theorem run_bind_ok {p : Traced β ε δ α} {f : α → Traced β ε δ γ} {bs rest : List β} {c : γ}
    (h : (p >>= f).run bs = .ok (c, rest)) :
    ∃ a left, p.run bs = .ok (a, left) ∧ (f a).run left = .ok (c, rest) :=
  bind_ok h

theorem notes_bind {p : Traced β ε δ α} {f : α → Traced β ε δ γ} {bs : List β} {x : α × List β}
    (hx : p.run bs = .ok x) : (p >>= f).notes bs = p.notes bs ++ (f x.1).notes x.2 := by
  change p.notes bs ++ after (p.run bs) (fun a => (f a).notes) = _
  rw [hx]
  rfl

theorem run_note_bind (d : List β → δ) (p : Traced β ε δ α) (bs : List β) :
    (note d >>= fun _ => p).run bs = p.run bs := rfl

theorem notes_note_bind (d : List β → δ) (p : Traced β ε δ α) (bs : List β) :
    (note d >>= fun _ => p).notes bs = d bs :: p.notes bs := rfl

/-- The reader does not fail badly and meets all its notes exactly when they are all small. -/
def Guarded (bad : ε → Prop) (met small : δ → Prop) (p : Traced β ε δ α) : Prop :=
  ∀ bs, (¬ Raises bad (p.run bs) ∧ ∀ d ∈ p.notes bs, met d) ↔ ∀ d ∈ p.notes bs, small d

section Rules

variable {bad : ε → Prop} {met small : δ → Prop}

theorem guarded_ofReader {p : Reader β ε α} (h : ∀ bs, ¬ Raises bad (p bs)) :
    Guarded bad met small (ofReader p : Traced β ε δ α) :=
  fun bs => iff_of_true ⟨h bs, by simp [ofReader]⟩ (by simp [ofReader])

theorem guarded_lift {x : Except ε α} (h : ¬ Raises bad x) :
    Guarded bad met small (ofReader (monadLift x) : Traced β ε δ α) := by
  refine guarded_ofReader fun bs => ?_
  change ¬ Raises bad (x >>= fun a => pure (a, bs))
  rwa [raises_bind_pure]

theorem guarded_pure (a : α) : Guarded bad met small (pure a : Traced β ε δ α) :=
  guarded_ofReader fun _ => not_raises_ok _

theorem guarded_note {d : List β → δ} (h : ∀ bs, met (d bs) ↔ small (d bs)) :
    Guarded bad met small (note d : Traced β ε δ Unit) := by
  intro bs
  have hnote : ∀ P : δ → Prop, (∀ x ∈ (note d : Traced β ε δ Unit).notes bs, P x) ↔ P (d bs) :=
    fun P => List.forall_mem_singleton
  have hok : ¬ Raises bad ((note d : Traced β ε δ Unit).run bs) := not_raises_ok _
  rw [hnote, hnote, and_iff_right hok]
  exact h bs

/-- What follows a note may count on the note being small. -/
theorem guarded_note_bind {d : δ} {p : Traced β ε δ α} (hd : met d ↔ small d)
    (hp : small d → Guarded bad met small p) :
    Guarded bad met small (note (fun _ => d) >>= fun _ => p) := by
  intro bs
  rw [run_note_bind, notes_note_bind, List.forall_mem_cons, List.forall_mem_cons, hd]
  by_cases hsmall : small d
  · rw [and_iff_right hsmall, and_iff_right hsmall]
    exact hp hsmall bs
  · exact iff_of_false (fun h => hsmall h.2.1) (fun h => hsmall h.1)

/-- A sequence is guarded where its second part is on all results of the first. -/
theorem Guarded.bind {P : α → Prop} {p : Traced β ε δ α} {f : α → Traced β ε δ γ}
    (hp : Guarded bad met small p) (hreturns : Returns P p.run)
    (hf : ∀ a, P a → Guarded bad met small (f a)) : Guarded bad met small (p >>= f) := by
  intro bs
  have hrun : (p >>= f).run bs = (p.run bs >>= fun x => (f x.1).run x.2) := rfl
  have hnotes : (p >>= f).notes bs = p.notes bs ++ after (p.run bs) fun a => (f a).notes := rfl
  have hfirst := hp bs
  rw [hrun, hnotes, List.forall_mem_append, List.forall_mem_append]
  cases hx : p.run bs with
  | error e =>
    rw [hx] at hfirst
    have hnone : ∀ Q : δ → Prop, ∀ d ∈ after (Except.error e : Except ε (α × List β))
        (fun a => (f a).notes), Q d := by simp [after]
    have hsame : Raises bad ((Except.error e : Except ε (α × List β)) >>= fun x => (f x.1).run x.2) ↔
        Raises bad (Except.error e : Except ε (α × List β)) := raises_bind.trans (by simp)
    rw [hsame, and_iff_left (hnone met), and_iff_left (hnone small)]
    exact hfirst
  | ok x =>
    rw [hx, and_iff_right (not_raises_ok x)] at hfirst
    have hsecond := hf x.1 (hreturns bs x.1 x.2 hx) x.2
    rw [ok_bind]
    simp only [after]
    rw [hfirst, ← hsecond]
    tauto

theorem guarded_bind {p : Traced β ε δ α} {f : α → Traced β ε δ γ} (hp : Guarded bad met small p)
    (hf : ∀ a, Guarded bad met small (f a)) : Guarded bad met small (p >>= f) :=
  hp.bind (P := fun _ => True) (fun _ _ _ _ => trivial) fun a _ => hf a

theorem Guarded.map {p : Traced β ε δ α} (h : Guarded bad met small p) (f : α → γ) :
    Guarded bad met small (f <$> p) :=
  guarded_bind h fun _ => guarded_pure _

theorem Guarded.times {p : Traced β ε δ α} (h : Guarded bad met small p) (n : Nat) :
    Guarded bad met small (times p n) := by
  induction n with
  | zero => exact guarded_pure []
  | succ n ih => exact guarded_bind h fun x => guarded_bind ih fun xs => guarded_pure _

theorem Guarded.each {p : γ → Traced β ε δ α} (h : ∀ c, Guarded bad met small (p c))
    (cs : List γ) : Guarded bad met small (each p cs) := by
  induction cs with
  | nil => exact guarded_pure []
  | cons c cs ih => exact guarded_bind (h c) fun x => guarded_bind ih fun xs => guarded_pure _

end Rules

/-- Of a reader that succeeds, all notes have the property. -/
def Kept (keep : δ → Prop) (p : Traced β ε δ α) : Prop :=
  ∀ bs a rest, p.run bs = .ok (a, rest) → ∀ d ∈ p.notes bs, keep d

section Keeping

variable {keep : δ → Prop}

theorem kept_ofReader (p : Reader β ε α) : Kept keep (ofReader p : Traced β ε δ α) :=
  fun _ _ _ _ _ hd => absurd hd List.not_mem_nil

theorem kept_pure (a : α) : Kept keep (pure a : Traced β ε δ α) :=
  kept_ofReader _

theorem kept_note {d : List β → δ} (h : ∀ bs, keep (d bs)) :
    Kept keep (note d : Traced β ε δ Unit) :=
  fun bs _ _ _ _ hx => List.mem_singleton.mp hx ▸ h bs

/-- The notes of the first reader need to be right where the second one succeeds as well. -/
theorem kept_bind_at {p : Traced β ε δ α} {f : α → Traced β ε δ γ}
    (hp : ∀ bs a left c rest, p.run bs = .ok (a, left) → (f a).run left = .ok (c, rest) →
      ∀ d ∈ p.notes bs, keep d)
    (hf : ∀ a, Kept keep (f a)) : Kept keep (p >>= f) := by
  intro bs c rest h d hd
  obtain ⟨a, left, hx, hnext⟩ := run_bind_ok h
  rw [notes_bind hx] at hd
  rcases List.mem_append.mp hd with hd | hd
  · exact hp bs a left c rest hx hnext d hd
  · exact hf a left c rest hnext d hd

theorem Kept.bind {p : Traced β ε δ α} {f : α → Traced β ε δ γ} (hp : Kept keep p)
    (hf : ∀ a, Kept keep (f a)) : Kept keep (p >>= f) :=
  kept_bind_at (fun bs a left _ _ h _ => hp bs a left h) hf

theorem Kept.map {p : Traced β ε δ α} (h : Kept keep p) (f : α → γ) : Kept keep (f <$> p) :=
  h.bind fun _ => kept_pure _

theorem Kept.times {p : Traced β ε δ α} (h : Kept keep p) (n : Nat) : Kept keep (times p n) := by
  induction n with
  | zero => exact kept_pure []
  | succ n ih => exact h.bind fun x => ih.bind fun xs => kept_pure _

theorem Kept.each {p : γ → Traced β ε δ α} (h : ∀ c, Kept keep (p c)) (cs : List γ) :
    Kept keep (each p cs) := by
  induction cs with
  | nil => exact kept_pure []
  | cons c cs ih => exact (h c).bind fun x => ih.bind fun xs => kept_pure _

end Keeping

/-- Behind `pre`, `enc` writes of a result as many elements as were read for it, and writes the
same ones exactly when all notes are right. -/
def Emits (right : δ → Prop) (pre : List β) (enc : α → List β) (p : Traced β ε δ α) : Prop :=
  ∀ bs a rest, p.run bs = .ok (a, rest) → ∃ used out, bs = used ++ rest ∧ enc a = pre ++ out ∧
    out.length = used.length ∧ (out = used ↔ ∀ d ∈ p.notes bs, right d)

section Emitting

variable {right : δ → Prop} {pre : List β}

theorem emits_ofReader {p : Reader β ε α} {enc : α → List β}
    (h : ∀ bs a rest, p bs = .ok (a, rest) → ∃ out, bs = out ++ rest ∧ enc a = pre ++ out) :
    Emits right pre enc (ofReader p : Traced β ε δ α) := by
  intro bs a rest ha
  obtain ⟨out, hbs, henc⟩ := h bs a rest ha
  exact ⟨out, out, hbs, henc, rfl, iff_of_true rfl fun _ hd => absurd hd List.not_mem_nil⟩

theorem emits_pure {a : α} {enc : α → List β} (h : enc a = pre) :
    Emits right pre enc (pure a : Traced β ε δ α) := by
  refine emits_ofReader fun bs c rest hc => ⟨[], ?_⟩
  obtain ⟨rfl, rfl⟩ := pure_ok hc
  exact ⟨rfl, h.trans (List.append_nil pre).symm⟩

theorem emits_error {e : ε} {enc : α → List β} :
    Emits right pre enc (ofReader (monadLift (Except.error e : Except ε α)) : Traced β ε δ α) := by
  intro bs a rest ha
  cases ha

/-- What the second reader is measured by begins with what is written of the first result. -/
theorem Emits.bind {P : α → Prop} {p : Traced β ε δ α} {f : α → Traced β ε δ γ} {enc : α → List β}
    {enc' : γ → List β} (hp : Emits right [] enc p) (hreturns : Returns P p.run)
    (hf : ∀ a, P a → Emits right (pre ++ enc a) enc' (f a)) : Emits right pre enc' (p >>= f) := by
  intro bs c rest h
  obtain ⟨a, left, hx, hnext⟩ := run_bind_ok h
  obtain ⟨used, out, hbs, henc, hlen, hright⟩ := hp bs a left hx
  obtain ⟨used', out', hleft, henc', hlen', hright'⟩ :=
    hf a (hreturns bs a left hx) left c rest hnext
  refine ⟨used ++ used', out ++ out', ?_, ?_, ?_, ?_⟩
  · rw [hbs, hleft, List.append_assoc]
  · rw [henc', henc, List.nil_append, List.append_assoc]
  · rw [List.length_append, List.length_append, hlen, hlen']
  · rw [notes_bind hx, List.forall_mem_append, ← hright, ← hright']
    constructor
    · intro heq
      exact List.append_inj heq hlen
    · rintro ⟨rfl, rfl⟩
      rfl

theorem emits_bind {p : Traced β ε δ α} {f : α → Traced β ε δ γ} {enc : α → List β}
    {enc' : γ → List β} (hp : Emits right [] enc p)
    (hf : ∀ a, Emits right (pre ++ enc a) enc' (f a)) : Emits right pre enc' (p >>= f) :=
  hp.bind (P := fun _ => True) (fun _ _ _ _ => trivial) fun a _ => hf a

theorem emits_lift (x : Except ε α) :
    Emits right [] (fun _ => []) (ofReader (monadLift x) : Traced β ε δ α) := by
  refine emits_ofReader fun bs a rest ha => ⟨[], ?_, rfl⟩
  exact (lift_ok ha).2.symm

theorem Emits.split {p : Reader β ε α} {enc : α → List β}
    (h : Emits right [] enc (ofReader p : Traced β ε δ α)) {bs rest : List β} {a : α}
    (ha : p bs = .ok (a, rest)) : bs = enc a ++ rest := by
  obtain ⟨used, out, hbs, henc, -, hright⟩ := h bs a rest ha
  have hsame : out = used := hright.mpr fun d hd => absurd hd List.not_mem_nil
  rw [hbs, henc, hsame, List.nil_append]

/-- Readers without notes follow one another as they do within one reader. -/
theorem Emits.ofReader_bind {P : α → Prop} {p : Reader β ε α} {f : α → Reader β ε γ}
    {enc : α → List β} {enc' : γ → List β}
    (hp : Emits right [] enc (ofReader p : Traced β ε δ α)) (hreturns : Returns P p)
    (hf : ∀ a, P a → Emits right (pre ++ enc a) enc' (ofReader (f a) : Traced β ε δ γ)) :
    Emits right pre enc' (ofReader (p >>= f) : Traced β ε δ γ) := by
  intro bs c rest h
  obtain ⟨a, left, hx, -⟩ := bind_ok h
  have hnotes : (ofReader p >>= fun a => (ofReader (f a) : Traced β ε δ γ)).notes bs = [] :=
    notes_bind hx
  have hboth : Emits right pre enc' (ofReader p >>= fun a => (ofReader (f a) : Traced β ε δ γ)) :=
    hp.bind hreturns hf
  have hread := hboth bs c rest h
  rwa [hnotes] at hread

theorem emits_ofReader_bind {p : Reader β ε α} {f : α → Reader β ε γ} {enc : α → List β}
    {enc' : γ → List β} (hp : Emits right [] enc (ofReader p : Traced β ε δ α))
    (hf : ∀ a, Emits right (pre ++ enc a) enc' (ofReader (f a) : Traced β ε δ γ)) :
    Emits right pre enc' (ofReader (p >>= f) : Traced β ε δ γ) :=
  hp.ofReader_bind (P := fun _ => True) (fun _ _ _ _ => trivial) fun a _ => hf a

theorem emits_ofReader_times {p : Reader β ε α} {enc : α → List β}
    (h : Emits right [] enc (ofReader p : Traced β ε δ α)) (n : Nat) :
    Emits right [] (fun xs => xs.flatMap enc) (ofReader (Reads.times p n) : Traced β ε δ (List α)) := by
  induction n with
  | zero => exact emits_pure rfl
  | succ n ih =>
    refine emits_ofReader_bind h fun x => emits_ofReader_bind ih fun xs => emits_pure ?_
    rw [List.flatMap_cons, List.nil_append]

theorem Emits.map {p : Traced β ε δ α} {enc : α → List β} {enc' : γ → List β} {g : α → γ}
    (hp : Emits right [] enc p) (hg : ∀ a, enc' (g a) = enc a) : Emits right [] enc' (g <$> p) :=
  emits_bind hp fun a => emits_pure (hg a)

theorem Emits.times {p : Traced β ε δ α} {enc : α → List β} (h : Emits right [] enc p) (n : Nat) :
    Emits right [] (fun xs => xs.flatMap enc) (times p n) := by
  induction n with
  | zero => exact emits_pure rfl
  | succ n ih =>
    refine emits_bind h fun x => emits_bind ih fun xs => emits_pure ?_
    rw [List.flatMap_cons, List.nil_append]

theorem Emits.each {p : γ → Traced β ε δ α} {enc : α → List β} (h : ∀ c, Emits right [] enc (p c))
    (cs : List γ) : Emits right [] (fun xs => xs.flatMap enc) (each p cs) := by
  induction cs with
  | nil => exact emits_pure rfl
  | cons c cs ih =>
    refine emits_bind (h c) fun x => emits_bind ih fun xs => emits_pure ?_
    rw [List.flatMap_cons, List.nil_append]

end Emitting

end Traced

end Reads
