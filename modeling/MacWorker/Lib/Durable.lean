import Mathlib.Data.List.Basic
import Mathlib.Logic.Relation

/-! # Programs over durable state

A program reads and writes a state that outlives it. It may fail, and it may be cut off
after any of its writes; what it has written by then stays. A run is therefore the list of
states its writes leave behind, and its answer.

`Spec` is the weakest precondition of such a run: a condition for every state it leaves
behind, which is what a crash can expose, and one for the answer and the last state. -/
namespace Durable
open List

/-- From a state, the states the writes leave behind, oldest first, and the answer. -/
def Prog (ε σ α : Type) : Type := σ → List σ × Except ε α

namespace Prog
variable {ε σ α β : Type}

def answer (m : Prog ε σ α) (s : σ) : Except ε α := (m s).2

def final (m : Prog ε σ α) (s : σ) : σ := (m s).1.getLastD s

/-- Every state a crash of the run can expose, the one before the first write
included. -/
def exposed (m : Prog ε σ α) (s : σ) : List σ := s :: (m s).1

instance : Monad (Prog ε σ) where
  pure a _ := ([], .ok a)
  bind m f s :=
    match m s with
    | (before, .error e) => (before, .error e)
    | (before, .ok a) => (before ++ (f a (before.getLastD s)).1, (f a (before.getLastD s)).2)

def get : Prog ε σ σ := fun s => ([], .ok s)

def write (f : σ → σ) : Prog ε σ Unit := fun s => ([f s], .ok ())

def fail (e : ε) : Prog ε σ α := fun _ => ([], .error e)

/-- A computation that neither reads nor writes the state. -/
def ofExcept (x : Except ε α) : Prog ε σ α := fun _ => ([], x)

instance : MonadLift (Except ε) (Prog ε σ) := ⟨ofExcept⟩

/-- Continue when `p` holds, fail with `e` otherwise. -/
def require (p : Prop) [Decidable p] (e : ε) : Prog ε σ Unit := if p then pure () else fail e

/-- Hand the failure of a program to the rest of the computation. -/
def attempt (m : Prog ε σ α) : Prog ε σ (Except ε α) := fun s => ((m s).1, .ok (m s).2)

theorem final_mem_exposed (m : Prog ε σ α) (s : σ) : m.final s ∈ m.exposed s := by
  unfold final exposed
  cases h : (m s).1.getLast? with
  | none => simp [getLastD_eq_getLast?, h]
  | some t =>
    rw [getLastD_eq_getLast?, h]
    exact mem_cons_of_mem _ (mem_of_getLast? h)

variable {f : α → Prog ε σ β} {s : σ}

theorem bind_of_ok {m v a} (h : m s = (v, .ok a)) :
    (m >>= f) s = (v ++ (f a (v.getLastD s)).1, (f a (v.getLastD s)).2) := by
  change (match m s with | (before, .error e) => _ | (before, .ok a) => _) = _
  rw [h]

theorem bind_of_error {m v e} (h : m s = (v, .error e)) : (m >>= f) s = (v, .error e) := by
  change (match m s with | (before, .error e) => _ | (before, .ok a) => _) = _
  rw [h]

theorem run_bind {m v w a r} (hm : m s = (v, .ok a)) (hf : f a (v.getLastD s) = (w, r)) :
    (m >>= f) s = (v ++ w, r) := by
  rw [bind_of_ok hm, hf]

theorem run_attempt {m : Prog ε σ α} {v : List σ} {r : Except ε α} (h : m s = (v, r)) :
    m.attempt s = (v, .ok r) := by
  change ((m s).1, Except.ok (m s).2) = _
  rw [h]

theorem bind_fails {m} (h : ∀ a t, ∃ e, (f a).answer t = .error e) (s : σ) :
    ∃ e, (m >>= f).answer s = .error e := by
  rcases hm : m s with ⟨v, r⟩
  cases r with
  | error e => exact ⟨e, by rw [answer, bind_of_error hm]⟩
  | ok a =>
    obtain ⟨e, he⟩ := h a (v.getLastD s)
    exact ⟨e, by rw [answer, bind_of_ok hm]; exact he⟩

/-! A program that only reads leaves no state behind. -/

theorem bind_of_reads {m a} (h : m s = ([], .ok a)) : (m >>= f) s = f a s := by
  rw [bind_of_ok h]
  rfl

theorem answer_bind_of_reads {m a} (h : m s = ([], .ok a)) : (m >>= f).answer s = (f a).answer s :=
  congrArg Prod.snd (bind_of_reads h)

theorem answer_bind_of_ok {m v a} (h : m s = (v, .ok a)) :
    (m >>= f).answer s = (f a).answer (v.getLastD s) := by
  rw [answer, bind_of_ok h]
  rfl

theorem answer_bind_of_error {m v e} (h : m s = (v, .error e)) : (m >>= f).answer s = .error e :=
  congrArg Prod.snd (bind_of_error h)

theorem get_reads (s : σ) : (get : Prog ε σ σ) s = ([], .ok s) := rfl

theorem lift_reads {x : Except ε α} {a : α} (h : x = .ok a) :
    (liftM x : Prog ε σ α) s = ([], .ok a) := by
  rw [h]
  rfl

theorem require_reads {p : Prop} [Decidable p] {e} (h : p) :
    (require p e : Prog ε σ Unit) s = ([], .ok ()) := by
  rw [require, if_pos h]
  rfl

end Prog

/-! ## What a run guarantees -/

section
variable {ε σ α β : Type} {s : σ} {C C' : σ → Prop} {m : Prog ε σ α} {f : α → Prog ε σ β}
  {x : Except ε α} {a : α} {e : ε} {p : Prop} [Decidable p]

/-- Every state the run leaves behind is in `C`, and the answer and the last state
are in `Q`. -/
def Spec (m : Prog ε σ α) (s : σ) (C : σ → Prop) (Q : Except ε α → σ → Prop) : Prop :=
  (∀ t ∈ (m s).1, C t) ∧ Q (m.answer s) (m.final s)

def Ok (Q : α → σ → Prop) : Except ε α → σ → Prop
  | .ok a, t => Q a t
  | .error _, _ => True

variable {Q Q' : Except ε α → σ → Prop}

@[simp] theorem ok_ok {Q : α → σ → Prop} : Ok (ε := ε) Q (.ok a) s ↔ Q a s := Iff.rfl

theorem Spec.mono (h : Spec m s C Q) (hC : ∀ t, C t → C' t) (hQ : ∀ r t, Q r t → Q' r t) :
    Spec m s C' Q' :=
  ⟨fun t ht => hC t (h.1 t ht), hQ _ _ h.2⟩

theorem Spec.weaken (h : Spec m s C Q) (hC : ∀ t, C t → C' t) : Spec m s C' Q :=
  h.mono hC fun _ _ hr => hr

@[simp] theorem spec_pure : Spec (pure a) s C Q ↔ Q (.ok a) s := by
  change (∀ t ∈ [], C t) ∧ Q (.ok a) s ↔ _
  simp

@[simp] theorem spec_get {Q : Except ε σ → σ → Prop} : Spec Prog.get s C Q ↔ Q (.ok s) s := by
  change (∀ t ∈ [], C t) ∧ Q (.ok s) s ↔ _
  simp

@[simp] theorem spec_write {f : σ → σ} {Q : Except ε Unit → σ → Prop} :
    Spec (Prog.write f) s C Q ↔ C (f s) ∧ Q (.ok ()) (f s) := by
  change (∀ t ∈ [f s], C t) ∧ Q (.ok ()) (f s) ↔ _
  simp

@[simp] theorem spec_fail : Spec (Prog.fail e) s C Q ↔ Q (.error e) s := by
  change (∀ t ∈ [], C t) ∧ Q (.error e) s ↔ _
  simp

@[simp] theorem spec_ofExcept : Spec (Prog.ofExcept x) s C Q ↔ Q x s := by
  change (∀ t ∈ [], C t) ∧ Q x s ↔ _
  simp

@[simp] theorem spec_lift : Spec (liftM x : Prog ε σ α) s C Q ↔ Q x s := spec_ofExcept

@[simp] theorem spec_require {Q : Except ε Unit → σ → Prop} :
    Spec (Prog.require p e) s C Q ↔ (p → Q (.ok ()) s) ∧ (¬ p → Q (.error e) s) := by
  by_cases h : p <;> simp [Prog.require, h]

@[simp] theorem spec_attempt {Q : Except ε (Except ε α) → σ → Prop} :
    Spec m.attempt s C Q ↔ Spec m s C fun r t => Q (.ok r) t := Iff.rfl

theorem spec_of_reads {r} (h : m s = ([], r)) : Spec m s C Q ↔ Q r s := by
  simp [Spec, Prog.answer, Prog.final, h]

theorem getLastD_append (v w : List σ) (s : σ) :
    (v ++ w).getLastD s = w.getLastD (v.getLastD s) := by
  simp only [getLastD_eq_getLast?, getLast?_append]
  cases w.getLast? <;> simp

/-- **Sequencing.** The second program starts where the first one stopped. -/
@[simp] theorem spec_bind {Q : Except ε β → σ → Prop} : Spec (m >>= f) s C Q ↔ Spec m s C fun
      | .ok a, t => Spec (f a) t C Q
      | .error e, t => Q (.error e) t := by
  cases h : m s with
  | mk v r =>
    cases r with
    | error e =>
      simp only [Spec, Prog.answer, Prog.final, Prog.bind_of_error h, h]
    | ok a =>
      simp only [Spec, Prog.answer, Prog.final, Prog.bind_of_ok h, h, getLastD_append,
        forall_mem_append]
      exact and_assoc

theorem spec_congr {Q Q'} (h : ∀ r t, Q r t ↔ Q' r t) : Spec m s C Q ↔ Spec m s C Q' :=
  and_congr_right fun _ => h _ _

/-! ### When only normal answers matter -/

section
variable {R : α → σ → Prop}

theorem Spec.imp {R' : α → σ → Prop} (h : Spec m s C (Ok R))
    (him : ∀ a t, R a t → R' a t) : Spec m s C (Ok R') := by
  refine h.mono (fun _ h => h) fun r t hr => ?_
  cases r with
  | ok a => exact him a t hr
  | error e => trivial

theorem ok_bind {R : β → σ → Prop} :
    Spec (m >>= f) s C (Ok R) ↔ Spec m s C (Ok fun a t => Spec (f a) t C (Ok R)) := by
  rw [spec_bind]
  exact spec_congr fun r t => by cases r <;> exact Iff.rfl

theorem ok_lift : Spec (liftM x : Prog ε σ α) s C (Ok R) ↔ ∀ a, x = .ok a → R a s := by
  rw [spec_lift]
  cases x with
  | ok a => exact ⟨fun h b hb => Except.ok.inj hb ▸ h, fun h => h a rfl⟩
  | error e => exact ⟨nofun, fun _ => trivial⟩

theorem ok_require {R : Unit → σ → Prop} : Spec (Prog.require p e) s C (Ok R) ↔ (p → R () s) := by
  rw [spec_require]
  exact ⟨fun h => h.1, fun h => ⟨h, fun _ => trivial⟩⟩

theorem ok_fail : Spec (Prog.fail e) s C (Ok R) := spec_fail.mpr trivial

theorem ok_pure : Spec (pure a : Prog ε σ α) s C (Ok R) ↔ R a s := spec_pure

theorem ok_get {R : σ → σ → Prop} : Spec (ε := ε) Prog.get s C (Ok R) ↔ R s s := spec_get

theorem ok_write {f : σ → σ} {R : Unit → σ → Prop} :
    Spec (ε := ε) (Prog.write f) s C (Ok R) ↔ C (f s) ∧ R () (f s) := spec_write

theorem ok_forM {f : α → Prog ε σ Unit} {l : List α}
    (h : ∀ x ∈ l, ∀ s, C s → Spec (f x) s C (Ok fun _ => C)) (hs : C s) :
    Spec (l.forM f) s C (Ok fun _ => C) := by
  induction l generalizing s with
  | nil => exact ok_pure.mpr hs
  | cons x l ih =>
    change Spec (f x >>= fun _ => l.forM f) s C _
    rw [ok_bind]
    refine (h x mem_cons_self s hs).imp fun _ t ht => ?_
    exact ih (fun y hy => h y (mem_cons_of_mem x hy)) ht

end

theorem Spec.ok {R : α → σ → Prop} (h : Spec m s C (Ok R))
    (ha : m.answer s = .ok a) : R a (m.final s) := by
  have := h.2
  rwa [ha] at this

/-! ### When failures matter too -/

section
variable {E E' : ε → σ → Prop} {R : α → σ → Prop}

/-- A condition on failures, with the state they leave, and one on normal answers. -/
def Ends (E : ε → σ → Prop) (R : α → σ → Prop) : Except ε α → σ → Prop
  | .ok a, t => R a t
  | .error e, t => E e t

theorem Spec.ends {R'} (h : Spec m s C (Ends E R)) (hf : ∀ e t, E e t → E' e t)
    (him : ∀ a t, R a t → R' a t) : Spec m s C (Ends E' R') := by
  refine h.mono (fun _ h => h) fun r t hr => ?_
  cases r with
  | ok a => exact him a t hr
  | error e => exact hf e t hr

theorem ends_bind {R : β → σ → Prop} :
    Spec (m >>= f) s C (Ends E R) ↔ Spec m s C (Ends E fun a t => Spec (f a) t C (Ends E R)) := by
  rw [spec_bind]
  exact spec_congr fun r t => by cases r <;> exact Iff.rfl

theorem ends_lift : Spec (liftM x : Prog ε σ α) s C (Ends E R) ↔
    (∀ a, x = .ok a → R a s) ∧ (∀ e, x = .error e → E e s) := by
  rw [spec_lift]
  cases x with
  | ok a => exact ⟨fun h => ⟨fun b hb => Except.ok.inj hb ▸ h, nofun⟩, fun h => h.1 a rfl⟩
  | error e => exact ⟨fun h => ⟨nofun, fun b hb => Except.error.inj hb ▸ h⟩, fun h => h.2 e rfl⟩

theorem ok_answered {b : α} {P : α → Prop} {N : ε → Prop} :
    ((∀ a, (.ok b : Except ε α) = .ok a → P a) ∧
      ∀ e, (.ok b : Except ε α) = .error e → N e) ↔ P b := by
  simp

theorem ends_require {R} :
    Spec (Prog.require p e) s C (Ends E R) ↔ (p → R () s) ∧ (¬ p → E e s) := spec_require

theorem ends_fail : Spec (Prog.fail e) s C (Ends E R) ↔ E e s := spec_fail

theorem ends_pure : Spec (pure a : Prog ε σ α) s C (Ends E R) ↔ R a s := spec_pure

theorem ends_get {R} : Spec Prog.get s C (Ends E R) ↔ R s s := spec_get

theorem ends_write {f R} : Spec (Prog.write f) s C (Ends E R) ↔ C (f s) ∧ R () (f s) := spec_write

theorem ends_attempt {R : Except ε α → σ → Prop} : Spec m.attempt s C (Ends E R) ↔
      Spec m s C (Ends (fun e t => R (.error e) t) fun a t => R (.ok a) t) := by
  rw [spec_attempt]
  exact spec_congr fun r t => by cases r <;> exact Iff.rfl

theorem Spec.answers (h : Spec m s C (Ends (fun _ _ => False) R)) :
    ∃ a, m.answer s = .ok a ∧ R a (m.final s) := by
  have := h.2
  cases ha : m.answer s with
  | ok a => rw [ha] at this; exact ⟨a, rfl, this⟩
  | error e => rw [ha] at this; exact this.elim

end

/-! ### Runs that come to another program -/

section
variable {m m' k : Prog ε σ α} {t u : σ}

/-- After writes that leave `t` behind, the run goes on as `k` does from there. -/
def Reaches (m : Prog ε σ α) (s : σ) (k : Prog ε σ α) (t : σ) : Prop :=
  ∃ v, t = v.getLastD s ∧ m s = (v ++ (k t).1, (k t).2)

theorem Reaches.trans (h : Reaches m s m' t) (h' : Reaches m' t k u) : Reaches m s k u := by
  obtain ⟨v, ht, hm⟩ := h
  obtain ⟨v', hu, hm'⟩ := h'
  refine ⟨v ++ v', ?_, ?_⟩
  · rw [getLastD_append, ← ht, hu]
  · rw [hm, hm', append_assoc]

/-- The run comes to some program and state in `G`. -/
def Leads (m : Prog ε σ α) (s : σ) (G : Prog ε σ α → σ → Prop) : Prop :=
  ∃ k t, G k t ∧ Reaches m s k t

theorem leads_here {G} (h : G m s) : Leads m s G := ⟨m, s, h, [], rfl, rfl⟩

theorem leads_bind {m : Prog ε σ β} {f : β → Prog ε σ α} {G : Prog ε σ α → σ → Prop}
    (h : Spec m s (fun _ => True) (Ends (fun _ _ => False) fun b t => Leads (f b) t G)) :
    Leads (m >>= f) s G := by
  obtain ⟨b, hb, k, t, hG, hr⟩ := h.answers
  have hm : m s = ((m s).1, .ok b) := Prod.ext rfl hb
  refine ⟨k, t, hG, Reaches.trans ⟨(m s).1, rfl, ?_⟩ hr⟩
  exact Prog.bind_of_ok hm

theorem Reaches.answer (h : Reaches m s k t) : m.answer s = k.answer t := by
  obtain ⟨v, -, hm⟩ := h
  unfold Prog.answer
  rw [hm]

theorem Reaches.exposed (h : Reaches m s k t) (hu : u ∈ k.exposed t) : u ∈ m.exposed s := by
  obtain ⟨v, ht, hm⟩ := h
  unfold Prog.exposed at hu ⊢
  rw [hm]
  rcases mem_cons.mp hu with rfl | hu
  · rw [ht, getLastD_eq_getLast?]
    cases hv : v.getLast? with
    | none => exact mem_cons_self
    | some x =>
      exact mem_cons_of_mem _ (mem_append_left _ (mem_of_getLast? hv))
  · exact mem_cons_of_mem _ (mem_append_right _ hu)

end

theorem Spec.exposed (h : Spec m s C Q) (hs : C s) : ∀ t ∈ m.exposed s, C t := by
  intro t ht
  rcases mem_cons.mp ht with rfl | ht
  · exact hs
  · exact h.1 t ht

/-- Whether it fails or not, a program leaves a state that a crash can expose. -/
theorem Spec.attempt {R : α → σ → Prop} {R' : Except ε α → σ → Prop}
    (h : Spec m s C (Ok R)) (hs : C s) (hf : ∀ e t, C t → R' (.error e) t)
    (hok : ∀ a t, R a t → R' (.ok a) t) : Spec m.attempt s C (Ok R') := by
  refine spec_attempt.mpr ⟨h.1, ?_⟩
  cases ha : m.answer s with
  | ok a => exact hok a _ (h.ok ha)
  | error e => exact hf e _ (h.exposed hs _ (Prog.final_mem_exposed m s))

end

/-! ## Writes that are steps of a relation -/

section
open Relation
variable {ε σ α β : Type} {W : σ → σ → Prop} {s : σ} {E E' : ε → σ → Prop} {R : α → σ → Prop}
  {m : Prog ε σ α} {f : α → Prog ε σ β} {x : Except ε α} {a : α} {e : ε} {p : Prop} [Decidable p]

/-- Every write of the run is a step of `W`; a failure is in `E` and a normal answer
in `R`, each with the state it leaves. -/
def Tracks (W : σ → σ → Prop) (m : Prog ε σ α) (s : σ) (E : ε → σ → Prop) (R : α → σ → Prop) :
    Prop :=
  Spec m s (ReflTransGen W s) (Ends (fun e t => ReflTransGen W s t ∧ E e t)
    fun a t => ReflTransGen W s t ∧ R a t)

theorem Tracks.imp {R'} (h : Tracks W m s E R) (hf : ∀ e t, ReflTransGen W s t → E e t → E' e t)
    (him : ∀ a t, ReflTransGen W s t → R a t → R' a t) : Tracks W m s E' R' :=
  h.ends (fun e t h => ⟨h.1, hf e t h.1 h.2⟩) fun a t h => ⟨h.1, him a t h.1 h.2⟩

theorem Tracks.weaken {W'} (h : Tracks W m s E R) (hW : ∀ a b, W a b → W' a b) :
    Tracks W' m s E R := by
  have hm : ∀ t, ReflTransGen W s t → ReflTransGen W' s t := fun t ht =>
    ReflTransGen.mono hW s t ht
  refine Spec.mono h hm fun r t hr => ?_
  cases r with
  | ok a => exact ⟨hm t hr.1, hr.2⟩
  | error e => exact ⟨hm t hr.1, hr.2⟩

theorem Tracks.with_answer (h : Tracks W m s E R) :
    Tracks W m s E fun a t => m.answer s = .ok a ∧ R a t := by
  refine ⟨h.1, ?_⟩
  have hen := h.2
  cases ha : m.answer s with
  | ok a => rw [ha] at hen; exact ⟨hen.1, rfl, hen.2⟩
  | error e => rw [ha] at hen; exact hen

theorem tracks_pure (h : R a s) : Tracks W (pure a) s E R := spec_pure.mpr ⟨.refl, h⟩

theorem tracks_fail (h : E e s) : Tracks W (Prog.fail e : Prog ε σ α) s E R :=
  spec_fail.mpr ⟨.refl, h⟩

theorem tracks_lift (hok : ∀ a, x = .ok a → R a s)
    (hf : ∀ e, x = .error e → E e s) : Tracks W (liftM x) s E R :=
  ends_lift.mpr ⟨fun a ha => ⟨.refl, hok a ha⟩, fun e he => ⟨.refl, hf e he⟩⟩

theorem tracks_require {R} (hok : p → R () s) (hf : ¬ p → E e s) :
    Tracks W (Prog.require p e) s E R :=
  ends_require.mpr ⟨fun h => ⟨.refl, hok h⟩, fun h => ⟨.refl, hf h⟩⟩

theorem tracks_write {f R} (hs : W s (f s)) (h : R () (f s)) : Tracks W (Prog.write f) s E R :=
  ends_write.mpr ⟨.single hs, .single hs, h⟩

theorem Tracks.bind {R' : β → σ → Prop}
    (h : Tracks W m s E R) (hf : ∀ a t, ReflTransGen W s t → R a t → Tracks W (f a) t E R') :
    Tracks W (m >>= f) s E R' := by
  refine ends_bind.mpr (h.ends (fun _ _ h => h) fun a t ht => ?_)
  exact (hf a t ht.1 ht.2).mono (fun _ => ht.1.trans) fun r u hu => by
    cases r with
    | ok b => exact ⟨ht.1.trans hu.1, hu.2⟩
    | error e => exact ⟨ht.1.trans hu.1, hu.2⟩

theorem tracks_bind_lift {R : β → σ → Prop}
    (hfa : ∀ e, E e s) (hf : ∀ a, x = .ok a → Tracks W (f a) s E R) :
    Tracks W ((liftM x : Prog ε σ α) >>= f) s E R :=
  ends_bind.mpr (ends_lift.mpr ⟨hf, fun e _ => ⟨.refl, hfa e⟩⟩)

theorem tracks_bind_require {f : Unit → Prog ε σ β}
    {R : β → σ → Prop} (hfa : E e s) (hf : p → Tracks W (f ()) s E R) :
    Tracks W (Prog.require p e >>= f) s E R :=
  ends_bind.mpr (ends_require.mpr ⟨hf, fun _ => ⟨.refl, hfa⟩⟩)

theorem tracks_bind_write {f : σ → σ} {g : Unit → Prog ε σ β} {R : β → σ → Prop}
    (hs : W s (f s)) (hg : Tracks W (g ()) (f s) E R) : Tracks W (Prog.write f >>= g) s E R :=
  Tracks.bind (R := fun _ t => t = f s) (tracks_write hs rfl) fun _ _ _ ht => ht ▸ hg

theorem tracks_get_bind {f : σ → Prog ε σ β} {R : β → σ → Prop} (h : Tracks W (f s) s E R) :
    Tracks W (Prog.get >>= f) s E R :=
  ends_bind.mpr (ends_get.mpr h)

variable (h : Tracks W m s E R)
include h

theorem Tracks.attempt {R'} (hf : ∀ e t, ReflTransGen W s t → E e t → R' (.error e) t)
    (hok : ∀ a t, ReflTransGen W s t → R a t → R' (.ok a) t) : Tracks W m.attempt s E' R' :=
  ends_attempt.mpr (h.ends (fun e t h => ⟨h.1, hf e t h.1 h.2⟩)
    fun a t h => ⟨h.1, hok a t h.1 h.2⟩)

theorem Tracks.attempt_any : Tracks W m.attempt s E' fun _ _ => True :=
  h.attempt (fun _ _ _ _ => trivial) fun _ _ _ _ => trivial

theorem Tracks.attempt_ok :
    Tracks W m.attempt s E' fun answer t => ∀ a, answer = .ok a → R a t := by
  refine h.attempt (fun _ _ _ _ => nofun) fun a t _ ht b hb => ?_
  cases hb
  exact ht

theorem Tracks.exposed : ∀ t ∈ m.exposed s, ReflTransGen W s t := Spec.exposed h .refl

theorem Tracks.answered (ha : m.answer s = .ok a) : R a (m.final s) := by
  have hen := h.2
  rw [ha] at hen
  exact hen.2

end

/-! ## Programs that return

The answer and the last state of a run, for runs whose every step is known. -/

section
variable {ε σ α β : Type} {s t u : σ} {m : Prog ε σ α} {a : α}

def Returns (m : Prog ε σ α) (s : σ) (a : α) (t : σ) : Prop :=
  m.answer s = .ok a ∧ m.final s = t

theorem returns_pure (a : α) : Returns (pure a : Prog ε σ α) s a s := ⟨rfl, rfl⟩

theorem returns_get : Returns (Prog.get : Prog ε σ σ) s s s := ⟨rfl, rfl⟩

theorem returns_write (f : σ → σ) : Returns (Prog.write f : Prog ε σ Unit) s () (f s) := ⟨rfl, rfl⟩

theorem returns_require {p : Prop} [Decidable p] {e} (h : p) :
    Returns (Prog.require p e : Prog ε σ Unit) s () s := by
  rw [Prog.require, if_pos h]
  exact returns_pure ()

theorem returns_lift {x : Except ε α} (h : x = .ok a) :
    Returns (liftM x : Prog ε σ α) s a s := ⟨h, rfl⟩

theorem Returns.bind {f : α → Prog ε σ β} {b : β}
    (hm : Returns m s a t) (hf : Returns (f a) t b u) : Returns (m >>= f) s b u := by
  have hs : Spec (m >>= f) s (fun _ => True) fun r v => r = .ok b ∧ v = u := by
    refine spec_bind.mpr ⟨fun _ _ => trivial, ?_⟩
    rw [hm.1, hm.2]
    exact ⟨fun _ _ => trivial, hf.1, hf.2⟩
  exact hs.2

theorem Returns.attempt (h : Returns m s a t) :
    Returns m.attempt s (.ok a) t := ⟨congrArg Except.ok h.1, h.2⟩

end

end Durable
