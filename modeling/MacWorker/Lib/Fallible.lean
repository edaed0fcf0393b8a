import Mathlib.Data.List.Forall2

/-! # Loops that stop at the first error

Facts about `Except` computations and the list loops built from them: guards, sequencing,
a test run over a list until it answers, a scan that hands each element the elements
before it, and the update of the first element that passes a test. Every loop gets one
lemma per outcome, stated through the split of the list where the loop stopped. -/
namespace Fallible
open List

/-! ## Guards and sequencing -/

section
variable {ε α β : Type} {x : Except ε α} {f : α → Except ε β} {a : α} {b : β} {u : Unit}

def ensure (p : Prop) [Decidable p] (error : ε) : Except ε Unit :=
  if p then .ok () else .error error

theorem bind_eq_ok : (x >>= f) = .ok b ↔ ∃ a, x = .ok a ∧ f a = .ok b := by
  cases x <;> simp [bind, Except.bind]

theorem of_bind (h : (x >>= f) = .ok b) : ∃ a, x = .ok a ∧ f a = .ok b := bind_eq_ok.mp h

@[simp] theorem bind_ok (a : α) (f : α → Except ε β) : (Except.ok a >>= f) = f a := rfl

@[simp] theorem error_bind (e : ε) (f : α → Except ε β) : (Except.error e >>= f) = .error e := rfl

theorem map_fst_eq_ok {x : Except ε (α × β)} : Prod.fst <$> x = .ok a ↔ ∃ b, x = .ok (a, b) := by
  cases x with
  | error e => simp [Functor.map, Except.map]
  | ok r => exact ⟨fun h => ⟨r.2, by cases h; rfl⟩, fun ⟨b, h⟩ => by cases h; rfl⟩

theorem of_map_fst {x : Except ε (α × β)} (h : Prod.fst <$> x = .ok a) :
    x = .ok (a, (map_fst_eq_ok.mp h).choose) :=
  (map_fst_eq_ok.mp h).choose_spec

theorem mapError_eq_ok {ε' : Type} {f : ε → ε'} : x.mapError f = .ok a ↔ x = .ok a := by
  cases x with
  | error e => exact ⟨nofun, nofun⟩
  | ok b => exact ⟨fun h => congrArg Except.ok (Except.ok.inj h), fun h => h ▸ rfl⟩

@[simp] theorem pure_eq_ok {a b} : (pure a : Except ε α) = .ok b ↔ a = b := by
  simp [pure, Except.pure]

@[simp] theorem ensure_eq_ok {p : Prop} [Decidable p] {e : ε} : ensure p e = .ok u ↔ p := by
  by_cases h : p <;> simp [ensure, h]

theorem ensure_of {p : Prop} [Decidable p] {e : ε} (h : p) : ensure p e = .ok () :=
  ensure_eq_ok.mpr h

/-- A branch that cannot have given the answer was not taken. -/
theorem of_unless {p : Prop} [Decidable p] {x y z : α} (h : (if p then x else y) = z)
    (hne : x ≠ z := by nofun) : ¬p ∧ y = z := by
  split at h
  · exact absurd h hne
  · exact ⟨‹_›, h⟩

theorem of_if {p : Prop} [Decidable p] {x y z : α} (h : (if p then x else y) = z)
    (hne : y ≠ z := by nofun) : p ∧ x = z := by
  split at h
  · exact ⟨‹_›, h⟩
  · exact absurd h hne

theorem of_test {test : Except ε Bool} {x y : Except ε β}
    (h : (test >>= fun passed => if !passed then x else y) = .ok b)
    (hne : x ≠ .ok b := by simp) : test = .ok true ∧ y = .ok b := by
  obtain ⟨passed, ht, h⟩ := of_bind h
  cases passed with
  | false => exact absurd h hne
  | true => exact ⟨ht, h⟩

theorem ensure_then_eq_error {p : Prop} [Decidable p] {e e' : ε} {f : Unit → Except ε β} :
    (ensure p e >>= f) = .error e' ↔ ¬p ∧ e = e' ∨ p ∧ f () = .error e' := by
  by_cases h : p <;> simp [ensure, h]

def checkSome (o : Option α) (check : α → Except ε Unit) : Except ε Unit :=
  match o with
  | none => .ok ()
  | some a => check a

@[simp] theorem checkSome_eq_ok {o : Option α} {check : α → Except ε Unit} :
    checkSome o check = .ok u ↔ ∀ a, o = some a → check a = .ok () := by
  cases o <;> simp [checkSome]

@[simp] theorem then_eq_ok {x : Except ε Unit} {f : Unit → Except ε β} :
    (x >>= f) = .ok b ↔ x = .ok () ∧ f () = .ok b := by
  rw [bind_eq_ok]
  exact ⟨fun ⟨_, hx, hf⟩ => ⟨hx, hf⟩, fun ⟨hx, hf⟩ => ⟨(), hx, hf⟩⟩

theorem of_then {x : Except ε Unit} {f : Unit → Except ε β} (h : (x >>= f) = .ok b) :
    x = .ok () ∧ f () = .ok b :=
  then_eq_ok.mp h

theorem forM_eq_ok {f : α → Except ε Unit} {l : List α} :
    l.forM f = .ok u ↔ ∀ x ∈ l, f x = .ok () := by
  induction l with
  | nil => exact ⟨fun _ _ h => absurd h not_mem_nil, fun _ => rfl⟩
  | cons x l ih =>
    change (f x >>= fun _ => l.forM f) = .ok u ↔ _
    rw [then_eq_ok, ih, forall_mem_cons]

/-- A fold whose steps fail on their element alone succeeds exactly when every
element passes, and then computes the plain fold. -/
theorem foldlM_eq_ok {σ : Type} {f : σ → α → Except ε σ} {p : α → Prop} {g : σ → α → σ}
    (hf : ∀ s x s', f s x = .ok s' ↔ p x ∧ s' = g s x) {l : List α} :
    ∀ {s s' : σ}, l.foldlM f s = .ok s' ↔ (∀ x ∈ l, p x) ∧ s' = l.foldl g s := by
  induction l with
  | nil =>
    intro s s'
    rw [foldlM_nil, pure_eq_ok]
    simpa using eq_comm
  | cons x l ih =>
    intro s s'
    rw [foldlM_cons, bind_eq_ok]
    simp only [hf, ih, forall_mem_cons, foldl_cons]
    refine ⟨fun ⟨_, ⟨hx, he⟩, hl, hs⟩ => ⟨⟨hx, hl⟩, he ▸ hs⟩, fun ⟨⟨hx, hl⟩, hs⟩ => ?_⟩
    exact ⟨g s x, ⟨hx, rfl⟩, hl, hs⟩

/-- What each step of a plain fold can bring about, some step brings about. -/
theorem foldl_iff {σ : Type} {step : σ → α → σ} {p : σ → Prop} {q : α → Prop}
    (h : ∀ s x, p (step s x) ↔ p s ∨ q x) {l : List α} {s : σ} :
    p (l.foldl step s) ↔ p s ∨ ∃ x ∈ l, q x := by
  induction l generalizing s with
  | nil => simp
  | cons x l ih => rw [foldl_cons, ih, h, exists_mem_cons_iff, or_assoc]

end

/-! ## A test that stops at the first hit -/

section
variable {ε α : Type} {test : α → Except ε Bool} {l : List α}

theorem anyM_false (h : l.anyM test = .ok false) : ∀ x ∈ l, test x = .ok false := by
  induction l with
  | nil => simp
  | cons x l ih =>
    obtain ⟨hit, hx, hr⟩ := of_bind h
    cases hit with
    | true => cases hr
    | false => exact forall_mem_cons.mpr ⟨hx, ih hr⟩

theorem anyM_true (h : l.anyM test = .ok true) : ∃ x ∈ l, test x = .ok true := by
  induction l with
  | nil => cases h
  | cons x l ih =>
    obtain ⟨hit, hx, hr⟩ := of_bind h
    cases hit with
    | true => exact ⟨x, mem_cons_self, hx⟩
    | false => exact (ih hr).imp fun _ h => ⟨mem_cons_of_mem x h.1, h.2⟩

end

section
variable {ε α β : Type} {f : α → Except ε (Option β)} {l : List α}

theorem findSomeM_none (h : l.findSomeM? f = .ok none) : ∀ x ∈ l, f x = .ok none := by
  induction l with
  | nil => simp
  | cons x l ih =>
    rw [findSomeM?_cons] at h
    obtain ⟨answer, hx, hr⟩ := of_bind h
    cases answer with
    | some b => cases hr
    | none => exact forall_mem_cons.mpr ⟨hx, ih hr⟩

theorem findSomeM_some {b : β} (h : l.findSomeM? f = .ok (some b)) :
    ∃ before x after, l = before ++ x :: after ∧ f x = .ok (some b) ∧
      ∀ y ∈ before, f y = .ok none := by
  induction l with
  | nil => cases h
  | cons x l ih =>
    rw [findSomeM?_cons] at h
    obtain ⟨answer, hx, hr⟩ := of_bind h
    cases answer with
    | some c =>
      cases hr
      exact ⟨[], x, l, rfl, hx, by simp⟩
    | none =>
      obtain ⟨before, y, after, rfl, hy, hb⟩ := ih hr
      exact ⟨x :: before, y, after, rfl, hy, forall_mem_cons.mpr ⟨hx, hb⟩⟩

end

/-! ## A scan that sees what it has passed -/

section
variable {ε α β : Type} {test : List α → α → Except ε (Option β)}

/-- The first position whose test yields a value, where every test is given the
elements before its own. -/
def scan (test : List α → α → Except ε (Option β)) :
    List α → List α → Except ε (Option (Nat × β))
  | _, [] => .ok none
  | passed, x :: rest => do
    match ← test passed x with
    | some b => .ok (some (passed.length, b))
    | none => scan test (passed ++ [x]) rest

theorem scan_cons (passed rest : List α) (x : α) (r : Option (Nat × β)) :
    scan test passed (x :: rest) = .ok r ↔
      (∃ b, test passed x = .ok (some b) ∧ r = some (passed.length, b)) ∨
      (test passed x = .ok none ∧ scan test (passed ++ [x]) rest = .ok r) := by
  rw [scan, bind_eq_ok]
  constructor
  · rintro ⟨answer, hx, hr⟩
    cases answer with
    | some b => exact .inl ⟨b, hx, (Except.ok.inj hr).symm⟩
    | none => exact .inr ⟨hx, hr⟩
  · rintro (⟨b, hx, rfl⟩ | ⟨hx, hr⟩)
    · exact ⟨some b, hx, rfl⟩
    · exact ⟨none, hx, hr⟩

theorem scan_none {before x after passed} (h : scan test passed (before ++ x :: after) = .ok none) :
    test (passed ++ before) x = .ok none := by
  induction before generalizing passed with
  | nil =>
    obtain ⟨_, -, hr⟩ | ⟨hx, -⟩ := (scan_cons ..).mp h
    · cases hr
    · simpa using hx
  | cons y before ih =>
    obtain ⟨_, -, hr⟩ | ⟨-, hr⟩ := (scan_cons ..).mp h
    · cases hr
    · simpa using ih hr

theorem scan_some_iff {rest passed i b} : scan test passed rest = .ok (some (i, b)) ↔
      ∃ before x after, rest = before ++ x :: after ∧ i = passed.length + before.length ∧
        test (passed ++ before) x = .ok (some b) ∧
        ∀ p y q, before = p ++ y :: q → test (passed ++ p) y = .ok none := by
  induction rest generalizing passed with
  | nil => simp [scan]
  | cons y rest ih =>
    rw [scan_cons]
    constructor
    · rintro (⟨c, hy, hr⟩ | ⟨hy, hre⟩)
      · cases hr
        exact ⟨[], y, rest, rfl, by simp, by simpa using hy, by simp⟩
      · obtain ⟨before, x, after, rfl, hi, hx, hp⟩ := ih.mp hre
        refine ⟨y :: before, x, after, rfl, by simp [hi]; omega, by simpa using hx, ?_⟩
        intro p z q h
        cases p with
        | nil => obtain ⟨rfl, rfl⟩ := List.cons.inj h; simpa using hy
        | cons w p => obtain ⟨rfl, rfl⟩ := List.cons.inj h; simpa using hp p z q rfl
    · rintro ⟨before, x, after, hr, hi, hx, hp⟩
      cases before with
      | nil =>
        obtain ⟨rfl, rfl⟩ := List.cons.inj hr
        exact .inl ⟨b, by simpa using hx, by simp [hi]⟩
      | cons z before =>
        obtain ⟨rfl, rfl⟩ := List.cons.inj hr
        refine .inr ⟨by simpa using hp [] y before rfl, ih.mpr ?_⟩
        refine ⟨before, x, after, rfl, by simp [hi]; omega, by simpa using hx, ?_⟩
        intro p w q h
        simpa using hp (y :: p) w q (by simp [h])

end

/-! ## Updating the first hit -/

section
variable {ε α β : Type}

/-- Replace the first element that passes `hit` by what `f` makes of it. -/
def updateFirst (hit : α → Bool) (missing : ε) (f : α → Except ε (α × β)) :
    List α → Except ε (List α × β)
  | [] => .error missing
  | x :: rest =>
    if hit x then do
      let (y, b) ← f x
      .ok (y :: rest, b)
    else do
      let (rest, b) ← updateFirst hit missing f rest
      .ok (x :: rest, b)

theorem updateFirst_ok {hit : α → Bool} {missing : ε} {f : α → Except ε (α × β)}
    {l l' : List α} {b : β} (h : updateFirst hit missing f l = .ok (l', b)) :
    ∃ before x y after, l = before ++ x :: after ∧ l' = before ++ y :: after ∧
      hit x = true ∧ f x = .ok (y, b) := by
  induction l generalizing l' with
  | nil => simp [updateFirst] at h
  | cons x rest ih =>
    rw [updateFirst] at h
    split at h
    · rename_i hx
      obtain ⟨⟨y, c⟩, hf, hr⟩ := of_bind h
      cases hr
      exact ⟨[], x, y, rest, rfl, rfl, hx, hf⟩
    · obtain ⟨⟨rest', c⟩, hre, hr⟩ := of_bind h
      cases hr
      obtain ⟨before, z, y, after, rfl, rfl, hz, hf⟩ := ih hre
      exact ⟨x :: before, z, y, after, rfl, rfl, hz, hf⟩

/-- The first element that passes `hit`, with the elements before and after it. -/
def splitFirst (hit : α → Bool) : List α → Option (List α × α × List α)
  | [] => none
  | x :: rest =>
    if hit x then some ([], x, rest)
    else (splitFirst hit rest).map fun (before, y, after) => (x :: before, y, after)

theorem splitFirst_some {hit : α → Bool} {l before after : List α} {x : α}
    (h : splitFirst hit l = some (before, x, after)) :
    l = before ++ x :: after ∧ hit x = true := by
  induction l generalizing before with
  | nil => cases h
  | cons y l ih =>
    unfold splitFirst at h
    split at h
    · rename_i hy
      cases h
      exact ⟨rfl, hy⟩
    · obtain ⟨⟨p, z, q⟩, hr, he⟩ := Option.map_eq_some_iff.mp h
      cases he
      obtain ⟨rfl, hx⟩ := ih hr
      exact ⟨rfl, hx⟩

theorem splitFirst_of {hit : α → Bool} {before after : List α} {x : α} (hx : hit x = true)
    (hb : ∀ y ∈ before, hit y = false) :
    splitFirst hit (before ++ x :: after) = some (before, x, after) := by
  induction before with
  | nil => simp [splitFirst, hx]
  | cons z before ih =>
    obtain ⟨hz, hb⟩ := forall_mem_cons.mp hb
    simp [splitFirst, hz, ih hb]

theorem splitFirst_none {hit : α → Bool} {l : List α} (h : splitFirst hit l = none) :
    ∀ x ∈ l, hit x = false := by
  induction l with
  | nil => simp
  | cons y l ih =>
    obtain ⟨hy, h⟩ := of_unless h
    exact forall_mem_cons.mpr ⟨by simpa using hy, ih (Option.map_eq_none_iff.mp h)⟩

/-- Replace the element at a position by what `f` makes of it. -/
def updateAt (f : α → Except ε α) : Nat → List α → Except ε (List α)
  | _, [] => .ok []
  | 0, x :: rest => do return (← f x) :: rest
  | i + 1, x :: rest => do return x :: (← updateAt f i rest)

theorem updateAt_eq_ok {f : α → Except ε α} {l l' : List α} {x : α} : ∀ {i : Nat}, l[i]? = some x →
      (updateAt f i l = .ok l' ↔ ∃ y, f x = .ok y ∧ l' = l.set i y) := by
  induction l generalizing l' with
  | nil => intro i hi; simp at hi
  | cons z l ih =>
    intro i hi
    cases i with
    | zero =>
      obtain rfl : z = x := by simpa using hi
      rw [updateAt, bind_eq_ok]
      simp only [pure_eq_ok, set_cons_zero]
      exact exists_congr fun y => and_congr_right fun _ => eq_comm
    | succ i =>
      rw [updateAt, bind_eq_ok]
      simp only [pure_eq_ok, ih (by simpa using hi), set_cons_succ]
      refine ⟨fun ⟨_, ⟨y, hy, he⟩, hl⟩ => ⟨y, hy, ?_⟩, fun ⟨y, hy, hl⟩ =>
        ⟨_, ⟨y, hy, rfl⟩, hl.symm⟩⟩
      rw [← hl, he]

theorem updateAt_rel {R : α → α → Prop} (hr : ∀ x, R x x) {f : α → Except ε α}
    (hf : ∀ x y, f x = .ok y → R x y) {l l' : List α} {i : Nat} (h : updateAt f i l = .ok l') :
    List.Forall₂ R l l' := by
  have hre : ∀ l : List α, List.Forall₂ R l l := fun l => forall₂_same.mpr fun x _ => hr x
  induction l generalizing i l' with
  | nil =>
    rw [updateAt] at h
    cases h
    exact .nil
  | cons x l ih =>
    cases i with
    | zero =>
      obtain ⟨y, hy, he⟩ := of_bind h
      cases he
      exact .cons (hf x y hy) (hre l)
    | succ i =>
      obtain ⟨rest, hrs, he⟩ := of_bind h
      cases he
      exact .cons (hr x) (ih hrs)

theorem mapM_rel {β : Type} {R : α → β → Prop} {f : α → Except ε β} {l : List α} {l' : List β}
    (hf : ∀ x ∈ l, ∀ y, f x = .ok y → R x y) (h : l.mapM f = .ok l') : List.Forall₂ R l l' := by
  induction l generalizing l' with
  | nil => cases h; exact .nil
  | cons x l ih =>
    rw [mapM_cons] at h
    obtain ⟨y, hy, h⟩ := of_bind h
    obtain ⟨rest, hr, he⟩ := of_bind h
    cases he
    exact .cons (hf x mem_cons_self y hy) (ih (fun z hz => hf z (mem_cons_of_mem x hz)) hr)

theorem updateAt_split {f : α → Except ε α} {before after l : List α} {x : α} :
    updateAt f before.length (before ++ x :: after) = .ok l ↔
      ∃ y, f x = .ok y ∧ l = before ++ y :: after := by
  rw [updateAt_eq_ok (x := x) (by simp)]
  simp

end

end Fallible
