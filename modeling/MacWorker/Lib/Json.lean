import Mathlib.Data.List.Perm.Basic
import Mathlib.Data.List.Sort
import Mathlib.Data.String.Basic
import Mathlib.Tactic.IntervalCases

/-! # JSON values and their compact text

A value is a syntax tree whose objects keep their members in the order in which
they were given. A number is its own text: two numbers are the same exactly
when they are written the same. `render` is the compact text of a value, and
`render_injective` says that the text determines the value.

`canonical` sorts the members of every object by name. On values without
repeated names it forgets exactly the order of the members, at every depth
(`canonical_eq_iff`). -/
namespace Json
open List

def isNumberChar (c : Char) : Bool := c.isDigit || "-+.eE".toList.contains c

structure Number where
  text : List Char
  nonempty : text ≠ []
  chars : ∀ c ∈ text, isNumberChar c = true
  deriving DecidableEq

inductive Value where
  | null
  | bool (b : Bool)
  | num (n : Number)
  | str (s : String)
  | arr (items : List Value)
  | obj (members : List (String × Value))

def Number.ofNat (n : Nat) : Number where
  text := Nat.toDigits 10 n
  nonempty := Nat.toDigits_ne_nil
  chars := by
    intro c hc
    have hdigit := Nat.isDigit_of_mem_toDigits (by decide) (by decide) hc
    simp [isNumberChar, hdigit]

def Value.get (v : Value) (name : String) : Option Value :=
  match v with
  | .obj members => members.lookup name
  | _ => none

/-- A number without sign, fraction and exponent that fits 64 bits. -/
def Value.asU64 : Value → Option Nat
  | .num n =>
    if n.text.all Char.isDigit = true ∧ Nat.ofDigitChars 10 n.text 0 < 2 ^ 64 then
      some (Nat.ofDigitChars 10 n.text 0)
    else none
  | _ => none

/-! ## Text -/

def escape (c : Char) : List Char :=
  if c = '"' then ['\\', '"']
  else if c = '\\' then ['\\', '\\']
  else if c = '\n' then ['\\', 'n']
  else if c = '\r' then ['\\', 'r']
  else if c = '\t' then ['\\', 't']
  else if c = '\x08' then ['\\', 'b']
  else if c = '\x0c' then ['\\', 'f']
  else if c.toNat < 32 then
    ['\\', 'u', '0', '0', Nat.digitChar (c.toNat / 16), Nat.digitChar (c.toNat % 16)]
  else [c]

def renderString (s : String) : List Char := '"' :: (s.toList.flatMap escape ++ ['"'])

mutual

def render : Value → List Char
  | .null => "null".toList
  | .bool true => "true".toList
  | .bool false => "false".toList
  | .num n => n.text
  | .str s => renderString s
  | .arr items => '[' :: renderItems items
  | .obj members => '{' :: renderMembers members

def renderItems : List Value → List Char
  | [] => [']']
  | v :: vs => render v ++ renderMoreItems vs

def renderMoreItems : List Value → List Char
  | [] => [']']
  | v :: vs => ',' :: (render v ++ renderMoreItems vs)

def renderMembers : List (String × Value) → List Char
  | [] => ['}']
  | (name, v) :: ms => renderString name ++ ':' :: (render v ++ renderMoreMembers ms)

def renderMoreMembers : List (String × Value) → List Char
  | [] => ['}']
  | (name, v) :: ms => ',' :: (renderString name ++ ':' :: (render v ++ renderMoreMembers ms))

end

/-! ### Reading a text from the left

`render_cancel` is proved for a value followed by any text that does not go on
with a character of a number: this is what stands after a value inside an array
or an object, and at the end of the text. -/

/-- The first character a string literal stands for, and what follows it. -/
def unescape : List Char → Option (Char × List Char)
  | '\\' :: 'u' :: _ :: _ :: high :: low :: rest =>
    some (Char.ofNat (16 * "0123456789abcdef".toList.idxOf high +
      "0123456789abcdef".toList.idxOf low), rest)
  | '\\' :: 'n' :: rest => some ('\n', rest)
  | '\\' :: 'r' :: rest => some ('\r', rest)
  | '\\' :: 't' :: rest => some ('\t', rest)
  | '\\' :: 'b' :: rest => some ('\x08', rest)
  | '\\' :: 'f' :: rest => some ('\x0c', rest)
  | '\\' :: c :: rest => some (c, rest)
  | '"' :: _ => none
  | c :: rest => some (c, rest)
  | [] => none

theorem unescape_plain {c} (rest : List Char) (hq : c ≠ '"') (hb : c ≠ '\\') :
    unescape (c :: rest) = some (c, rest) := by
  unfold unescape
  split <;> simp_all

theorem unescape_control {n} (rest : List Char) (h : n < 32) :
    unescape (escape (Char.ofNat n) ++ rest) = some (Char.ofNat n, rest) := by
  interval_cases n <;> rfl

theorem unescape_escape (c : Char) (rest : List Char) :
    unescape (escape c ++ rest) = some (c, rest) := by
  by_cases hc : c.toNat < 32
  · have := unescape_control rest hc
    rwa [Char.ofNat_toNat] at this
  · by_cases hq : c = '"'
    · subst hq; rfl
    · by_cases hb : c = '\\'
      · subst hb; rfl
      · have hp : escape c = [c] := by
          have hne : ∀ d : Char, d.toNat < 32 → c ≠ d := fun d hd heq => hc (heq ▸ hd)
          simp [escape, hq, hb, hne '\n', hne '\r', hne '\t', hne '\x08', hne '\x0c', hc]
        rw [hp]
        exact unescape_plain rest hq hb

theorem escaped_cancel (cs ds : List Char) {x y}
    (h : cs.flatMap escape ++ '"' :: x = ds.flatMap escape ++ '"' :: y) : cs = ds ∧ x = y := by
  induction cs generalizing ds with
  | nil =>
    cases ds with
    | nil => simpa using h
    | cons d ds =>
      have := congrArg unescape h
      rw [flatMap_cons, append_assoc, unescape_escape] at this
      simp [unescape] at this
  | cons c cs ih =>
    have h' := congrArg unescape h
    rw [flatMap_cons, append_assoc, unescape_escape] at h'
    cases ds with
    | nil => simp [unescape] at h'
    | cons d ds =>
      rw [flatMap_cons, append_assoc, unescape_escape] at h'
      obtain ⟨rfl, hr⟩ := Prod.mk.inj (Option.some.inj h')
      obtain ⟨rfl, rfl⟩ := ih ds hr
      exact ⟨rfl, rfl⟩

theorem renderString_cancel {s t x y} (h : renderString s ++ x = renderString t ++ y) :
    s = t ∧ x = y := by
  simp only [renderString, cons_append, append_assoc, cons.injEq, true_and, nil_append] at h
  obtain ⟨hs, hx⟩ := escaped_cancel _ _ h
  exact ⟨String.toList_injective hs, hx⟩

/-- The text does not go on with a character of a number. -/
def Stops (rest : List Char) : Prop := ∀ c ∈ rest.head?, isNumberChar c = false

theorem stops_cons {c rest} (h : isNumberChar c = false) : Stops (c :: rest) := by
  intro d hd
  cases hd
  exact h

theorem number_cancel {cs ds x y} (hc : ∀ c ∈ cs, isNumberChar c = true)
    (hd : ∀ c ∈ ds, isNumberChar c = true) (hx : Stops x) (hy : Stops y) (h : cs ++ x = ds ++ y) :
    cs = ds ∧ x = y := by
  have ht : ∀ {cs x}, (∀ c ∈ cs, isNumberChar c = true) → Stops x →
      (cs ++ x).takeWhile isNumberChar = cs := by
    intro cs x hc hx
    rw [takeWhile_append_of_pos hc]
    cases x with
    | nil => simp
    | cons c x => simp [hx c rfl]
  obtain rfl := (ht hc hx).symm.trans ((congrArg _ h).trans (ht hd hy))
  exact ⟨rfl, append_cancel_left h⟩

/-- The kind of a value, as its first character gives it away. -/
def kind : Value → Nat
  | .null => 0
  | .bool _ => 1
  | .num _ => 2
  | .str _ => 3
  | .arr _ => 4
  | .obj _ => 5

def kindOf (c : Char) : Nat :=
  if c = 'n' then 0
  else if c = 't' ∨ c = 'f' then 1
  else if c = '"' then 3
  else if c = '[' then 4
  else if c = '{' then 5
  else 2

theorem kindOf_number {c} (h : isNumberChar c = true) : kindOf c = 2 := by
  have hne (d : Char) (hd : isNumberChar d = false) : c ≠ d := by
    rintro rfl
    simp [h] at hd
  simp [kindOf, hne 'n' (by decide), hne 't' (by decide), hne 'f' (by decide),
    hne '"' (by decide), hne '[' (by decide), hne '{' (by decide)]

theorem render_kind (v : Value) : ∃ c cs, render v = c :: cs ∧ kindOf c = kind v := by
  cases v with
  | null => exact ⟨_, _, by rw [render]; rfl, rfl⟩
  | bool b => cases b <;> exact ⟨_, _, by rw [render]; rfl, rfl⟩
  | num n =>
    cases ht : n.text with
    | nil => exact absurd ht n.nonempty
    | cons c cs =>
      have hc := n.chars c (by rw [ht]; exact mem_cons_self)
      exact ⟨c, cs, by rw [render, ht], kindOf_number hc⟩
  | str s => exact ⟨_, _, by rw [render]; rfl, rfl⟩
  | arr items => exact ⟨_, _, by rw [render], rfl⟩
  | obj members => exact ⟨_, _, by rw [render], rfl⟩

theorem kind_eq {v w x y} (h : render v ++ x = render w ++ y) : kind v = kind w := by
  obtain ⟨c, cs, hv, hk⟩ := render_kind v
  obtain ⟨d, ds, hw, hk'⟩ := render_kind w
  rw [hv, hw] at h
  obtain ⟨rfl, -⟩ := cons.inj h
  rw [← hk, ← hk']

theorem renderMoreItems_stops (vs : List Value) (x : List Char) :
    Stops (renderMoreItems vs ++ x) := by
  cases vs <;> rw [renderMoreItems] <;> exact stops_cons (by decide)

theorem renderMoreMembers_stops (ms : List (String × Value)) (x : List Char) :
    Stops (renderMoreMembers ms ++ x) := by
  rcases ms with _ | ⟨⟨name, v⟩, ms⟩ <;> rw [renderMoreMembers] <;> exact stops_cons (by decide)

theorem render_ne_close (v : Value) {x y : List Char} {c : Char} (hc : c = ']' ∨ c = '}') :
    render v ++ x ≠ c :: y := by
  intro h
  obtain ⟨d, ds, hv, hk⟩ := render_kind v
  rw [hv] at h
  obtain ⟨rfl, -⟩ := cons.inj h
  cases v with
  | num n =>
    have hd := n.chars d (by rw [render] at hv; rw [hv]; exact mem_cons_self)
    rcases hc with rfl | rfl <;> exact absurd hd (by decide)
  | _ => rcases hc with rfl | rfl <;> simp [kindOf, kind] at hk

theorem renderItems_more {vs ws x y} (h : renderItems vs ++ x = renderItems ws ++ y) :
    renderMoreItems vs ++ x = renderMoreItems ws ++ y := by
  match vs, ws with
  | [], [] => simpa [renderItems, renderMoreItems] using h
  | [], w :: ws =>
    rw [renderItems, renderItems, append_assoc] at h
    exact absurd h.symm (render_ne_close w (.inl rfl))
  | v :: vs, [] =>
    rw [renderItems, renderItems, append_assoc] at h
    exact absurd h (render_ne_close v (.inl rfl))
  | v :: vs, w :: ws => simpa [renderItems, renderMoreItems] using h

theorem renderMembers_more {ms ns x y} (h : renderMembers ms ++ x = renderMembers ns ++ y) :
    renderMoreMembers ms ++ x = renderMoreMembers ns ++ y := by
  match ms, ns with
  | [], [] => simpa [renderMembers, renderMoreMembers] using h
  | [], _ :: ns => simp [renderMembers, renderString] at h
  | _ :: ms, [] => simp [renderMembers, renderString] at h
  | _ :: ms, _ :: ns => simpa [renderMembers, renderMoreMembers] using h

mutual

theorem render_cancel (v w : Value) {x y} (hx : Stops x) (hy : Stops y)
    (h : render v ++ x = render w ++ y) : v = w ∧ x = y := by
  match v, w, kind_eq h with
  | .null, .null, _ => exact ⟨rfl, append_cancel_left h⟩
  | .bool true, .bool true, _ => exact ⟨rfl, append_cancel_left h⟩
  | .bool false, .bool false, _ => exact ⟨rfl, append_cancel_left h⟩
  | .bool true, .bool false, _ => exact absurd (cons.inj h).1 (by decide)
  | .bool false, .bool true, _ => exact absurd (cons.inj h).1 (by decide)
  | .num n, .num m, _ =>
    rw [render, render] at h
    obtain ⟨ht, rfl⟩ := number_cancel n.chars m.chars hx hy h
    cases n
    cases m
    cases ht
    exact ⟨rfl, rfl⟩
  | .str s, .str t, _ =>
    rw [render, render] at h
    obtain ⟨rfl, rfl⟩ := renderString_cancel h
    exact ⟨rfl, rfl⟩
  | .arr items, .arr items', _ =>
    rw [render, render] at h
    obtain ⟨rfl, rfl⟩ := renderMoreItems_cancel items items' (renderItems_more (cons.inj h).2)
    exact ⟨rfl, rfl⟩
  | .obj members, .obj members', _ =>
    rw [render, render] at h
    obtain ⟨rfl, rfl⟩ := renderMoreMembers_cancel members members'
      (renderMembers_more (cons.inj h).2)
    exact ⟨rfl, rfl⟩

theorem renderMoreItems_cancel (vs ws : List Value) {x y}
    (h : renderMoreItems vs ++ x = renderMoreItems ws ++ y) : vs = ws ∧ x = y := by
  match vs, ws with
  | [], [] => simpa [renderMoreItems] using h
  | [], w :: ws => simp [renderMoreItems] at h
  | v :: vs, [] => simp [renderMoreItems] at h
  | v :: vs, w :: ws =>
    rw [renderMoreItems, renderMoreItems, cons_append, cons_append, append_assoc, append_assoc] at h
    obtain ⟨rfl, hr⟩ := render_cancel v w (renderMoreItems_stops vs x)
      (renderMoreItems_stops ws y) (cons.inj h).2
    obtain ⟨rfl, rfl⟩ := renderMoreItems_cancel vs ws hr
    exact ⟨rfl, rfl⟩

theorem renderMoreMembers_cancel (ms ns : List (String × Value)) {x y}
    (h : renderMoreMembers ms ++ x = renderMoreMembers ns ++ y) : ms = ns ∧ x = y := by
  match ms, ns with
  | [], [] => simpa [renderMoreMembers] using h
  | [], (name, w) :: ns => simp [renderMoreMembers] at h
  | (name, v) :: ms, [] => simp [renderMoreMembers] at h
  | (name, v) :: ms, (name', w) :: ns =>
    rw [renderMoreMembers, renderMoreMembers, cons_append, cons_append,
      append_assoc, append_assoc] at h
    obtain ⟨rfl, hv⟩ := renderString_cancel (cons.inj h).2
    rw [cons_append, cons_append, append_assoc, append_assoc] at hv
    obtain ⟨rfl, hr⟩ := render_cancel v w (renderMoreMembers_stops ms x)
      (renderMoreMembers_stops ns y) (cons.inj hv).2
    obtain ⟨rfl, rfl⟩ := renderMoreMembers_cancel ms ns hr
    exact ⟨rfl, rfl⟩

end

/-- **The text of a value determines the value.** -/
theorem render_injective : Function.Injective render := by
  intro v w h
  have hs : Stops [] := nofun
  exact (render_cancel v w hs hs (by rw [h])).1

instance : DecidableEq Value := fun v w =>
  decidable_of_iff (render v = render w) render_injective.eq_iff

/-! ### The length of a text -/

def charsLen (cs : List Char) : Nat := (cs.map Char.utf8Size).sum

def textLen (v : Value) : Nat := charsLen (render v)

@[simp] theorem charsLen_nil : charsLen [] = 0 := rfl

@[simp] theorem charsLen_cons (c : Char) (cs : List Char) :
    charsLen (c :: cs) = c.utf8Size + charsLen cs := by simp [charsLen]

@[simp] theorem charsLen_append (cs ds : List Char) :
    charsLen (cs ++ ds) = charsLen cs + charsLen ds := by simp [charsLen]

theorem length_le_charsLen (cs : List Char) : cs.length ≤ charsLen cs := by
  induction cs with
  | nil => exact Nat.le_refl 0
  | cons c cs ih =>
    have hp := c.utf8Size_pos
    rw [charsLen_cons, length_cons]
    omega

def memberLen (m : String × Value) : Nat := charsLen (renderString m.1) + 1 + textLen m.2 + 1

theorem charsLen_renderMoreMembers (ms : List (String × Value)) :
    charsLen (renderMoreMembers ms) = 1 + (ms.map memberLen).sum := by
  induction ms with
  | nil => rw [renderMoreMembers]; rfl
  | cons m ms ih =>
    have hc : ':'.utf8Size = 1 := rfl
    have hco : ','.utf8Size = 1 := rfl
    rw [renderMoreMembers]
    simp only [charsLen_cons, charsLen_append, ih, hc, hco, map_cons, sum_cons, memberLen, textLen]
    omega

theorem textLen_obj_cons (m : String × Value) (ms : List (String × Value)) :
    textLen (.obj (m :: ms)) = 1 + ((m :: ms).map memberLen).sum := by
  have hc : ':'.utf8Size = 1 := rfl
  have hb : '{'.utf8Size = 1 := rfl
  rw [textLen, render, renderMembers]
  simp only [charsLen_cons, charsLen_append, charsLen_renderMoreMembers, hc, hb,
    map_cons, sum_cons, memberLen, textLen]
  omega

theorem escape_ne_nil (c : Char) : escape c ≠ [] := by
  unfold escape
  repeat' split
  all_goals exact cons_ne_nil _ _

theorem length_le_textLen_str (s : String) : s.length ≤ textLen (.str s) := by
  have hes : ∀ cs : List Char, cs.length ≤ (cs.flatMap escape).length := by
    intro cs
    induction cs with
    | nil => exact Nat.le_refl 0
    | cons c cs ih =>
      have hp := length_pos_of_ne_nil (escape_ne_nil c)
      rw [flatMap_cons, length_append, length_cons]
      omega
  have hr := length_le_charsLen (render (.str s))
  have hl := hes s.toList
  rw [render, renderString, length_cons, length_append] at hr
  rw [textLen, render, renderString]
  rw [String.length_toList] at hl
  omega

theorem charsLen_escape_le (c : Char) : charsLen (escape c) ≤ 6 := by
  have hd : ∀ n < 16, (Nat.digitChar n).utf8Size = 1 := by decide
  have hs := c.utf8Size_le_four
  unfold escape
  split_ifs with _ _ _ _ _ _ _ hc
  all_goals try decide
  · have hh := hd (c.toNat / 16) (by omega)
    have hl := hd (c.toNat % 16) (by omega)
    simp only [charsLen_cons, charsLen_nil, hh, hl]
    decide
  · rw [charsLen_cons, charsLen_nil]
    omega

theorem textLen_str_le (s : String) : textLen (.str s) ≤ 6 * s.length + 2 := by
  have hes : ∀ cs : List Char, charsLen (cs.flatMap escape) ≤ 6 * cs.length := by
    intro cs
    induction cs with
    | nil => exact Nat.le_refl 0
    | cons c cs ih =>
      have hc := charsLen_escape_le c
      rw [flatMap_cons, charsLen_append, length_cons]
      omega
  have hl := hes s.toList
  have hq : '"'.utf8Size = 1 := rfl
  rw [textLen, render, renderString, charsLen_cons, charsLen_append, charsLen_cons, charsLen_nil,
    hq]
  rw [String.length_toList] at hl
  omega

/-! ### Reading a text back

A reader opens a bounded number of nested containers, and reads a number as
the number it stands for, which may be written differently. -/

mutual

def reread (number : Number → Option Number) : Nat → Value → Option Value
  | _, .null => some .null
  | _, .bool b => some (.bool b)
  | _, .num n => (number n).map .num
  | _, .str s => some (.str s)
  | 0, .arr _ => none
  | depth + 1, .arr items => (rereadItems number depth items).map .arr
  | 0, .obj _ => none
  | depth + 1, .obj members => (rereadMembers number depth members).map .obj

def rereadItems (number : Number → Option Number) : Nat → List Value → Option (List Value)
  | _, [] => some []
  | depth, v :: vs => do return (← reread number depth v) :: (← rereadItems number depth vs)

def rereadMembers (number : Number → Option Number) :
    Nat → List (String × Value) → Option (List (String × Value))
  | _, [] => some []
  | depth, (name, v) :: ms => do
    return (name, ← reread number depth v) :: (← rereadMembers number depth ms)

end

mutual

/-- Where every number reads back as written, so does every value that can be read. -/
theorem reread_eq {number} (hn : ∀ n m, number n = some m → m = n) (depth : Nat) (v w : Value)
    (h : reread number depth v = some w) : w = v := by
  match depth, v with
  | _, .null => simpa [reread, eq_comm] using h
  | _, .bool b => simpa [reread, eq_comm] using h
  | _, .num n =>
    rw [reread] at h
    obtain ⟨m, hm, rfl⟩ := Option.map_eq_some_iff.mp h
    rw [hn n m hm]
  | _, .str s => simpa [reread, eq_comm] using h
  | 0, .arr items => simp [reread] at h
  | depth + 1, .arr items =>
    rw [reread] at h
    obtain ⟨ws, hws, rfl⟩ := Option.map_eq_some_iff.mp h
    rw [rereadItems_eq hn depth items ws hws]
  | 0, .obj members => simp [reread] at h
  | depth + 1, .obj members =>
    rw [reread] at h
    obtain ⟨ns, hns, rfl⟩ := Option.map_eq_some_iff.mp h
    rw [rereadMembers_eq hn depth members ns hns]

theorem rereadItems_eq {number} (hn : ∀ n m, number n = some m → m = n) (depth : Nat)
    (vs ws : List Value) (h : rereadItems number depth vs = some ws) : ws = vs := by
  match vs with
  | [] => simpa [rereadItems, eq_comm] using h
  | v :: vs =>
    simp only [rereadItems, Option.bind_eq_bind, Option.bind_eq_some_iff, Option.pure_def,
      Option.some.injEq] at h
    obtain ⟨w, hw, us, hus, rfl⟩ := h
    rw [reread_eq hn depth v w hw, rereadItems_eq hn depth vs us hus]

theorem rereadMembers_eq {number} (hn : ∀ n m, number n = some m → m = n) (depth : Nat)
    (ms ns : List (String × Value)) (h : rereadMembers number depth ms = some ns) : ns = ms := by
  match ms with
  | [] => simpa [rereadMembers, eq_comm] using h
  | (name, v) :: ms =>
    simp only [rereadMembers, Option.bind_eq_bind, Option.bind_eq_some_iff, Option.pure_def,
      Option.some.injEq] at h
    obtain ⟨w, hw, us, hus, rfl⟩ := h
    rw [reread_eq hn depth v w hw, rereadMembers_eq hn depth ms us hus]

end

/-! ## Values up to the order of members -/

mutual

/-- No object, at any depth, gives two members the same name. -/
def UniqueNames : Value → Prop
  | .arr items => UniqueItems items
  | .obj members => (members.map Prod.fst).Nodup ∧ UniqueMembers members
  | _ => True

def UniqueItems : List Value → Prop
  | [] => True
  | v :: vs => UniqueNames v ∧ UniqueItems vs

def UniqueMembers : List (String × Value) → Prop
  | [] => True
  | (_, v) :: ms => UniqueNames v ∧ UniqueMembers ms

end

mutual

/-- The same value when the order of members does not count, at any depth. -/
def Same : Value → Value → Prop
  | .arr items, .arr items' => SameItems items items'
  | .obj members, .obj members' =>
    ∃ reordered, reordered.Perm members' ∧ SameMembers members reordered
  | .null, w => w = .null
  | .bool b, w => w = .bool b
  | .num n, w => w = .num n
  | .str s, w => w = .str s
  | _, _ => False

def SameItems : List Value → List Value → Prop
  | [], [] => True
  | v :: vs, w :: ws => Same v w ∧ SameItems vs ws
  | _, _ => False

def SameMembers : List (String × Value) → List (String × Value) → Prop
  | [], [] => True
  | (name, v) :: ms, (name', w) :: ns => name = name' ∧ Same v w ∧ SameMembers ms ns
  | _, _ => False

end

section
variable {α : Type} {key : α → String} {xs ys : List α}

def sortBy (key : α → String) (xs : List α) : List α := xs.mergeSort fun a b => key a ≤ key b

theorem sortBy_perm (xs : List α) : (sortBy key xs).Perm xs := mergeSort_perm _ _

theorem sortBy_sorted (xs : List α) : (sortBy key xs).Pairwise fun a b => key a ≤ key b := by
  have hs := @pairwise_mergeSort _ (fun a b => decide (key a ≤ key b))
    (fun a b c => by simpa using le_trans) (fun a b => by simpa using le_total (key a) (key b)) xs
  exact hs.imp fun h => of_decide_eq_true h

/-- With distinct names the order of the names fixes the order of the members. -/
theorem sortBy_eq (h : xs.Perm ys) (hu : (xs.map key).Nodup) : sortBy key xs = sortBy key ys := by
  have hp : (sortBy key xs).Perm (sortBy key ys) :=
    (sortBy_perm xs).trans (h.trans (sortBy_perm ys).symm)
  refine hp.eq_of_pairwise (fun a b ha hb hab hba => ?_) (sortBy_sorted xs) (sortBy_sorted ys)
  have ha' := (sortBy_perm xs).mem_iff.mp ha
  have hb' := h.mem_iff.mpr ((sortBy_perm ys).mem_iff.mp hb)
  exact inj_on_of_nodup_map hu ha' hb' (le_antisymm hab hba)

theorem sortBy_eq_iff (hu : (xs.map key).Nodup) : sortBy key xs = sortBy key ys ↔ xs.Perm ys := by
  refine ⟨fun h => ?_, fun h => sortBy_eq h hu⟩
  calc xs.Perm (sortBy key xs) := (sortBy_perm xs).symm
    _ = sortBy key ys := h
    List.Perm _ ys := sortBy_perm ys

end

mutual

def canonical : Value → Value
  | .arr items => .arr (canonicalItems items)
  | .obj members => .obj (sortBy Prod.fst (canonicalMembers members))
  | .null => .null
  | .bool b => .bool b
  | .num n => .num n
  | .str s => .str s

def canonicalItems : List Value → List Value
  | [] => []
  | v :: vs => canonical v :: canonicalItems vs

def canonicalMembers : List (String × Value) → List (String × Value)
  | [] => []
  | (name, v) :: ms => (name, canonical v) :: canonicalMembers ms

end

theorem canonicalMembers_eq_map (ms : List (String × Value)) :
    canonicalMembers ms = ms.map fun m => (m.1, canonical m.2) := by
  induction ms with
  | nil => rfl
  | cons m ms ih =>
    rw [canonicalMembers, map_cons, ih]

theorem canonicalMembers_names (ms : List (String × Value)) :
    (canonicalMembers ms).map Prod.fst = ms.map Prod.fst := by
  rw [canonicalMembers_eq_map, List.map_map]
  rfl

theorem perm_map_iff {α β : Type} {f : α → β} {xs : List β} {ys : List α} :
    xs.Perm (ys.map f) ↔ ∃ reordered : List α, xs = reordered.map f ∧ reordered.Perm ys :=
  Iff.of_eq (congrFun₂ (eq_map_comp_perm f).symm xs ys)

mutual

/-- **The canonical form forgets the order of members and nothing else.** -/
theorem canonical_eq_iff (v w : Value) (hu : UniqueNames v) :
    canonical v = canonical w ↔ Same v w := by
  match v with
  | .null => cases w <;> simp [canonical, Same]
  | .bool b => cases w <;> simp [canonical, Same, eq_comm]
  | .num n => cases w <;> simp [canonical, Same, eq_comm]
  | .str s => cases w <;> simp [canonical, Same, eq_comm]
  | .arr items =>
    cases w with
    | arr items' =>
      rw [canonical, canonical, Value.arr.injEq, Same]
      exact canonicalItems_eq_iff items items' (by rwa [UniqueNames] at hu)
    | _ => simp [canonical, Same]
  | .obj members =>
    rw [UniqueNames] at hu
    cases w with
    | obj members' =>
      have hn : ((canonicalMembers members).map Prod.fst).Nodup := by
        rw [canonicalMembers_names]
        exact hu.1
      rw [canonical, canonical, Value.obj.injEq, sortBy_eq_iff hn, Same]
      rw [canonicalMembers_eq_map members', perm_map_iff]
      refine exists_congr fun reordered => ?_
      rw [← canonicalMembers_eq_map, canonicalMembers_eq_iff members reordered hu.2]
      exact and_comm
    | _ => simp [canonical, Same]

theorem canonicalItems_eq_iff (vs ws : List Value) (hu : UniqueItems vs) :
    canonicalItems vs = canonicalItems ws ↔ SameItems vs ws := by
  match vs, ws with
  | [], [] => simp [canonicalItems, SameItems]
  | [], w :: ws => simp [canonicalItems, SameItems]
  | v :: vs, [] => simp [canonicalItems, SameItems]
  | v :: vs, w :: ws =>
    rw [UniqueItems] at hu
    rw [canonicalItems, canonicalItems, cons.injEq, SameItems,
      canonical_eq_iff v w hu.1, canonicalItems_eq_iff vs ws hu.2]

theorem canonicalMembers_eq_iff (ms ns : List (String × Value)) (hu : UniqueMembers ms) :
    canonicalMembers ms = canonicalMembers ns ↔ SameMembers ms ns := by
  match ms, ns with
  | [], [] => simp [canonicalMembers, SameMembers]
  | [], (name, w) :: ns => simp [canonicalMembers, SameMembers]
  | (name, v) :: ms, [] => simp [canonicalMembers, SameMembers]
  | (name, v) :: ms, (name', w) :: ns =>
    rw [UniqueMembers] at hu
    rw [canonicalMembers, canonicalMembers, cons.injEq, Prod.mk.injEq, SameMembers,
      canonical_eq_iff v w hu.1, canonicalMembers_eq_iff ms ns hu.2, and_assoc]

end

end Json
