import Mathlib.Logic.Function.Basic
import Mathlib.Tactic.Common

/-!
# Programs that return or panic

A C function over a global state becomes a value of `Prog σ α`: from a state it either returns a
value and a new state, or stops the machine with a message. Nothing else can happen, so a program
is a function and a run of it is a function application.

## Two judgments in one

`Prog.wp x Q E s` says what happens when `x` is run from `s`: if it returns, `Q` holds of the
result, and if it panics, `E` holds of the message. Partial correctness is `E = fun _ => True` and
total correctness is `E = fun _ => False`; a caller that can only panic in known ways puts those
messages in `E`. Every rule below is stated once, for every `E`.
-/

namespace Xv6

/-- A sequential program over the state `σ`. It returns a value and the new state, or it panics
with a message. -/
def Prog (σ α : Type) : Type := σ → Except String (α × σ)

namespace Prog

variable {σ τ α β ι : Type}

/-- Return a value and leave the state alone. -/
protected def pure (a : α) : Prog σ α := fun s => .ok (a, s)

/-- Run `x`, then `f` on its value; a panic of `x` is a panic of the whole. -/
protected def bind (x : Prog σ α) (f : α → Prog σ β) : Prog σ β := fun s =>
  match x s with
  | .ok (a, s') => f a s'
  | .error e => .error e

instance : Monad (Prog σ) where
  pure := Prog.pure
  bind := Prog.bind

instance : LawfulMonad (Prog σ) := LawfulMonad.mk' _
  (fun x => by
    funext s
    change (match x s with | .ok (a, s') => .ok (a, s') | .error e => .error e) = x s
    cases x s <;> rfl)
  (fun _ _ => rfl)
  (fun x f g => by
    funext s
    change (match (match x s with | .ok (a, s') => f a s' | .error e => .error e) with
      | .ok (b, s') => g b s' | .error e => .error e) = Prog.bind x (fun a => Prog.bind (f a) g) s
    unfold Prog.bind
    cases x s <;> rfl)

/-- Stop the machine. -/
def panic (msg : String) : Prog σ α := fun _ => .error msg

/-- Read the state. -/
def get : Prog σ σ := fun s => .ok (s, s)

/-- Change the state. -/
def modify (f : σ → σ) : Prog σ Unit := fun s => .ok ((), f s)

/-- A part of a state: how to read it and how to put it back. -/
structure Part (τ σ : Type) where
  /-- Read the part. -/
  get : τ → σ
  /-- Replace the part. -/
  put : τ → σ → τ

/-- Run a program over a part of the state. -/
def zoom (l : Part τ σ) (x : Prog σ α) : Prog τ α := fun t =>
  match x (l.get t) with
  | .ok (a, s') => .ok (a, l.put t s')
  | .error e => .error e

/-- Run `f` on every element of a list, in order. -/
def forEach : List ι → (ι → Prog σ Unit) → Prog σ Unit
  | [], _ => pure ()
  | i :: rest, f => do
    f i
    forEach rest f

/-! ### What holds after a run -/

/-- If `x` returns from `s` then `Q` holds of its value and state; if it panics then `E` holds of
the message. -/
def wp (x : Prog σ α) (Q : α → σ → Prop) (E : String → Prop) (s : σ) : Prop :=
  match x s with
  | .ok (a, s') => Q a s'
  | .error e => E e

variable {x : Prog σ α} {Q Q' : α → σ → Prop} {E E' : String → Prop} {s s' : σ}

theorem wp_of_ok {a : α} (h : x s = .ok (a, s')) : wp x Q E s ↔ Q a s' := by
  simp only [wp, h]

theorem wp_of_error {e : String} (h : x s = .error e) : wp x Q E s ↔ E e := by
  simp only [wp, h]

/-- Reading a judgment at a run that returned. -/
theorem wp_ok {a : α} (hw : wp x Q E s) (h : x s = .ok (a, s')) : Q a s' :=
  (wp_of_ok h).mp hw

/-- Reading a judgment at a run that panicked. -/
theorem wp_error {e : String} (hw : wp x Q E s) (h : x s = .error e) : E e :=
  (wp_of_error h).mp hw

/-- A judgment that allows no panic gives a result. -/
theorem exists_of_wp (hw : wp x Q (fun _ => False) s) : ∃ a s', x s = .ok (a, s') ∧ Q a s' := by
  cases h : x s with
  | ok r => exact ⟨r.1, r.2, rfl, wp_ok hw h⟩
  | error e => exact (wp_error hw h).elim

/-- **Consequence.** -/
theorem wp_mono (hw : wp x Q E s) (hQ : ∀ a s', Q a s' → Q' a s') (hE : ∀ e, E e → E' e) :
    wp x Q' E' s := by
  cases h : x s with
  | ok r => exact (wp_of_ok h).mpr (hQ _ _ (wp_ok hw h))
  | error e => exact (wp_of_error h).mpr (hE _ (wp_error hw h))

/-- Consequence with the panics left as they are. -/
theorem wp_imp (hw : wp x Q E s) (hQ : ∀ a s', Q a s' → Q' a s') : wp x Q' E s :=
  wp_mono hw hQ fun _ he => he

/-- What holds of every result holds after a run that may panic. -/
theorem wp_of_forall (hQ : ∀ a s', Q a s') : wp x Q (fun _ => True) s := by
  cases h : x s with
  | ok r => exact (wp_of_ok h).mpr (hQ _ _)
  | error e => exact (wp_of_error h).mpr trivial

/-- Two judgments about one run, read together. -/
theorem wp_and (h : wp x Q E s) (h' : wp x Q' E' s) :
    wp x (fun a s' => Q a s' ∧ Q' a s') (fun e => E e ∧ E' e) s := by
  cases hx : x s with
  | ok r => exact (wp_of_ok hx).mpr ⟨wp_ok h hx, wp_ok h' hx⟩
  | error e => exact (wp_of_error hx).mpr ⟨wp_error h hx, wp_error h' hx⟩

@[simp] theorem wp_pure (a : α) : wp (pure a : Prog σ α) Q E s ↔ Q a s := Iff.rfl

@[simp] theorem wp_panic (msg : String) : wp (panic msg : Prog σ α) Q E s ↔ E msg := Iff.rfl

@[simp] theorem wp_get {Q : σ → σ → Prop} : wp get Q E s ↔ Q s s := Iff.rfl

@[simp] theorem wp_modify (f : σ → σ) {Q : Unit → σ → Prop} :
    wp (modify f) Q E s ↔ Q () (f s) := Iff.rfl

/-- **Sequencing.** -/
@[simp] theorem wp_bind (f : α → Prog σ β) {Q : β → σ → Prop} :
    wp (x >>= f) Q E s ↔ wp x (fun a s' => wp (f a) Q E s') E s := by
  change wp (Prog.bind x f) Q E s ↔ _
  cases h : x s with
  | ok r => rw [wp_of_ok h]; simp only [wp, Prog.bind, h]
  | error e => rw [wp_of_error h]; simp only [wp, Prog.bind, h]

/-- A test, and what follows its outcomes. -/
theorem wp_ite {c : Prop} [Decidable c] {y : Prog σ α} (hx : c → wp x Q E s)
    (hy : ¬c → wp y Q E s) : wp (if c then x else y) Q E s := by
  split_ifs with hc
  · exact hx hc
  · exact hy hc

/-- A call, and what follows it. -/
theorem wp_seq {f : α → Prog σ β} {R : β → σ → Prop} (hx : wp x Q E s)
    (hf : ∀ a s', Q a s' → wp (f a) R E s') : wp (x >>= f) R E s :=
  (wp_bind f).mpr (wp_imp hx hf)

/-- What holds after the rest, wherever it starts. -/
theorem wp_bind_of_forall {f : α → Prog σ β} {Q : β → σ → Prop}
    (hf : ∀ a s', wp (f a) Q (fun _ => True) s') : wp (x >>= f) Q (fun _ => True) s :=
  (wp_bind f).mpr (wp_of_forall hf)

/-- **A program over a part** sees only the part. -/
theorem zoom_ok {l : Part τ σ} {t : τ} {a : α} {s : σ} (h : x (l.get t) = .ok (a, s)) :
    zoom l x t = .ok (a, l.put t s) := by
  simp only [zoom, h]

@[simp] theorem wp_zoom (l : Part τ σ) {Q : α → τ → Prop} {t : τ} :
    wp (zoom l x) Q E t ↔ wp x (fun a s' => Q a (l.put t s')) E (l.get t) := by
  cases h : x (l.get t) with
  | ok r => rw [wp_of_ok h]; simp only [wp, zoom, h]
  | error e => rw [wp_of_error h]; simp only [wp, zoom, h]

instance decidableWp [∀ a s, Decidable (Q a s)] [∀ e, Decidable (E e)] : Decidable (wp x Q E s) :=
  match h : x s with
  | .ok r => decidable_of_iff (Q r.1 r.2) (wp_of_ok h).symm
  | .error e => decidable_of_iff (E e) (wp_of_error h).symm

/-- **Loops.** `I rest` is what holds before the elements of `rest` are processed. -/
theorem wp_forEach {f : ι → Prog σ Unit} {E : String → Prop} (I : List ι → σ → Prop)
    (hstep : ∀ i rest s, I (i :: rest) s → wp (f i) (fun _ s' => I rest s') E s) :
    ∀ {l : List ι} {s : σ}, I l s → wp (forEach l f) (fun _ s' => I [] s') E s := by
  intro l
  induction l with
  | nil => intro s h; exact h
  | cons i rest ih =>
    intro s h
    rw [forEach]
    exact wp_seq (hstep i rest s h) fun _ _ h' => ih h'

/-! ### What a program leaves alone -/

/-- Runs of `x` do not change what `f` observes. -/
def Leaves {β : Type} (f : σ → β) (x : Prog σ α) : Prop :=
  ∀ s, wp x (fun _ s' => f s' = f s) (fun _ => True) s

section Leaves

variable {o : σ → β}

theorem leaves_pure (a : α) : Leaves o (pure a : Prog σ α) := fun _ => rfl

theorem leaves_panic (msg : String) : Leaves o (panic msg : Prog σ α) := fun _ => trivial

theorem leaves_get {f : σ → Prog σ α} (hf : ∀ s, Leaves o (f s)) : Leaves o (get >>= f) := fun s =>
  hf s s

theorem leaves_modify {f : σ → σ} (h : ∀ s, o (f s) = o s) : Leaves o (modify f) := h

theorem leaves_bind {γ : Type} {x : Prog σ α} {f : α → Prog σ γ} (hx : Leaves o x)
    (hf : ∀ a, Leaves o (f a)) : Leaves o (x >>= f) := fun s =>
  (wp_bind f).mpr (wp_imp (hx s) fun a s' h => wp_imp (hf a s') fun _ _ h' => h'.trans h)

/-- A call, and a value that is returned after it. -/
theorem Leaves.ret {γ : Type} {x : Prog σ α} {f : α → γ} (hx : Leaves o x) :
    Leaves o (x >>= fun a => pure (f a)) :=
  leaves_bind hx fun _ => leaves_pure _

/-- A call that may fail. -/
theorem leaves_bind_option {γ : Type} {x : Prog σ (Option α)} {f : Option α → Prog σ γ}
    (hx : Leaves o x) (hnone : Leaves o (f none)) (hsome : ∀ a, Leaves o (f (some a))) :
    Leaves o (x >>= f) :=
  leaves_bind hx fun r => by
    cases r with
    | none => exact hnone
    | some a => exact hsome a

theorem leaves_ite {c : Prop} [Decidable c] {x y : Prog σ α} (hx : Leaves o x) (hy : Leaves o y) :
    Leaves o (if c then x else y) := by
  split
  · exact hx
  · exact hy

/-- An early return. -/
theorem leaves_guard {c : Prop} [Decidable c] {a : α} {y : Prog σ α} (hy : Leaves o y) :
    Leaves o (if c then pure a else y) :=
  leaves_ite (leaves_pure a) hy

theorem leaves_zoom {l : Part τ σ} {o : τ → β} (h : ∀ t s, o (l.put t s) = o t) (x : Prog σ α) :
    Leaves o (zoom l x) := by
  intro t
  rw [wp_zoom]
  cases hx : x (l.get t) with
  | ok r => exact (wp_of_ok hx).mpr (h t r.2)
  | error e => exact (wp_of_error hx).mpr trivial

theorem leaves_forEach {f : ι → Prog σ Unit} (hf : ∀ i, Leaves o (f i)) (l : List ι) :
    Leaves o (forEach l f) := by
  induction l with
  | nil => exact leaves_pure ()
  | cons i rest ih => exact leaves_bind (hf i) fun _ => ih

end Leaves

/-! ### Runs as equations

The same programs, computed rather than reasoned about. -/

/-- A run is known exactly. -/
theorem wp_self (x : Prog σ α) (s : σ) :
    wp x (fun a s' => x s = .ok (a, s')) (fun e => x s = .error e) s := by
  cases h : x s with
  | ok r => exact (wp_of_ok h).mpr rfl
  | error e => exact (wp_of_error h).mpr rfl

/-- Two runs are the same if one is judged to end as the other does. -/
theorem eq_of_wp {y : Prog σ α} {t : σ}
    (h : wp x (fun a s' => y t = .ok (a, s')) (fun e => y t = .error e) s) : x s = y t := by
  cases hx : x s with
  | ok r => exact (wp_ok h hx).symm
  | error e => exact (wp_error h hx).symm

/-- Total correctness for one result. -/
theorem wp_eq_iff {a : α} :
    wp x (fun r _ => r = a) (fun _ => False) s ↔ ∃ s', x s = .ok (a, s') := by
  constructor
  · intro h
    obtain ⟨r, s', hrun, rfl⟩ := exists_of_wp h
    exact ⟨s', hrun⟩
  · rintro ⟨s', hrun⟩
    exact (wp_of_ok hrun).mpr rfl

theorem bind_of_ok {f : α → Prog σ β} {a : α} (h : x s = .ok (a, s')) : (x >>= f) s = f a s' := by
  change Prog.bind x f s = _
  simp only [Prog.bind, h]

theorem bind_of_error {f : α → Prog σ β} {e : String} (h : x s = .error e) :
    (x >>= f) s = .error e := by
  change Prog.bind x f s = _
  simp only [Prog.bind, h]

theorem bind_ok_iff {f : α → Prog σ β} {b : β} {s s' : σ} :
    (x >>= f) s = .ok (b, s') ↔ ∃ a s₁, x s = .ok (a, s₁) ∧ f a s₁ = .ok (b, s') := by
  change Prog.bind x f s = .ok (b, s') ↔ _
  cases h : x s with
  | ok r =>
    simp only [Prog.bind, h]
    constructor
    · intro hf; exact ⟨r.1, r.2, rfl, hf⟩
    · rintro ⟨a, s₁, heq, hf⟩
      cases heq
      exact hf
  | error e => simp [Prog.bind, h]

end Prog

end Xv6
