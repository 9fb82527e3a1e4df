import Xv6.Lib.Prog
import Mathlib.Algebra.Group.Basic
import Mathlib.Tactic.Abel

/-!
# Programs that take and give back references

A reference count is right when it equals the number of references that exist. Some are in tables,
others in local variables of the code that is running, and only the sum is constant. `I s r` is to
say that the counts of state `s` are right if, besides those in tables, the references `r` exist.

A program that holds `h` when it starts and `g a` when it returns `a` *trades* `h` for `g a`. What
anybody else holds plays no part, so a judgment about a function can be used wherever the function
is called. Judgments compose like types: the rules below follow the shape of the code, and a missed
or a doubled release has no derivation.
-/

namespace Xv6

namespace Prog

variable {σ τ M α β ι : Type} [AddCommMonoid M] {I : σ → M → Prop}

/-- From `s`, the program trades `h` for `g a`, whatever others hold. -/
def TradesAt (I : σ → M → Prop) (s : σ) (h : M) (x : Prog σ α) (g : α → M) : Prop :=
  ∀ r, I s (h + r) → wp x (fun a s' => I s' (g a + r)) (fun _ => True) s

/-- The program trades `h` for `g a`. -/
def Trades (I : σ → M → Prop) (h : M) (x : Prog σ α) (g : α → M) : Prop :=
  ∀ s, TradesAt I s h x g

variable {h h' : M} {x : Prog σ α} {g g' : α → M}

theorem tradesAt_of_trades {s : σ} (hx : Trades I h x g) : TradesAt I s h x g := hx s

theorem trades_pure {a : α} (hh : h = g a) : Trades I h (pure a : Prog σ α) g := fun _ _ hI => by
  rwa [hh] at hI

theorem trades_panic (msg : String) : Trades I h (panic msg : Prog σ α) g :=
  fun _ _ _ => trivial

/-- **Sequencing.** -/
theorem tradesAt_bind {s : σ} {f : α → Prog σ β} {k : β → M} (hx : TradesAt I s h x g)
    (hf : ∀ a, Trades I (g a) (f a) k) : TradesAt I s h (x >>= f) k := fun r hI =>
  (wp_bind f).mpr (wp_imp (hx r hI) fun a s' hI' => hf a s' r hI')

@[inherit_doc tradesAt_bind]
theorem trades_bind {f : α → Prog σ β} {k : β → M} (hx : Trades I h x g)
    (hf : ∀ a, Trades I (g a) (f a) k) : Trades I h (x >>= f) k := fun s =>
  tradesAt_bind (hx s) hf

theorem trades_get {f : σ → Prog σ β} {k : β → M} (hf : ∀ s, TradesAt I s h (f s) k) :
    Trades I h (get >>= f) k := hf

theorem tradesAt_ite {s : σ} {c : Prop} [Decidable c] {y : Prog σ α} (hx : c → TradesAt I s h x g)
    (hy : ¬c → TradesAt I s h y g) : TradesAt I s h (if c then x else y) g := by
  split
  · exact hx ‹c›
  · exact hy ‹¬c›

theorem trades_ite {c : Prop} [Decidable c] {y : Prog σ α} (hx : Trades I h x g)
    (hy : Trades I h y g) : Trades I h (if c then x else y) g := fun s =>
  tradesAt_ite (fun _ => hx s) fun _ => hy s

/-- Only the sums matter. -/
theorem Trades.congr (hx : Trades I h x g) (hh : h' = h) (hg : ∀ a, g' a = g a) :
    Trades I h' x g' := by
  rw [hh, show g' = g from funext hg]
  exact hx

/-- **Frame.** What is held throughout. -/
theorem TradesAt.frame {s : σ} (hx : TradesAt I s h x g) (k : M) :
    TradesAt I s (h + k) x (fun a => g a + k) := fun r hI => by
  rw [add_assoc] at hI
  refine wp_imp (hx (k + r) hI) fun a s' hI' => ?_
  rwa [add_assoc]

@[inherit_doc TradesAt.frame]
theorem Trades.frame (hx : Trades I h x g) (k : M) : Trades I (h + k) x (fun a => g a + k) :=
  fun s => (hx s).frame k

/-- **A call** by code that holds `j` as well, and what follows. -/
theorem trades_call {f : α → Prog σ β} {k : β → M} (hx : Trades I h x g) (j : M) (hh : h' = h + j)
    (hf : ∀ a, Trades I (g a + j) (f a) k) : Trades I h' (x >>= f) k := by
  rw [hh]
  exact trades_bind (hx.frame j) hf

/-- Code that leaves alone what the counts depend on. -/
theorem Leaves.trades {o : σ → β} (hx : Leaves o x)
    (hI : ∀ s s' r, o s' = o s → I s r → I s' r) : Trades I h x fun _ => h := fun s _ hr =>
  wp_imp (hx s) fun _ s' ho => hI s s' _ ho hr

end Prog

end Xv6
