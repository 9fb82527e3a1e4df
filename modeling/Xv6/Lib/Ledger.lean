import Mathlib.Algebra.BigOperators.Group.Finset.Basic
import Mathlib.Algebra.BigOperators.Group.Finset.Piecewise
import Mathlib.Algebra.Order.BigOperators.Group.Finset
import Mathlib.Data.Multiset.AddSub
import Mathlib.Data.Set.Finite.Lattice
import Mathlib.Tactic.Abel

/-!
# A ledger of owned things

Who owns what, as an equation between multisets: the sum of all holdings is a fixed multiset with
no repetitions. Moving a thing from one holder to another keeps the sum, and because the total has
no repetitions two different holders never hold the same thing.
-/

namespace Xv6

open Function Multiset

namespace Ledger

variable {α ι : Type}

/-- The holding of an optional thing. -/
def ofOption : Option α → Multiset α
  | none => 0
  | some a => {a}

@[simp] theorem ofOption_none : ofOption (none : Option α) = 0 := rfl

@[simp] theorem ofOption_some (a : α) : ofOption (some a) = {a} := rfl

@[simp] theorem mem_ofOption {o : Option α} {a : α} : a ∈ ofOption o ↔ o = some a := by
  cases o with
  | none => simp [ofOption]
  | some b => simp only [ofOption, mem_singleton, Option.some.injEq]; exact eq_comm

/-- Every index of a finite type. Kept abstract on purpose: a sum over it is an equation to reason
with and is never computed, however many indices there are. -/
noncomputable def all (ι : Type) [Finite ι] : Finset ι :=
  (Set.toFinite (Set.univ : Set ι)).toFinset

instance finiteFin (n : ℕ) : Finite (Fin n) := inferInstance

@[simp] theorem mem_all [Finite ι] (i : ι) : i ∈ all ι := by simp [all]

theorem card_all [Fintype ι] : (all ι).card = Fintype.card ι := by
  rw [← Finset.card_univ]
  congr 1
  ext i
  simp

/-- The numbers below `n`, as abstract as `all`. -/
noncomputable def below (n : ℕ) : Finset ℕ := (Set.finite_lt_nat n).toFinset

@[simp] theorem mem_below {n i : ℕ} : i ∈ below n ↔ i < n := by simp [below]

theorem below_eq_range (n : ℕ) : below n = Finset.range n := by
  ext i
  simp

/-- What the left side holds the right side does not. -/
theorem not_mem_of_mem_left {a b : Multiset α} (h : (a + b).Nodup) {x : α} (hx : x ∈ a) :
    x ∉ b :=
  disjoint_left.mp (nodup_add.mp h).2.2 hx

/-- What the right side holds the left side does not. -/
theorem not_mem_of_mem_right {a b : Multiset α} (h : (a + b).Nodup) {x : α} (hx : x ∈ b) :
    x ∉ a := fun ha => not_mem_of_mem_left h ha hx

theorem nodup_left {a b : Multiset α} (h : (a + b).Nodup) : a.Nodup := (nodup_add.mp h).1

theorem nodup_right {a b : Multiset α} (h : (a + b).Nodup) : b.Nodup :=
  (nodup_add.mp h).2.1

/-- In a sum without repetitions a thing has one holder. -/
theorem eq_of_mem_sum [DecidableEq ι] {s : Finset ι} {f : ι → Multiset α}
    (h : (∑ i ∈ s, f i).Nodup) {i j : ι} (hi : i ∈ s) (hj : j ∈ s) {x : α} (hx : x ∈ f i)
    (hx' : x ∈ f j) : i = j := by
  by_contra hne
  rw [← Finset.add_sum_erase s f hi] at h
  have hj' : j ∈ s.erase i := Finset.mem_erase.mpr ⟨fun hh => hne hh.symm, hj⟩
  rw [← Finset.add_sum_erase _ f hj'] at h
  exact not_mem_of_mem_left h hx (mem_add.mpr (Or.inl hx'))

/-- Membership in one holding is membership in the sum. -/
theorem mem_sum_of_mem {s : Finset ι} {f : ι → Multiset α} {i : ι} (hi : i ∈ s) {x : α}
    (hx : x ∈ f i) : x ∈ ∑ j ∈ s, f j :=
  mem_sum.mpr ⟨i, hi, hx⟩

/-- Two families that agree away from `i` have sums that differ by what they have at `i`. -/
theorem sum_add_eq_of_agree {M : Type} [AddCommMonoid M] [DecidableEq ι] {s : Finset ι}
    {f g : ι → M} {i : ι} (hi : i ∈ s) (h : ∀ j ∈ s, j ≠ i → f j = g j) :
    ∑ j ∈ s, f j + g i = ∑ j ∈ s, g j + f i := by
  have herase : ∑ j ∈ s.erase i, f j = ∑ j ∈ s.erase i, g j :=
    Finset.sum_congr rfl fun j hj => h j (Finset.mem_of_mem_erase hj) (Finset.ne_of_mem_erase hj)
  rw [← Finset.add_sum_erase s f hi, ← Finset.add_sum_erase s g hi, herase]
  abel

/-! ### Pointers -/

/-- What the pointers of a table point to. -/
noncomputable def pointers [Finite ι] (t : ι → Option α) : Multiset α :=
  ∑ i ∈ all ι, ofOption (t i)

/-- A pointer is replaced. -/
theorem pointers_update [Finite ι] [DecidableEq ι] (t : ι → Option α) (i : ι) (o : Option α) :
    pointers (update t i o) + ofOption (t i) = pointers t + ofOption o := by
  have h := sum_add_eq_of_agree (f := fun j => ofOption (update t i o j))
    (g := fun j => ofOption (t j)) (mem_all i) fun j _ hj => by rw [update_of_ne hj]
  rwa [update_self] at h

/-- One pointer, and the others. -/
theorem exists_pointers_eq [Finite ι] (t : ι → Option α) (i : ι) :
    ∃ rest, pointers t = ofOption (t i) + rest := by
  classical
  exact ⟨_, (Finset.add_sum_erase _ (fun j => ofOption (t j)) (mem_all i)).symm⟩

/-- How many pointers point to a thing. -/
theorem count_pointers [Fintype ι] [DecidableEq α] (t : ι → Option α) (a : α) :
    (pointers t).count a = (Finset.univ.filter fun i => t i = some a).card := by
  have hall : all ι = Finset.univ := by
    ext i
    simp
  rw [pointers, Multiset.count_sum', hall, Finset.card_filter]
  refine Finset.sum_congr rfl fun i _ => ?_
  cases h : t i with
  | none => simp
  | some b =>
    by_cases hb : b = a
    · simp [hb]
    · have hb' : a ≠ b := fun hab => hb hab.symm
      simp [hb, hb']

end Ledger

end Xv6
