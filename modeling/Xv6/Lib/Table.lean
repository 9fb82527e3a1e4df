import Mathlib.Data.List.FinRange
import Mathlib.Tactic.Common

/-!
# Fixed tables

A C array of fixed length that is used as a table is a function from `Fin n`. Two loops recur over
such tables: looking for the first entry with a property, and counting the entries that have one.
-/

namespace Xv6

namespace Table

variable {n : ℕ} {p q : Fin n → Bool} {i : Fin n}

/-- The first entry with a property. -/
def first (p : Fin n → Bool) : Option (Fin n) := (List.finRange n).find? p

/-- The number of entries with a property. -/
def count (p : Fin n → Bool) : ℕ := (List.finRange n).countP p

theorem first_eq_none : first p = none ↔ ∀ i, p i = false := by
  simp [first]

theorem of_first (h : first p = some i) : p i = true := List.find?_some h

theorem first_ne_none (h : p i = true) : first p ≠ none := by
  intro hnone
  rw [first_eq_none.mp hnone i] at h
  nomatch h

/-- The only entry with a property is found. -/
theorem first_of_unique (h : p i = true) (hu : ∀ j, p j = true → j = i) : first p = some i := by
  cases hf : first p with
  | none => exact absurd hf (first_ne_none h)
  | some j => rw [hu j (of_first hf)]

theorem first_congr (h : ∀ i, p i = q i) : first p = first q := by
  rw [show p = q from funext h]

theorem count_congr (h : ∀ i, p i = q i) : count p = count q := by
  rw [show p = q from funext h]

theorem count_mono (h : ∀ i, p i = true → q i = true) : count p ≤ count q :=
  List.countP_mono_left fun i _ => h i

/-- Two tables that differ in one entry. -/
theorem count_add (h : ∀ j, j ≠ i → p j = q j) :
    count p + (q i).toNat = count q + (p i).toNat := by
  obtain ⟨l, r, hl⟩ := List.append_of_mem (List.mem_finRange i)
  have hnd : (l ++ i :: r).Nodup := hl ▸ List.nodup_finRange n
  have hmem : i ∉ l ∧ i ∉ r := by
    rw [List.nodup_append, List.nodup_cons] at hnd
    exact ⟨fun hi => hnd.2.2 i hi i List.mem_cons_self rfl, hnd.2.1.1⟩
  have hside : ∀ {s : List (Fin n)}, i ∉ s → s.countP p = s.countP q := fun hi =>
    List.countP_congr fun j hj => by rw [h j (fun hji => hi (hji ▸ hj))]
  rw [count, count, hl, List.countP_append, List.countP_append, List.countP_cons,
    List.countP_cons, hside hmem.1, hside hmem.2]
  cases p i <;> cases q i <;> simp <;> omega

/-- Setting an entry that was not set. -/
theorem count_succ (h : ∀ j, j ≠ i → p j = q j) (hp : p i = true) (hq : q i = false) :
    count p = count q + 1 := by
  have := count_add h
  rw [hp, hq] at this
  simpa using this

theorem count_eq_zero : count p = 0 ↔ ∀ i, p i = false := by
  simp [count, List.countP_eq_zero]

theorem count_le (p : Fin n → Bool) : count p ≤ n := by
  simpa [count] using List.countP_le_length (p := p) (l := List.finRange n)

/-- A table is full when every entry has the property. -/
theorem count_eq_iff : count p = n ↔ ∀ i, p i = true := by
  have := List.countP_eq_length (p := p) (l := List.finRange n)
  simpa [count] using this

theorem count_lt_iff : count p < n ↔ ∃ i, p i = false := by
  rw [lt_iff_le_and_ne, and_iff_right (count_le p), Ne, count_eq_iff]
  simp

theorem count_pos_iff : 0 < count p ↔ ∃ i, p i = true := by
  rw [Nat.pos_iff_ne_zero, Ne, count_eq_zero]
  simp

/-- A table that is not full has a free entry. -/
theorem first_isSome_of_count_lt (h : count p < n) : ∃ i, first (fun j => !p j) = some i := by
  obtain ⟨i, hi⟩ := count_lt_iff.mp h
  exact Option.ne_none_iff_exists'.mp (first_ne_none (i := i) (by simp [hi]))

-- a search or a count is known by the lemmas above and never computed
attribute [irreducible] first count

end Table

end Xv6
