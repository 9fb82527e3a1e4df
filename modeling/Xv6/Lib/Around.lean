import Mathlib.Data.List.FinRange
import Mathlib.Data.List.Rotate

/-!
# Going around a table

A loop that starts at some entry of a table and goes on to the next one, from the last entry back
to the first, visits the entries in circular order. What it sees on a full turn is a list, and where
the next turn starts only decides where that list is cut.
-/

namespace Xv6

namespace Around

variable {n : ℕ} {a b x : Fin n} {l m : List (Fin n)}

/-- The next entry, in a circle. -/
def next (a : Fin n) : Fin n := ⟨(a + 1) % n, Nat.mod_lt _ a.pos⟩

/-- The entries of a table in circular order, from `a` on. -/
def turn (a : Fin n) : List (Fin n) := (List.finRange n).rotate a

theorem length_turn (a : Fin n) : (turn a).length = n := by
  rw [turn, List.length_rotate, List.length_finRange]

theorem nodup_turn (a : Fin n) : (turn a).Nodup := List.nodup_rotate.mpr (List.nodup_finRange n)

theorem mem_turn (a b : Fin n) : b ∈ turn a := List.mem_rotate.mpr (List.mem_finRange b)

/-- The entries before `a`, then `a`, then those after it. -/
theorem finRange_split (a : Fin n) : List.finRange n
    = (List.finRange n).take a ++ a :: (List.finRange n).drop (a + 1) := by
  have ha : (a : ℕ) < (List.finRange n).length := by
    rw [List.length_finRange]
    exact a.isLt
  have hget : (List.finRange n)[(a : ℕ)] = a := List.getElem_finRange ha
  conv_lhs => rw [← List.take_append_drop a (List.finRange n), List.drop_eq_getElem_cons ha, hget]

theorem turn_eq (a : Fin n) :
    turn a = a :: ((List.finRange n).drop (a + 1) ++ (List.finRange n).take a) := by
  have hlen : ((List.finRange n).take a).length = a := by
    rw [List.length_take, List.length_finRange]
    exact min_eq_left a.isLt.le
  have hrot := List.rotate_append_length_eq ((List.finRange n).take a)
    (a :: (List.finRange n).drop (a + 1))
  rw [hlen, ← finRange_split] at hrot
  exact hrot

/-- The next turn begins one entry later and ends with the entry that it leaves out. -/
theorem turn_next (a : Fin n) : ∃ l, turn a = a :: l ∧ turn (next a) = l ++ [a] := by
  refine ⟨_, turn_eq a, ?_⟩
  have hrot : turn (next a) = (turn a).rotate 1 := by
    rw [turn, turn, List.rotate_rotate]
    have hmod := List.rotate_mod (List.finRange n) (a + 1)
    rw [List.length_finRange] at hmod
    exact hmod
  rw [hrot, turn_eq, List.rotate_cons_succ, List.rotate_zero]

/-- **The turn after a search.** It begins with what the search has not seen. -/
theorem turn_next_of_eq (h : turn a = l ++ x :: m) : turn (next x) = m ++ l ++ [x] := by
  induction l generalizing a m with
  | nil =>
    obtain ⟨r, hr, hnext⟩ := turn_next a
    obtain ⟨rfl, rfl⟩ := List.cons.inj (hr.symm.trans h)
    rw [hnext, List.append_nil]
  | cons b l ih =>
    rw [List.cons_append] at h
    obtain ⟨r, hr, hnext⟩ := turn_next a
    obtain ⟨rfl, rfl⟩ := List.cons.inj (hr.symm.trans h)
    have hmore : turn (next a) = l ++ x :: (m ++ [a]) := by
      rw [hnext, List.append_assoc, List.cons_append]
    rw [ih hmore]
    simp

/-! ### Walks -/

/-- A loop at entry `a` visits the entries of a list, one after the other, and stands at `b`. -/
def Walk : Fin n → List (Fin n) → Fin n → Prop
  | a, [], b => a = b
  | a, x :: l, b => x = a ∧ Walk (next a) l b

/-- A loop can visit the beginning of a turn. -/
theorem walk_of_turn_eq (h : turn a = l ++ m) : ∃ b, Walk a l b := by
  induction l generalizing a m with
  | nil => exact ⟨a, rfl⟩
  | cons x l ih =>
    rw [List.cons_append] at h
    obtain ⟨r, hr, hnext⟩ := turn_next a
    obtain ⟨rfl, rfl⟩ := List.cons.inj (hr.symm.trans h)
    obtain ⟨b, hb⟩ := ih (m := m ++ [a]) (by rw [hnext, List.append_assoc])
    exact ⟨b, rfl, hb⟩

theorem Walk.val : ∀ {l : List (Fin n)} {a b : Fin n}, Walk a l b →
    (b : ℕ) = (a + l.length) % n
  | [], a, b, h => by
    rw [← show a = b from h, List.length_nil, Nat.add_zero, Nat.mod_eq_of_lt a.isLt]
  | _ :: l, a, b, h => by
    rw [Walk.val h.2, next, Nat.mod_add_mod, List.length_cons, Nat.add_assoc, Nat.add_comm 1]

/-- **A full turn** comes back to where it started. -/
theorem walk_turn (a : Fin n) : Walk a (turn a) a := by
  obtain ⟨b, hb⟩ := walk_of_turn_eq (m := []) (List.append_nil (turn a)).symm
  have hval : b = a := by
    apply Fin.ext
    rw [hb.val, length_turn, Nat.add_mod_right, Nat.mod_eq_of_lt a.isLt]
  rw [hval] at hb
  exact hb

/-! ### Round robin -/

/-- The entries with a property in circular order, from the one after `a` on. -/
def members (p : Fin n → Bool) (a : Fin n) : List (Fin n) := (turn (next a)).filter p

/-- **Searching again after an entry that was found**: that entry is now the last one. -/
theorem members_of_head {p : Fin n → Bool} (h : (members p a).head? = some x) :
    members p x = (members p a).rotate 1 := by
  rw [members, List.head?_filter] at h
  obtain ⟨hx, l, m, hturn, hl⟩ := List.find?_eq_some_iff_append.mp h
  have hnone : l.filter p = [] := List.filter_eq_nil_iff.mpr fun y hy => by simpa using hl y hy
  rw [members, members, turn_next_of_eq hturn, hturn]
  simp [hnone, hx]

variable {α : Type} {y : α} {order visits : List α}

/-- `visits` goes through `order` from the beginning, round after round, and may end anywhere. -/
def Rounds (order visits : List α) : Prop :=
  ∀ k < visits.length, visits[k]? = order[k % order.length]?

theorem rounds_nil : Rounds order [] := fun _ hk => absurd hk (Nat.not_lt_zero _)

theorem Rounds.cons (hy : order.head? = some y) (h : Rounds (order.rotate 1) visits) :
    Rounds order (y :: visits) := by
  have hpos : 0 < order.length := List.length_pos_of_mem (List.mem_of_mem_head? hy)
  intro k hk
  cases k with
  | zero =>
    rw [Nat.zero_mod, ← List.head?_eq_getElem?, ← List.head?_eq_getElem?, hy]
    rfl
  | succ k =>
    have hlt : k % order.length < order.length := Nat.mod_lt _ hpos
    have hrest := h k (Nat.lt_of_succ_lt_succ hk)
    rw [List.length_rotate, List.getElem?_rotate hlt] at hrest
    rw [List.getElem?_cons_succ, hrest, Nat.mod_add_mod]

/-- **A stretch of one round's length** is a round, wherever it begins. -/
theorem Rounds.window (h : Rounds order visits) {k : ℕ} (hk : k + order.length ≤ visits.length) :
    (visits.drop k).take order.length = order.rotate k := by
  apply List.ext_getElem?
  intro i
  by_cases hi : i < order.length
  · rw [List.getElem?_take_of_lt hi, List.getElem?_drop, h (k + i) (by omega),
      List.getElem?_rotate hi, Nat.add_comm]
  · rw [List.getElem?_eq_none, List.getElem?_eq_none]
    · rw [List.length_rotate]
      exact not_lt.mp hi
    · exact (List.length_take_le _ _).trans (not_lt.mp hi)

end Around

end Xv6
