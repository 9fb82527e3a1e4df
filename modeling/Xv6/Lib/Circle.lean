import Mathlib.Data.List.Basic
import Mathlib.Data.List.Nodup
import Mathlib.Logic.Function.Basic

/-!
# Circular doubly linked lists

A list threaded through its nodes by two pointers each, closed by a sentinel. Nodes are arbitrary;
the sentinel is `none`, so that "the node after the last one" and "no node" are the same thing and
the first node of the list is `List.head?` of its nodes.

What such a list stands for is a `List` of its nodes (`Circle.Order`). The relation is stated for
segments first (`Circle.Path`), because every operation cuts the circle at some place and glues the
segments together again.
-/

namespace Xv6

/-- The two pointers of every node and of the sentinel. -/
structure Circle (ν : Type) where
  next : Option ν → Option ν
  prev : Option ν → Option ν

namespace Circle

variable {ν : Type} {c c' : Circle ν} {x y z : Option ν} {b : ν} {xs ys : List ν}

/-- The same circle, the other way round. -/
def flip (c : Circle ν) : Circle ν := ⟨c.prev, c.next⟩

/-- A segment: the nodes `xs` lie between `x` and `z`. -/
def Path (c : Circle ν) : Option ν → List ν → Option ν → Prop
  | x, [], z => c.next x = z ∧ c.prev z = x
  | x, b :: xs, z => (c.next x = some b ∧ c.prev (some b) = x) ∧ Path c (some b) xs z

/-- **The nodes in order.** Every node occurs once. -/
structure Order (c : Circle ν) (xs : List ν) : Prop where
  nodup : xs.Nodup
  path : Path c none xs none

theorem path_append : Path c x (xs ++ b :: ys) z ↔ Path c x xs (some b) ∧ Path c (some b) ys z := by
  induction xs generalizing x with
  | nil => rfl
  | cons a xs ih => simp only [List.cons_append, Path, ih, and_assoc]

/-- A segment depends on the pointers that leave it to the right and to the left. -/
theorem Path.congr (h : Path c x xs z) (hnext : ∀ y, y = x ∨ y ∈ xs.map some → c'.next y = c.next y)
    (hprev : ∀ y, y = z ∨ y ∈ xs.map some → c'.prev y = c.prev y) : Path c' x xs z := by
  induction xs generalizing x with
  | nil =>
    obtain ⟨hx, hz⟩ := h
    exact ⟨(hnext x (Or.inl rfl)).trans hx, (hprev z (Or.inl rfl)).trans hz⟩
  | cons a xs ih =>
    obtain ⟨⟨hx, ha⟩, hrest⟩ := h
    refine ⟨⟨(hnext x (Or.inl rfl)).trans hx, (hprev (some a) (Or.inr (by simp))).trans ha⟩,
      ih hrest (fun y hy => hnext y (Or.inr ?_)) fun y hy => hprev y (hy.imp_right ?_)⟩
    · simpa using hy
    · intro hy
      simp only [List.map_cons, List.mem_cons]
      exact Or.inr hy

theorem Path.flip (h : Path c x xs z) : Path c.flip z xs.reverse x := by
  induction xs generalizing x with
  | nil => exact ⟨h.2, h.1⟩
  | cons a xs ih =>
    rw [List.reverse_cons]
    exact path_append.mpr ⟨ih h.2, h.1.2, h.1.1⟩

theorem Order.flip (h : c.Order xs) : c.flip.Order xs.reverse :=
  ⟨List.nodup_reverse.mpr h.nodup, h.path.flip⟩

theorem Path.next_eq (h : Path c x xs none) : c.next x = xs.head? := by
  cases xs with
  | nil => exact h.1
  | cons a xs => exact h.1.1

/-! ### Insertion and removal -/

section Operations

variable [DecidableEq ν]

/-- `x->next = y`. -/
def setNext (c : Circle ν) (x y : Option ν) : Circle ν :=
  { c with next := Function.update c.next x y }

/-- `x->prev = y`. -/
def setPrev (c : Circle ν) (x y : Option ν) : Circle ν :=
  { c with prev := Function.update c.prev x y }

/-- Insert a node behind the sentinel. -/
def push (c : Circle ν) (b : ν) : Circle ν :=
  let c := c.setNext (some b) (c.next none)
  let c := c.setPrev (some b) none
  let c := c.setPrev (c.next none) (some b)
  c.setNext none (some b)

/-- Take a node out. -/
def unlink (c : Circle ν) (b : ν) : Circle ν :=
  let c := c.setPrev (c.next (some b)) (c.prev (some b))
  c.setNext (c.prev (some b)) (c.next (some b))

theorem Order.push (h : c.Order xs) (hb : b ∉ xs) : (c.push b).Order (b :: xs) := by
  refine ⟨List.nodup_cons.mpr ⟨hb, h.nodup⟩, ?_⟩
  have hpath := h.path
  cases xs with
  | nil =>
    obtain ⟨hn, hp⟩ := hpath
    simp [Path, Circle.push, setNext, setPrev, hn]
  | cons a xs =>
    obtain ⟨⟨hn, -⟩, hrest⟩ := hpath
    have hab : a ≠ b := fun heq => hb (heq ▸ List.mem_cons_self)
    have ha : a ∉ xs := (List.nodup_cons.mp h.nodup).1
    refine ⟨?_, ?_, hrest.congr (fun y hy => ?_) fun y hy => ?_⟩
    · simp [Circle.push, setNext, setPrev, hn, hab.symm]
    · simp [Circle.push, setNext, setPrev, hn]
    · have hy' : y ≠ none ∧ y ≠ some b := by
        rcases hy with rfl | hy
        · simp [hab]
        · obtain ⟨w, hw, rfl⟩ := List.mem_map.mp hy
          refine ⟨Option.some_ne_none w, fun heq => hb ?_⟩
          rw [← Option.some.inj heq]
          exact List.mem_cons_of_mem _ hw
      simp [Circle.push, setNext, setPrev, hn, hy']
    · have hy' : y ≠ some a ∧ y ≠ some b := by
        rcases hy with rfl | hy
        · simp
        · obtain ⟨w, hw, rfl⟩ := List.mem_map.mp hy
          refine ⟨fun heq => ha ?_, fun heq => hb ?_⟩
          · rw [← Option.some.inj heq]
            exact hw
          · rw [← Option.some.inj heq]
            exact List.mem_cons_of_mem _ hw
      simp [Circle.push, setNext, setPrev, hn, hy']

/-- Insertion of all nodes of a list, one after the other. -/
theorem Order.foldl_push (h : c.Order xs) (hys : ys.Nodup) (hdisj : ∀ b ∈ ys, b ∉ xs) :
    (ys.foldl Circle.push c).Order (ys.reverse ++ xs) := by
  induction ys generalizing c xs with
  | nil => exact h
  | cons a ys ih =>
    obtain ⟨ha, hys⟩ := List.nodup_cons.mp hys
    rw [List.foldl_cons, List.reverse_cons, List.append_assoc]
    refine ih (h.push (hdisj a List.mem_cons_self)) hys fun b hb => ?_
    rw [List.singleton_append, List.mem_cons, not_or]
    exact ⟨fun heq => ha (heq ▸ hb), hdisj b (List.mem_cons_of_mem _ hb)⟩

omit [DecidableEq ν] in
/-- What is before the end of a segment is one of its nodes. -/
theorem Path.prev_mem {a : ν} (h : Path c x (a :: xs) z) : ∃ w ∈ a :: xs, c.prev z = some w := by
  induction xs generalizing x a with
  | nil => exact ⟨a, List.mem_cons_self, h.2.2⟩
  | cons d xs ih =>
    obtain ⟨w, hw, heq⟩ := ih h.2
    exact ⟨w, List.mem_cons_of_mem _ hw, heq⟩

theorem Path.unlink (h : Path c x (xs ++ b :: ys) none) (hnodup : (xs ++ b :: ys).Nodup)
    (hx : ∀ w ∈ xs ++ b :: ys, x ≠ some w) : Path (c.unlink b) x (xs ++ ys) none := by
  induction xs generalizing x with
  | nil =>
    obtain ⟨⟨hn, hp⟩, hrest⟩ := h
    have hb := hx b List.mem_cons_self
    cases ys with
    | nil =>
      obtain ⟨hn', -⟩ := hrest
      simp [Path, Circle.unlink, setNext, setPrev, hn', hp]
    | cons d ys =>
      obtain ⟨⟨hn', -⟩, htail⟩ := hrest
      obtain ⟨hbd, hd, -⟩ : b ∉ d :: ys ∧ d ∉ ys ∧ ys.Nodup := by simpa using hnodup
      have hbd' : b ≠ d := fun heq => hbd (heq ▸ List.mem_cons_self)
      refine ⟨?_, htail.congr (fun y hy => ?_) fun y hy => ?_⟩
      · simp [Circle.unlink, setNext, setPrev, hn', hp, hbd']
      · have hy' : y ≠ x := by
          rcases hy with rfl | hy
          · exact (hx d (by simp)).symm
          · obtain ⟨w, hw, rfl⟩ := List.mem_map.mp hy
            exact (hx w (by simp [hw])).symm
        simp [Circle.unlink, setNext, setPrev, hn', hp, hbd', hy']
      · have hy' : y ≠ some d := by
          rcases hy with rfl | hy
          · exact (Option.some_ne_none d).symm
          · obtain ⟨w, hw, rfl⟩ := List.mem_map.mp hy
            exact fun heq => hd (Option.some.inj heq ▸ hw)
        simp [Circle.unlink, setNext, setPrev, hn', hy']
  | cons a xs ih =>
    have hcut : Path c x (a :: xs) (some b) ∧ Path c (some b) ys none := path_append.mp h
    obtain ⟨⟨hn, hp⟩, hrest⟩ := h
    obtain ⟨ha, hnodup'⟩ := List.nodup_cons.mp hnodup
    refine ⟨?_, ih hrest hnodup' fun w hw heq => ha (Option.some.inj heq ▸ hw)⟩
    -- the two pointers that change belong to the neighbours of `b`
    obtain ⟨w, hw, hprev⟩ := hcut.1.prev_mem
    have hxw : x ≠ some w := hx w (List.mem_append_left _ hw)
    have hnext : ∀ w ∉ ys, some w ≠ c.next (some b) := by
      intro w hw heq
      rw [hcut.2.next_eq] at heq
      exact hw (List.mem_of_mem_head? heq.symm)
    have hnexta := hnext a fun hmem => ha (by simp [hmem])
    have hnextb := hnext b (List.nodup_cons.mp (List.nodup_append.mp hnodup').2.1).1
    simp [Circle.unlink, setNext, setPrev, hprev, hxw, hnexta, hn, hp, hnextb]

theorem Order.unlink (h : c.Order (xs ++ b :: ys)) : (c.unlink b).Order (xs ++ ys) :=
  ⟨h.nodup.sublist ((List.sublist_cons_self b ys).append_left xs),
    h.path.unlink h.nodup fun w _ => (Option.some_ne_none w).symm⟩

end Operations

/-! ### Search -/

/-- Follow `step` from a node to the sentinel and stop at the first node with `p`. The search of a
list of `fuel` nodes ends; otherwise there is no result. -/
def find (step : Option ν → Option ν) (p : ν → Bool) : ℕ → Option ν → Option (Option ν)
  | _, none => some none
  | 0, some _ => none
  | fuel + 1, some b => if p b then some (some b) else find step p fuel (step (some b))

theorem Path.find (h : Path c x xs none) (p : ν → Bool) {fuel : ℕ} (hfuel : xs.length ≤ fuel) :
    find c.next p fuel (c.next x) = some (xs.find? p) := by
  induction xs generalizing x fuel with
  | nil =>
    rw [h.1]
    cases fuel <;> rfl
  | cons a xs ih =>
    obtain ⟨fuel, rfl⟩ : ∃ n, fuel = n + 1 := ⟨fuel - 1, by simp at hfuel; omega⟩
    rw [h.1.1, Circle.find]
    by_cases ha : p a
    · simp [ha]
    · simp [ha, ih h.2 (Nat.le_of_succ_le_succ hfuel)]

theorem find_some {step : Option ν → Option ν} {p : ν → Bool} {fuel : ℕ}
    (h : find step p fuel x = some (some b)) : p b = true := by
  induction fuel generalizing x with
  | zero => cases x <;> simp [find] at h
  | succ fuel ih =>
    cases x with
    | none => simp [find] at h
    | some a =>
      rw [find] at h
      split_ifs at h with ha
      · cases h
        exact ha
      · exact ih h

theorem Order.find_next (h : c.Order xs) (p : ν → Bool) {fuel : ℕ} (hfuel : xs.length ≤ fuel) :
    find c.next p fuel (c.next none) = some (xs.find? p) :=
  h.path.find p hfuel

theorem Order.find_prev (h : c.Order xs) (p : ν → Bool) {fuel : ℕ} (hfuel : xs.length ≤ fuel) :
    find c.prev p fuel (c.prev none) = some (xs.reverse.find? p) :=
  h.flip.find_next p (by rwa [List.length_reverse])

end Circle

end Xv6
