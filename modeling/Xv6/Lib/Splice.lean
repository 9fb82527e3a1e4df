import Mathlib.Data.List.Basic
import Mathlib.Tactic.Common

/-!
# Writing into a list

A file is a list of bytes, and a write replaces a stretch of it, or extends it at the end. Writing
one piece after the other is the same as writing both at once.
-/

namespace Xv6

variable {α : Type} {l d e : List α} {off : ℕ}

/-- Put `d` at offset `off`. -/
def splice (l : List α) (off : ℕ) (d : List α) : List α := l.take off ++ d ++ l.drop (off + d.length)

theorem splice_nil (l : List α) (off : ℕ) : splice l off [] = l := by
  rw [splice, List.append_nil, List.length_nil, Nat.add_zero, List.take_append_drop]

theorem length_splice (h : off ≤ l.length) :
    (splice l off d).length = max l.length (off + d.length) := by
  rw [splice, List.length_append, List.length_append, List.length_take, List.length_drop]
  omega

theorem getElem?_splice (h : off ≤ l.length) (j : ℕ) :
    (splice l off d)[j]?
      = if off ≤ j ∧ j < off + d.length then d[j - off]? else l[j]? := by
  have htake : (l.take off).length = off := List.length_take_of_le h
  rw [splice, List.append_assoc]
  by_cases hlow : j < off
  · rw [List.getElem?_append_left (by omega), List.getElem?_take_of_lt hlow,
      if_neg fun hh => Nat.not_le.mpr hlow hh.1]
  · rw [List.getElem?_append_right (by omega), htake]
    by_cases hmid : j < off + d.length
    · rw [List.getElem?_append_left (by omega), if_pos ⟨Nat.le_of_not_lt hlow, hmid⟩]
    · rw [List.getElem?_append_right (by omega), List.getElem?_drop, if_neg fun hh => hmid hh.2]
      congr 1
      omega

/-- **The result of a write**, entry by entry. -/
theorem eq_splice (h : off ≤ l.length) (hlen : e.length = max l.length (off + d.length))
    (he : ∀ j < e.length, e[j]? = if off ≤ j ∧ j < off + d.length then d[j - off]? else l[j]?) :
    e = splice l off d := by
  refine List.ext_getElem? fun j => ?_
  rw [getElem?_splice h]
  rcases Nat.lt_or_ge j e.length with hj | hj
  · exact he j hj
  · rw [List.getElem?_eq_none hj, if_neg (by omega), List.getElem?_eq_none (by omega)]

/-- **Consecutive pieces.** -/
theorem splice_splice (h : off ≤ l.length) :
    splice (splice l off d) (off + d.length) e = splice l off (d ++ e) := by
  have hlen := length_splice (d := d) h
  refine eq_splice h ?_ fun j hj => ?_
  · rw [length_splice (by omega), hlen, List.length_append]
    omega
  · rw [getElem?_splice (by omega), getElem?_splice h, List.length_append]
    by_cases hright : off + d.length ≤ j ∧ j < off + d.length + e.length
    · rw [if_pos hright, if_pos (by omega), List.getElem?_append_right (by omega)]
      congr 1
      omega
    · rw [if_neg hright]
      by_cases hleft : off ≤ j ∧ j < off + d.length
      · rw [if_pos hleft, if_pos (by omega), List.getElem?_append_left (by omega)]
      · rw [if_neg hleft, if_neg (by omega)]

end Xv6
