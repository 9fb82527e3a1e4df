import Xv6.Lib.Bytes

/-!
# Lists of bytes in an array

A string of C lies in the bytes of an array, from an offset up to a null. `Holds` compares a part of
an array with a list, so that a program that changes bytes of the array in place can be followed on
lists.
-/

namespace Xv6

namespace Bytes

variable {n i o o' : ℕ} {b : Fin n → Byte} {x : Byte} {l l' : List Byte}

theorem get_put_of_ne (h : o ≠ i) : get (put b i x) o = get b o := by
  rw [get, get]
  split_ifs
  · exact if_neg h
  · rfl

theorem get_put_self (h : i < n) : get (put b i x) i = x := by
  rw [get, dif_pos h]
  exact if_pos rfl

/-- The bytes of `l` are in the array from offset `o` on. -/
def Holds (b : Fin n → Byte) : ℕ → List Byte → Prop
  | _, [] => True
  | o, x :: l => get b o = x ∧ Holds b (o + 1) l

@[simp] theorem holds_nil (b : Fin n → Byte) (o : ℕ) : Holds b o [] := trivial

@[simp] theorem holds_cons : Holds b o (x :: l) ↔ get b o = x ∧ Holds b (o + 1) l := Iff.rfl

/-- Two parts of an array, one after the other. -/
theorem holds_append : Holds b o (l ++ l') ↔ Holds b o l ∧ Holds b (o + l.length) l' := by
  induction l generalizing o with
  | nil => simp
  | cons x l ih =>
    rw [List.cons_append, holds_cons, holds_cons, ih, List.length_cons, and_assoc, Nat.add_assoc,
      Nat.add_comm 1]

theorem Holds.congr {b' : Fin n → Byte} (h : Holds b o l)
    (heq : ∀ i, o ≤ i → i < o + l.length → get b' i = get b i) : Holds b' o l := by
  induction l generalizing o with
  | nil => trivial
  | cons x l ih =>
    rw [List.length_cons] at heq
    refine ⟨(heq o le_rfl (by omega)).trans h.1, ih h.2 fun i ho hi => heq i ?_ ?_⟩
    · omega
    · omega

/-- A change of a byte elsewhere. -/
theorem Holds.put (h : Holds b o l) (hi : i < o ∨ o + l.length ≤ i) :
    Holds (Bytes.put b i x) o l :=
  h.congr fun _ _ _ => get_put_of_ne (by omega)

/-- What was written is there. -/
theorem holds_write (b : Fin n → Byte) (o : ℕ) (l : List Byte) (h : o + l.length ≤ n) :
    Holds (write b o l) o l := by
  have hget : ∀ i, o ≤ i → i < o + l.length → get (write b o l) i = l.getD (i - o) 0 := by
    intro i hlo hhi
    rw [get_write b o l (by omega), if_pos ⟨hlo, hhi⟩]
  generalize write b o l = b' at hget
  clear h
  induction l generalizing o with
  | nil => trivial
  | cons x l ih =>
    rw [List.length_cons] at hget
    refine ⟨?_, ih (o + 1) fun i hlo hhi => ?_⟩
    · rw [hget o le_rfl (by omega), Nat.sub_self, List.getD_cons_zero]
    · rw [hget i (by omega) (by omega), show i - o = i - (o + 1) + 1 by omega,
        List.getD_cons_succ]

/-- What is before the bytes that are written stays. -/
theorem Holds.write (h : Holds b o l) (ho : o + l.length ≤ o') :
    Holds (Bytes.write b o' l') o l := by
  refine h.congr fun i _ hi => ?_
  rw [get, get]
  split_ifs
  · exact if_neg (by rintro ⟨hlo, -⟩; simp only at hlo; omega)
  · rfl

/-- Reading a part of an array. -/
theorem Holds.read_eq (h : Holds b o l) : read b o l.length = l := by
  induction l generalizing o with
  | nil => rfl
  | cons x l ih =>
    have htail : (List.range l.length).map (fun j => get b (o + (j + 1))) = l := by
      refine Eq.trans ?_ (ih h.2)
      refine List.map_congr_left fun j _ => ?_
      rw [Nat.add_assoc, Nat.add_comm 1]
    rw [read, List.length_cons, List.range_succ_eq_map, List.map_cons, List.map_map,
      Nat.add_zero, h.1]
    exact congrArg (x :: ·) htail

/-! ### Strings -/

/-- At most `k` bytes from offset `o` on, up to a null. -/
def strFrom (b : Fin n → Byte) : ℕ → ℕ → List Byte
  | 0, _ => []
  | k + 1, o => if get b o = 0 then [] else get b o :: strFrom b k (o + 1)

/-- The string at offset `o`. -/
def str (b : Fin n → Byte) (o : ℕ) : List Byte := strFrom b (n - o) o

theorem Holds.strFrom_eq {k : ℕ} (h : Holds b o (l ++ [0])) (hl : (0 : Byte) ∉ l)
    (hk : l.length < k) : strFrom b k o = l := by
  induction l generalizing o k with
  | nil =>
    obtain ⟨k, rfl⟩ := Nat.exists_eq_succ_of_ne_zero (Nat.ne_of_gt hk)
    exact if_pos h.1
  | cons x l ih =>
    obtain ⟨k, rfl⟩ := Nat.exists_eq_succ_of_ne_zero (Nat.ne_of_gt (Nat.zero_lt_of_lt hk))
    have hx : get b o = x := h.1
    have hne : x ≠ 0 := fun h0 => hl (h0 ▸ List.mem_cons_self)
    rw [strFrom, hx, if_neg hne, ih h.2 (fun hmem => hl (List.mem_cons_of_mem _ hmem))
      (Nat.lt_of_succ_lt_succ hk)]

/-- **Reading a string**: the bytes before a null. -/
theorem Holds.str_eq (h : Holds b o (l ++ [0])) (hl : (0 : Byte) ∉ l) (ho : o + l.length < n) :
    str b o = l :=
  h.strFrom_eq hl (by omega)

end Bytes

end Xv6
