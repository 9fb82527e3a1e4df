import Xv6.Lib.Word
import Mathlib.Tactic.Ring

/-!
# Little-endian numbers in byte arrays

Structures that lie in the bytes of a block: a field of `w` bytes at an offset holds a number below
`256 ^ w`. Fields of one structure have different widths, so offsets are counted in bytes.
-/

namespace Xv6

namespace Bytes

variable {n : ℕ} {b b' : Fin n → Byte} {w w' o o' x : ℕ}

/-- Byte `i`. There are no bytes beyond the end. -/
def get (b : Fin n → Byte) (i : ℕ) : Byte := if h : i < n then b ⟨i, h⟩ else 0

/-- Replace byte `i`. -/
def put (b : Fin n → Byte) (i : ℕ) (x : Byte) : Fin n → Byte :=
  fun j => if (j : ℕ) = i then x else b j

/-- The `m` bytes from offset `o` on. -/
def read (b : Fin n → Byte) (o m : ℕ) : List Byte := (List.range m).map fun j => get b (o + j)

/-- Put a list of bytes at offset `o`. -/
def write (b : Fin n → Byte) (o : ℕ) (bs : List Byte) : Fin n → Byte := fun j =>
  if o ≤ j ∧ j < o + bs.length then bs.getD (j - o) 0 else b j

/-- The number in the `w` bytes at offset `o`. -/
def load : ℕ → (Fin n → Byte) → ℕ → ℕ
  | 0, _, _ => 0
  | w + 1, b, o => (get b o).toNat + 256 * load w b (o + 1)

/-- Put `x` into the `w` bytes at offset `o`. -/
def store (w : ℕ) (b : Fin n → Byte) (o x : ℕ) : Fin n → Byte := fun i =>
  if o ≤ i ∧ i < o + w then BitVec.ofNat 8 (x / 256 ^ ((i : ℕ) - o)) else b i

theorem get_store_of_disjoint {i : ℕ} (h : i < o ∨ o + w ≤ i) :
    get (store w b o x) i = get b i := by
  rw [get, get]
  split_ifs with hi
  · exact if_neg (by simp only [not_and]; omega)
  · rfl

theorem get_write (b : Fin n → Byte) (o : ℕ) (bs : List Byte) {i : ℕ} (hi : i < n) :
    get (write b o bs) i
      = if o ≤ i ∧ i < o + bs.length then bs.getD (i - o) 0 else get b i := by
  rw [get, get, dif_pos hi, dif_pos hi, write]

theorem load_congr (h : ∀ k < w, get b (o + k) = get b' (o + k)) : load w b o = load w b' o := by
  induction w generalizing o with
  | zero => rfl
  | succ w ih =>
    rw [load, load, ih fun k hk => ?_]
    · rw [show get b o = get b' o from h 0 (Nat.succ_pos w)]
    · rw [show o + 1 + k = o + (k + 1) by ring]
      exact h (k + 1) (Nat.succ_lt_succ hk)

theorem load_zero (w o : ℕ) : load w (fun _ : Fin n => (0 : Byte)) o = 0 := by
  induction w generalizing o with
  | zero => rfl
  | succ w ih =>
    rw [load, ih, get]
    split_ifs <;> rfl

theorem load_store_of_disjoint (h : o' + w' ≤ o ∨ o + w ≤ o') :
    load w' (store w b o x) o' = load w' b o' :=
  load_congr fun k hk => get_store_of_disjoint (by omega)

/-- The digits of `x` from the `j`-th on. -/
theorem load_of_digits {j : ℕ} (h : ∀ k < w, get b (o + k) = BitVec.ofNat 8 (x / 256 ^ (j + k))) :
    load w b o = x / 256 ^ j % 256 ^ w := by
  induction w generalizing o j with
  | zero => simp [load, Nat.mod_one]
  | succ w ih =>
    have hrest : load w b (o + 1) = x / 256 ^ (j + 1) % 256 ^ w := ih fun k hk => by
      rw [show o + 1 + k = o + (k + 1) by ring, show j + 1 + k = j + (k + 1) by ring]
      exact h (k + 1) (Nat.succ_lt_succ hk)
    have hfirst : (get b o).toNat = x / 256 ^ j % 256 := by
      rw [show get b o = _ from h 0 (Nat.succ_pos w)]
      simp
    rw [load, hfirst, hrest, pow_succ 256 j, ← Nat.div_div_eq_div_mul, pow_succ' 256 w,
      Nat.mod_mul]

theorem load_store_self (h : o + w ≤ n) : load w (store w b o x) o = x % 256 ^ w := by
  rw [load_of_digits (j := 0) (x := x) fun k hk => ?_, pow_zero, Nat.div_one]
  rw [get, dif_pos (by omega), zero_add]
  refine (if_pos ⟨Nat.le_add_right o k, ?_⟩).trans ?_
  · show BitVec.ofNat 8 (x / 256 ^ (o + k - o)) = _
    rw [Nat.add_sub_cancel_left]
  · show o + k < o + w
    omega

/-! ### Arrays -/

/-- The `m` numbers of `w` bytes from offset `o` on. -/
def loads (w : ℕ) (b : Fin n → Byte) : ℕ → ℕ → List ℕ
  | _, 0 => []
  | o, m + 1 => load w b o :: loads w b (o + w) m

/-- Put numbers of `w` bytes from offset `o` on. -/
def stores (w : ℕ) : (Fin n → Byte) → ℕ → List ℕ → Fin n → Byte
  | b, _, [] => b
  | b, o, x :: xs => stores w (store w b o x) (o + w) xs

theorem load_stores_of_disjoint {xs : List ℕ} (h : o' + w' ≤ o) :
    load w' (stores w b o xs) o' = load w' b o' := by
  induction xs generalizing b o with
  | nil => rfl
  | cons x xs ih =>
    rw [stores, ih (by omega), load_store_of_disjoint (Or.inl h)]

theorem get_stores_of_disjoint {xs : List ℕ} {i : ℕ} (h : i < o ∨ o + w * xs.length ≤ i) :
    get (stores w b o xs) i = get b i := by
  induction xs generalizing b o with
  | nil => rfl
  | cons x xs ih =>
    rw [List.length_cons, Nat.mul_succ] at h
    rw [stores, ih (by omega), get_store_of_disjoint (by omega)]

theorem loads_stores_self {xs : List ℕ} (h : o + w * xs.length ≤ n) (hx : ∀ x ∈ xs, x < 256 ^ w) :
    loads w (stores w b o xs) o xs.length = xs := by
  induction xs generalizing b o with
  | nil => rfl
  | cons x xs ih =>
    have hlen : o + w + w * xs.length ≤ n := by
      rw [List.length_cons, Nat.mul_succ] at h
      omega
    rw [List.length_cons, loads, stores, load_stores_of_disjoint le_rfl,
      load_store_self (by omega), Nat.mod_eq_of_lt (hx x List.mem_cons_self),
      ih hlen fun y hy => hx y (List.mem_cons_of_mem _ hy)]

end Bytes

end Xv6
