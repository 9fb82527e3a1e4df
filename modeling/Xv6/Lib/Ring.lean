import Mathlib.Data.Nat.ModEq
import Mathlib.Logic.Function.Basic
import Mathlib.Tactic.Common

/-!
# Ring buffers with free-running counters

A buffer of `size` cells and two counters of `w` bits. The counters are never reset: an element is
stored at the writer's counter modulo `size`, and both counters wrap at `2 ^ w`. The buffer is empty
when they are equal and full when the writer's is `size` ahead, both in wrapping arithmetic.

All this works because `size` divides `2 ^ w`, so that a counter that wraps goes on in the cell it
would have used anyway, and because `size < 2 ^ w`, so that full and empty are different.
-/

namespace Xv6

open Function

/-- A ring buffer of `size` cells with counters of `w` bits. -/
structure Ring (α : Type) (size w : ℕ) where
  data : Fin size → α
  /-- Number of elements read, modulo `2 ^ w`. -/
  nread : BitVec w
  /-- Number of elements written, modulo `2 ^ w`. -/
  nwrite : BitVec w

namespace Ring

variable {α : Type} {size w : ℕ} [NeZero size]

/-- There is nothing to read. -/
def isEmpty (r : Ring α size w) : Bool := r.nread == r.nwrite

/-- There is no room. -/
def isFull (r : Ring α size w) : Bool := r.nwrite == r.nread + BitVec.ofNat w size

/-- Write an element. -/
def push (r : Ring α size w) (a : α) : Ring α size w :=
  { r with
    data := update r.data (Fin.ofNat size r.nwrite.toNat) a
    nwrite := r.nwrite + 1#w }

/-- Writing in two steps: store the element … -/
def put (r : Ring α size w) (a : α) : Ring α size w :=
  { r with data := update r.data (Fin.ofNat size r.nwrite.toNat) a }

/-- … and let the reader see it. -/
def bump (r : Ring α size w) : Ring α size w := { r with nwrite := r.nwrite + 1#w }

/-- The cell that is written next. -/
def back (r : Ring α size w) : α := r.data (Fin.ofNat size r.nwrite.toNat)

theorem back_put (r : Ring α size w) (a : α) : (r.put a).back = a := by
  simp [put, back]

/-- The element that was written last. -/
def last (r : Ring α size w) : α := r.data (Fin.ofNat size (r.nwrite - 1#w).toNat)

/-- Take back the element that was written last. -/
def unpush (r : Ring α size w) : Ring α size w := { r with nwrite := r.nwrite - 1#w }

/-- The element to be read next. -/
def front (r : Ring α size w) : α := r.data (Fin.ofNat size r.nread.toNat)

/-- Done with the element that was read. -/
def pop (r : Ring α size w) : Ring α size w := { r with nread := r.nread + 1#w }

/-- Put back the element that was read last. -/
def unpop (r : Ring α size w) : Ring α size w := { r with nread := r.nread - 1#w }

omit [NeZero size] in
theorem unpop_pop (r : Ring α size w) : r.pop.unpop = r := by
  rw [unpop, pop, BitVec.add_sub_cancel]

/-- `sent` has been written to the buffer and `got` has been read from it, since the counters were
0. Cells outside the window between the two may hold anything. -/
structure Carries (r : Ring α size w) (sent got : List α) : Prop where
  nwrite : r.nwrite = BitVec.ofNat w sent.length
  nread : r.nread = BitVec.ofNat w got.length
  delivered : got <+: sent
  room : sent.length ≤ got.length + size
  data : ∀ j a, got.length ≤ j → sent[j]? = some a → r.data (Fin.ofNat size j) = a

/-- Counters that have wrapped still point to the right cell. -/
theorem cell_ofNat (hdvd : size ∣ 2 ^ w) (n : ℕ) :
    Fin.ofNat size (BitVec.ofNat w n).toNat = Fin.ofNat size n := by
  ext
  simp only [Fin.val_ofNat, BitVec.toNat_ofNat]
  exact Nat.mod_mod_of_dvd n hdvd

/-- Counters that are not too far apart are equal only if the numbers are. -/
theorem ofNat_add_inj {n d e : ℕ} (hd : d < 2 ^ w) (he : e < 2 ^ w) :
    BitVec.ofNat w (n + d) = BitVec.ofNat w (n + e) ↔ d = e := by
  constructor
  · intro h
    have hmod : n + d ≡ n + e [MOD 2 ^ w] := by
      simpa [Nat.ModEq] using congrArg BitVec.toNat h
    exact (Nat.ModEq.add_left_cancel' n hmod).eq_of_lt_of_lt hd he
  · rintro rfl
    rfl

section Carries

theorem carries_nil (data : Fin size → α) :
    Carries (⟨data, 0#w, 0#w⟩ : Ring α size w) [] [] :=
  ⟨rfl, rfl, List.prefix_rfl, Nat.zero_le _, fun j a _ hj => by simp at hj⟩

variable {r : Ring α size w} {sent got : List α} (h : r.Carries sent got)

include h

/-- How many elements are in the buffer. -/
theorem Carries.exists_length : ∃ d ≤ size, sent.length = got.length + d := by
  have hle := h.delivered.length_le
  have hroom := h.room
  exact ⟨sent.length - got.length, by omega, by omega⟩

theorem Carries.isEmpty_iff (hsize : size < 2 ^ w) :
    r.isEmpty = true ↔ sent.length = got.length := by
  obtain ⟨d, hd, hlen⟩ := h.exists_length
  have hinj := ofNat_add_inj (n := got.length) (d := 0) (Nat.two_pow_pos w) (hd.trans_lt hsize)
  rw [isEmpty, beq_iff_eq, h.nread, h.nwrite, hlen]
  simpa [eq_comm] using hinj

theorem Carries.isFull_iff (hsize : size < 2 ^ w) :
    r.isFull = true ↔ sent.length = got.length + size := by
  obtain ⟨d, hd, hlen⟩ := h.exists_length
  rw [isFull, beq_iff_eq, h.nread, h.nwrite, ← BitVec.ofNat_add, hlen,
    ofNat_add_inj (hd.trans_lt hsize) hsize]
  omega

/-- **The counters are as far apart as the lists.** -/
theorem Carries.distance (hsize : size < 2 ^ w) :
    (r.nwrite - r.nread).toNat = sent.length - got.length := by
  obtain ⟨d, hd, hlen⟩ := h.exists_length
  have hsub : r.nwrite - r.nread = BitVec.ofNat w d := by
    rw [h.nread, h.nwrite, hlen, BitVec.ofNat_add, BitVec.add_comm, BitVec.add_sub_cancel]
  rw [hsub, BitVec.toNat_ofNat, Nat.mod_eq_of_lt (hd.trans_lt hsize)]
  omega

/-- Storing an element in a buffer that has room disturbs nothing. -/
theorem Carries.put (hdvd : size ∣ 2 ^ w) (hroom : sent.length < got.length + size) (a : α) :
    (r.put a).Carries sent got := by
  have hcell : Fin.ofNat size r.nwrite.toNat = Fin.ofNat size sent.length := by
    rw [h.nwrite, cell_ofNat hdvd]
  refine ⟨h.nwrite, h.nread, h.delivered, h.room, fun j b hj hb => ?_⟩
  have hlt : j < sent.length := (List.getElem?_eq_some_iff.mp hb).1
  -- the cell is less than `size` away from those that are to be read
  have hne : Fin.ofNat size j ≠ Fin.ofNat size sent.length := by
    intro heq
    have hmod : j ≡ sent.length [MOD size] := by
      simpa [Nat.ModEq] using congrArg Fin.val heq
    have hle := Nat.le_of_dvd (by omega) ((Nat.modEq_iff_dvd' hlt.le).mp hmod)
    omega
  change update r.data (Fin.ofNat size r.nwrite.toNat) a (Fin.ofNat size j) = b
  rw [hcell, update_of_ne hne]
  exact h.data j b hj hb

/-- Letting the reader see the element that has been stored. -/
theorem Carries.bump (hdvd : size ∣ 2 ^ w) (hroom : sent.length < got.length + size) :
    r.bump.Carries (sent ++ [r.back]) got := by
  refine ⟨?_, h.nread, h.delivered.trans (List.prefix_append _ _), ?_, fun j b hj hb => ?_⟩
  · rw [Ring.bump, h.nwrite, List.length_append, List.length_singleton, BitVec.ofNat_add]
  · rw [List.length_append, List.length_singleton]
    exact hroom
  · rcases Nat.lt_trichotomy j sent.length with hlt | rfl | hgt
    · rw [List.getElem?_append_left hlt] at hb
      exact h.data j b hj hb
    · have hb : r.back = b := by simpa using hb
      rw [← hb, back, h.nwrite, cell_ofNat hdvd]
      rfl
    · rw [List.getElem?_eq_none (by simp; omega)] at hb
      exact absurd hb (by simp)

/-- **Writing** to a buffer that is not full. -/
theorem Carries.push (hdvd : size ∣ 2 ^ w) (hsize : size < 2 ^ w) (hfull : r.isFull = false)
    (a : α) : (r.push a).Carries (sent ++ [a]) got := by
  have hroom : sent.length < got.length + size :=
    lt_of_le_of_ne h.room fun heq => by
      rw [(h.isFull_iff hsize).mpr heq] at hfull
      nomatch hfull.symm
  have hput := (h.put hdvd hroom a).bump hdvd hroom
  rw [back_put] at hput
  exact hput

/-- The writer's counter before the element that was written last. -/
theorem Carries.nwrite_sub_one (hne : sent ≠ []) :
    r.nwrite - 1#w = BitVec.ofNat w (sent.length - 1) := by
  have hpos : 0 < sent.length := List.length_pos_iff.mpr hne
  obtain ⟨m, hm⟩ : ∃ m, sent.length = m + 1 := ⟨sent.length - 1, by omega⟩
  rw [h.nwrite, hm, BitVec.ofNat_add, BitVec.add_sub_cancel, Nat.add_sub_cancel]

/-- What was written last and has not been read. -/
theorem Carries.last_eq (hdvd : size ∣ 2 ^ w) (hlt : got.length < sent.length) :
    r.last = sent.getLast (List.length_pos_iff.mp (Nat.zero_lt_of_lt hlt)) := by
  have hne : sent ≠ [] := List.length_pos_iff.mp (Nat.zero_lt_of_lt hlt)
  rw [last, h.nwrite_sub_one hne, cell_ofNat hdvd, List.getLast_eq_getElem]
  exact h.data (sent.length - 1) _ (by omega) (List.getElem?_eq_getElem _)

/-- **Taking back** an element that has not been read. -/
theorem Carries.unpush (hlt : got.length < sent.length) : r.unpush.Carries sent.dropLast got := by
  have hne : sent ≠ [] := List.length_pos_iff.mp (Nat.zero_lt_of_lt hlt)
  refine ⟨?_, h.nread, ?_, ?_, fun j a hj ha => h.data j a hj ?_⟩
  · rw [List.length_dropLast]
    exact h.nwrite_sub_one hne
  · obtain ⟨rest, rfl⟩ := h.delivered
    rw [List.length_append] at hlt
    rw [List.dropLast_append_of_ne_nil (List.length_pos_iff.mp (by omega))]
    exact List.prefix_append _ _
  · rw [List.length_dropLast]
    exact (Nat.sub_le _ _).trans h.room
  · rw [List.dropLast_eq_take, List.getElem?_take] at ha
    split_ifs at ha
    exact ha

/-- What is read next is the first element that has not been read. -/
theorem Carries.front_eq (hdvd : size ∣ 2 ^ w) (hlt : got.length < sent.length) :
    r.front = sent[got.length] := by
  rw [front, h.nread, cell_ofNat hdvd]
  exact h.data got.length _ le_rfl (List.getElem?_eq_getElem hlt)

/-- **Reading** from a buffer that is not empty. -/
theorem Carries.pop (hdvd : size ∣ 2 ^ w) (hsize : size < 2 ^ w) (hempty : r.isEmpty = false) :
    r.pop.Carries sent (got ++ [r.front]) := by
  have hlt : got.length < sent.length :=
    lt_of_le_of_ne h.delivered.length_le fun heq => by
      rw [(h.isEmpty_iff hsize).mpr heq.symm] at hempty
      nomatch hempty.symm
  have hnext := h.front_eq hdvd hlt
  have hdelivered : got ++ [r.front] <+: sent := by
    obtain ⟨rest, rfl⟩ := h.delivered
    cases rest with
    | nil => exact absurd hlt (by simp)
    | cons a rest =>
      rw [hnext, List.getElem_append_right le_rfl]
      simp
  refine ⟨h.nwrite, ?_, hdelivered, ?_, fun j a hj => h.data j a ?_⟩
  · rw [Ring.pop, h.nread, List.length_append, List.length_singleton, BitVec.ofNat_add]
  · rw [List.length_append]
    have := h.room
    omega
  · rw [List.length_append] at hj
    omega

end Carries

end Ring

end Xv6
