import Xv6.Lib.Bytes
import Xv6.Lib.Splice
import Mathlib.Data.List.GetD
import Mathlib.Data.Finset.Card
import Mathlib.Data.Finset.Range
import Mathlib.Algebra.Order.Interval.Finset.SuccPred
import Mathlib.Data.Nat.SuccPred
import Mathlib.Order.Interval.Finset.Nat

/-!
# Files in blocks

Files whose bytes are kept in numbered blocks. A file has an address for each of its blocks and one
for a block in which it keeps further addresses; the address 0 means that there is no block. A block
that is not there reads as zeros, so giving a file a new block that is zero changes no file.

Files do not get in each other's way because no block is at two places. `Storage.Sound` says so, and
that a block at a place is marked as used, so that a block that is not used is at no place.
-/

namespace Xv6

open Function

/-- A place where a file keeps an address: that of a block, or that of the block with further
addresses. -/
inductive Site
  | block (bn : ℕ)
  | table

/-- Files in blocks of `B` bytes. -/
@[ext]
structure Storage (ι : Type) (B : ℕ) where
  /-- Whether there is a file. -/
  live : ι → Bool
  size : ι → ℕ
  /-- The address of a block of a file. -/
  blk : ι → ℕ → ℕ
  /-- The address of the block with further addresses. -/
  ind : ι → ℕ
  used : ℕ → Bool
  data : ℕ → Fin B → Byte

namespace Storage

variable {ι : Type} {B : ℕ} {S S' S'' : Storage ι B} {i j : ι} {p q : Site} {b lo hi : ℕ}

/-- The address at a place. -/
def addr (S : Storage ι B) (i : ι) : Site → ℕ
  | .block bn => S.blk i bn
  | .table => S.ind i

/-- Byte `x` of a file. -/
def byte (S : Storage ι B) (i : ι) (x : ℕ) : Byte :=
  if S.blk i (x / B) = 0 then 0 else Bytes.get (S.data (S.blk i (x / B))) (x % B)

/-- What is in a file. -/
def contents (S : Storage ι B) (i : ι) : List Byte := (List.range (S.size i)).map (S.byte i)

theorem length_contents (S : Storage ι B) (i : ι) : (S.contents i).length = S.size i := by
  rw [contents, List.length_map, List.length_range]

theorem getElem?_contents {x : ℕ} (hx : x < S.size i) :
    (S.contents i)[x]? = some (S.byte i x) := by
  rw [contents, List.getElem?_map, List.getElem?_range hx, Option.map_some]

/-- A part of a file. -/
theorem take_drop_contents (S : Storage ι B) (i : ι) (off n : ℕ) :
    ((S.contents i).drop off).take n
      = (List.range (min n (S.size i - off))).map fun k => S.byte i (off + k) := by
  rw [contents, ← List.map_drop, ← List.map_take]
  refine List.ext_getElem (by simp) fun k hk hk' => ?_
  simp

/-- **No block is at two places.** Blocks at places are used and are in the range from `lo` to `hi`,
and all blocks below `lo` are used for something else. -/
structure Sound (S : Storage ι B) (lo hi : ℕ) : Prop where
  own : ∀ i p, S.live i = true → S.addr i p ≠ 0 →
    lo ≤ S.addr i p ∧ S.addr i p < hi ∧ S.used (S.addr i p) = true
  inj : ∀ i p j q, S.live i = true → S.live j = true → S.addr i p ≠ 0 →
    S.addr i p = S.addr j q → i = j ∧ p = q
  reserved : ∀ b < lo, S.used b = true

/-- A used block that is at no place. -/
structure Fresh (S : Storage ι B) (lo hi b : ℕ) : Prop where
  low : lo ≤ b
  high : b < hi
  used : S.used b = true
  unowned : ∀ i p, S.live i = true → S.addr i p ≠ b

/-- A block that is not used is at no place. -/
theorem Sound.addr_ne (h : S.Sound lo hi) (hb : S.used b = false) (hi' : S.live i = true)
    (hpos : b ≠ 0) : S.addr i p ≠ b := by
  rintro rfl
  rw [(h.own i p hi' hpos).2.2] at hb
  exact absurd hb Bool.false_ne_true.symm

theorem Sound.low_of_unused (h : S.Sound lo hi) (hb : S.used b = false) : lo ≤ b := by
  by_contra hlt
  rw [h.reserved b (Nat.lt_of_not_le hlt)] at hb
  exact absurd hb Bool.false_ne_true.symm

/-! ### Operations -/

/-- Take a block for use, with zeros in it. -/
def take (S : Storage ι B) (b : ℕ) : Storage ι B :=
  { S with used := update S.used b true, data := update S.data b fun _ => 0 }

/-- Write a block. -/
def put (S : Storage ι B) (b : ℕ) (x : Fin B → Byte) : Storage ι B :=
  { S with data := update S.data b x }

section Point

variable [DecidableEq ι]

/-- Put an address at a place. -/
def point (S : Storage ι B) (i : ι) : Site → ℕ → Storage ι B
  | .block bn, b => { S with blk := update S.blk i (update (S.blk i) bn b) }
  | .table, b => { S with ind := update S.ind i b }

/-- Change the size of a file. -/
def resize (S : Storage ι B) (i : ι) (n : ℕ) : Storage ι B :=
  { S with size := update S.size i n }

theorem addr_point_self : (S.point i p b).addr i p = b := by
  cases p with
  | block bn => simp [addr, point]
  | table => simp [addr, point]

theorem addr_point_of_ne (S : Storage ι B) {i j : ι} {p q : Site} (b : ℕ) (h : ¬(j = i ∧ q = p)) :
    (S.point i p b).addr j q = S.addr j q := by
  by_cases hj : j = i
  · subst hj
    have hq : q ≠ p := fun hq => h ⟨rfl, hq⟩
    cases p with
    | block bn =>
      cases q with
      | block bn' =>
        have hbn : bn' ≠ bn := fun hbn => hq (congrArg _ hbn)
        simp [addr, point, hbn]
      | table => rfl
    | table =>
      cases q with
      | block bn' => rfl
      | table => exact absurd rfl hq
  · cases p with
    | block bn =>
      cases q with
      | block bn' => simp [addr, point, hj]
      | table => rfl
    | table =>
      cases q with
      | block bn' => rfl
      | table => simp [addr, point, hj]

@[simp] theorem live_point : (S.point i p b).live = S.live := by
  cases p <;> rfl

@[simp] theorem size_point : (S.point i p b).size = S.size := by
  cases p <;> rfl

@[simp] theorem used_point : (S.point i p b).used = S.used := by
  cases p <;> rfl

@[simp] theorem data_point : (S.point i p b).data = S.data := by
  cases p <;> rfl

/-- **Putting a fresh block at a place.** -/
theorem Sound.point (h : S.Sound lo hi) (hb : S.Fresh lo hi b) (i : ι) (p : Site) :
    (S.point i p b).Sound lo hi := by
  refine ⟨fun j q hj hne => ?_, fun j q j' q' hj hj' hne heq => ?_, ?_⟩
  · rw [live_point] at hj
    rw [used_point]
    by_cases hsame : j = i ∧ q = p
    · obtain ⟨rfl, rfl⟩ := hsame
      rw [addr_point_self]
      exact ⟨hb.low, hb.high, hb.used⟩
    · rw [addr_point_of_ne S b hsame] at hne ⊢
      exact h.own j q hj hne
  · rw [live_point] at hj hj'
    by_cases hsame : j = i ∧ q = p
    · by_cases hsame' : j' = i ∧ q' = p
      · rw [hsame.1, hsame.2, hsame'.1, hsame'.2]
        exact ⟨rfl, rfl⟩
      · rw [hsame.1, hsame.2, addr_point_self, addr_point_of_ne S b hsame'] at heq
        exact absurd heq.symm (hb.unowned j' q' hj')
    · rw [addr_point_of_ne S b hsame] at hne heq
      by_cases hsame' : j' = i ∧ q' = p
      · rw [hsame'.1, hsame'.2, addr_point_self] at heq
        exact absurd heq (hb.unowned j q hj)
      · rw [addr_point_of_ne S b hsame'] at heq
        exact h.inj j q j' q' hj hj' hne heq
  · rw [used_point]
    exact h.reserved

/-- A new block with zeros changes no file. -/
theorem byte_point (hold : S.addr i p = 0) (hzero : S.data b = fun _ => 0) (j : ι) (x : ℕ) :
    (S.point i p b).byte j x = S.byte j x := by
  cases p with
  | table => rfl
  | block bn =>
    by_cases hsame : j = i ∧ x / B = bn
    · obtain ⟨rfl, rfl⟩ := hsame
      have hnew : (S.point j (.block (x / B)) b).blk j (x / B) = b :=
        addr_point_self (p := .block (x / B))
      rw [byte, byte, hnew, data_point, if_pos (show S.blk j (x / B) = 0 from hold), hzero]
      split_ifs
      · rfl
      · rw [Bytes.get]
        split_ifs <;> rfl
    · have hkeep : (S.point i (.block bn) b).blk j (x / B) = S.blk j (x / B) := by
        refine addr_point_of_ne (q := .block (x / B)) S b fun hh => hsame ⟨hh.1, ?_⟩
        exact Site.block.inj hh.2
      rw [byte, byte, hkeep, data_point]

end Point

theorem Sound.take (h : S.Sound lo hi) (b : ℕ) : (S.take b).Sound lo hi := by
  have hmono : ∀ c, S.used c = true → (S.take b).used c = true := by
    intro c hc
    by_cases hcb : c = b
    · simp [Storage.take, hcb]
    · simp [Storage.take, hcb, hc]
  refine ⟨fun i p hi' hne => ?_, h.inj, fun c hc => hmono c (h.reserved c hc)⟩
  obtain ⟨hlow, hhigh, hused⟩ := h.own i p hi' hne
  exact ⟨hlow, hhigh, hmono _ hused⟩

theorem Sound.fresh_take (h : S.Sound lo hi) (hlo : 0 < lo) (hb : S.used b = false) (hlt : b < hi) :
    (S.take b).Fresh lo hi b := by
  have hlow := h.low_of_unused hb
  refine ⟨hlow, hlt, by simp [Storage.take], fun i p hi' => ?_⟩
  exact h.addr_ne hb hi' (by omega)

theorem byte_take (h : S.Sound lo hi) (hlo : 0 < lo) (hb : S.used b = false) (hi' : S.live i = true)
    (x : ℕ) : (S.take b).byte i x = S.byte i x := by
  have hlow := h.low_of_unused hb
  have hne : S.blk i (x / B) ≠ b := h.addr_ne (p := .block (x / B)) hb hi' (by omega)
  rw [byte, byte]
  simp [Storage.take, hne]

/-! ### How many blocks there are -/

/-- How many blocks below `hi` are not used. -/
def free (S : Storage ι B) (hi : ℕ) : ℕ := ((Finset.range hi).filter fun b => S.used b = false).card

theorem free_take (hb : S.used b = false) (hlt : b < hi) : (S.take b).free hi + 1 = S.free hi := by
  have hmem : b ∈ (Finset.range hi).filter fun c => S.used c = false :=
    Finset.mem_filter.mpr ⟨Finset.mem_range.mpr hlt, hb⟩
  have herase : ((Finset.range hi).filter fun c => (S.take b).used c = false)
      = ((Finset.range hi).filter fun c => S.used c = false).erase b := by
    ext c
    rw [Finset.mem_erase, Finset.mem_filter, Finset.mem_filter]
    by_cases hcb : c = b
    · simp [take, hcb]
    · simp [take, hcb]
  rw [free, free, herase, Finset.card_erase_add_one hmem]

theorem free_eq_zero (h : ∀ b < hi, S.used b = true) : S.free hi = 0 := by
  rw [free, Finset.card_eq_zero, Finset.filter_eq_empty_iff]
  intro b hb
  rw [h b (Finset.mem_range.mp hb)]
  exact Bool.false_ne_true.symm

/-- How many of the blocks from `m` to `n` of a file are not there, with the block that has the
addresses of those from `nd` on. -/
def need (S : Storage ι B) (nd : ℕ) (i : ι) (m n : ℕ) : ℕ :=
  ((Finset.Ico m n).filter fun bn => S.blk i bn = 0).card
    + if S.ind i = 0 ∧ m < n ∧ nd < n then 1 else 0

/-- No more than all blocks are needed, and one with addresses. -/
theorem need_le (S : Storage ι B) (nd : ℕ) (i : ι) (m n : ℕ) : S.need nd i m n ≤ n - m + 1 := by
  have hcard := Finset.card_filter_le (Finset.Ico m n) fun bn => S.blk i bn = 0
  rw [Nat.card_Ico] at hcard
  rw [need]
  split_ifs <;> omega

/-! ### Writing -/

/-- **Bytes were replaced**: those of `d` are at offset `off` of file `i`. No other byte of a file has
changed, and no place has lost its block. -/
structure Wrote (S S' : Storage ι B) (i : ι) (off : ℕ) (d : List Byte) : Prop where
  live : S'.live = S.live
  size : S'.size = S.size
  byte : ∀ x, S'.byte i x = if off ≤ x ∧ x < off + d.length then d.getD (x - off) 0 else S.byte i x
  others : ∀ j, j ≠ i → S.live j = true → ∀ x, S'.byte j x = S.byte j x
  keep : ∀ j p, S.addr j p ≠ 0 → S'.addr j p = S.addr j p

theorem Wrote.refl (S : Storage ι B) (i : ι) (off : ℕ) : S.Wrote S i off [] where
  live := rfl
  size := rfl
  byte x := by rw [if_neg fun hh => Nat.not_lt.mpr hh.1 hh.2]
  others _ _ _ _ := rfl
  keep _ _ _ := rfl

theorem Wrote.trans {off : ℕ} {d e : List Byte} (h : S.Wrote S' i off d)
    (h' : S'.Wrote S'' i (off + d.length) e) : S.Wrote S'' i off (d ++ e) where
  live := h'.live.trans h.live
  size := h'.size.trans h.size
  byte x := by
    rw [h'.byte, h.byte, List.length_append]
    by_cases hright : off + d.length ≤ x ∧ x < off + d.length + e.length
    · rw [if_pos hright, if_pos (by omega), List.getD_append_right _ _ _ _ (by omega)]
      congr 1
      omega
    · rw [if_neg hright]
      by_cases hleft : off ≤ x ∧ x < off + d.length
      · rw [if_pos hleft, if_pos (by omega), List.getD_append _ _ _ _ (by omega)]
      · rw [if_neg hleft, if_neg (by omega)]
  others j hj hlive x := by
    rw [h'.others j hj (by rw [h.live]; exact hlive), h.others j hj hlive]
  keep j p hne := by
    have hkeep := h.keep j p hne
    rw [h'.keep j p (by rw [hkeep]; exact hne), hkeep]

/-- Nothing was written at all. -/
theorem Wrote.nil_trans {off : ℕ} {d : List Byte} (h : S.Wrote S' i off [])
    (h' : S'.Wrote S'' i off d) : S.Wrote S'' i off d :=
  h.trans (d := []) h'

theorem Sound.wrote_take (h : S.Sound lo hi) (hlo : 0 < lo) (hb : S.used b = false)
    (hi' : S.live i = true) (off : ℕ) : S.Wrote (S.take b) i off [] where
  live := rfl
  size := rfl
  byte x := by
    rw [if_neg fun hh => Nat.not_lt.mpr hh.1 hh.2]
    exact byte_take h hlo hb hi' x
  others _ _ hlive x := byte_take h hlo hb hlive x
  keep _ _ _ := rfl

theorem wrote_point [DecidableEq ι] (hold : S.addr i p = 0) (hzero : S.data b = fun _ => 0)
    (off : ℕ) : S.Wrote (S.point i p b) i off [] where
  live := live_point
  size := size_point
  byte x := by
    rw [if_neg fun hh => Nat.not_lt.mpr hh.1 hh.2]
    exact byte_point hold hzero i x
  others j _ _ x := byte_point hold hzero j x
  keep j q hne := addr_point_of_ne S b fun hh => hne (by rw [hh.1, hh.2]; exact hold)

theorem Sound.put (h : S.Sound lo hi) (b : ℕ) (x : Fin B → Byte) : (S.put b x).Sound lo hi :=
  ⟨h.own, h.inj, h.reserved⟩

theorem Fresh.put (h : S.Fresh lo hi b) (c : ℕ) (x : Fin B → Byte) : (S.put c x).Fresh lo hi b :=
  ⟨h.low, h.high, h.used, h.unowned⟩

/-- Writing a block that holds addresses changes no byte of a file. -/
theorem Sound.wrote_putTable (h : S.Sound lo hi) (hi' : S.live i = true) (hind : S.ind i ≠ 0)
    (x : Fin B → Byte) (off : ℕ) : S.Wrote (S.put (S.ind i) x) i off [] := by
  have hbyte : ∀ j y, S.live j = true → (S.put (S.ind i) x).byte j y = S.byte j y := by
    intro j y hj
    have hne : S.blk j (y / B) ≠ S.ind i := fun heq => by
      have hpos : S.ind i ≠ 0 := hind
      have := (h.inj i .table j (.block (y / B)) hi' hj hpos heq.symm).2
      exact Site.noConfusion this
    rw [Storage.byte, Storage.byte]
    simp [Storage.put, hne]
  refine ⟨rfl, rfl, fun y => ?_, fun j _ hj y => hbyte j y hj, fun _ _ _ => rfl⟩
  rw [if_neg fun hh => Nat.not_lt.mpr hh.1 hh.2]
  exact hbyte i y hi'

/-- **Writing a block of a file.** -/
theorem Sound.wrote_put (h : S.Sound lo hi) (hB : 0 < B) (hi' : S.live i = true) {off : ℕ}
    {d : List Byte} (hblk : S.blk i (off / B) ≠ 0) (hfit : off % B + d.length ≤ B) :
    S.Wrote (S.put (S.blk i (off / B)) (Bytes.write (S.data (S.blk i (off / B))) (off % B) d)) i
      off d := by
  have hother : ∀ j x, S.live j = true → ¬(j = i ∧ x / B = off / B) →
      S.blk j (x / B) ≠ 0 → S.blk j (x / B) ≠ S.blk i (off / B) := by
    intro j x hj hne hpos heq
    obtain ⟨hji, hp⟩ := h.inj j (.block (x / B)) i (.block (off / B)) hj hi' hpos heq
    exact hne ⟨hji, Site.block.inj hp⟩
  have hkeep : ∀ j x, S.live j = true → ¬(j = i ∧ x / B = off / B) →
      (S.put (S.blk i (off / B)) (Bytes.write (S.data (S.blk i (off / B))) (off % B) d)).byte j x
        = S.byte j x := by
    intro j x hj hne
    rw [Storage.byte, Storage.byte]
    by_cases hpos : S.blk j (x / B) = 0
    · simp [Storage.put, hpos]
    · simp [Storage.put, hpos, hother j x hj hne hpos]
  refine ⟨rfl, rfl, fun x => ?_, fun j hj hlive x => hkeep j x hlive fun hh => hj hh.1,
    fun _ _ _ => rfl⟩
  have hoff := Nat.div_add_mod off B
  have hx := Nat.div_add_mod x B
  have hxlt := Nat.mod_lt x hB
  have hofflt := Nat.mod_lt off hB
  by_cases hsame : x / B = off / B
  · rw [Storage.byte, Storage.byte, hsame]
    rw [hsame] at hx
    have hsum : ∀ {y : ℕ}, B * (off / B) + x % B = y → x = y := fun hy => hx.symm.trans hy
    simp only [Storage.put, update_self, if_neg hblk]
    rw [Bytes.get_write _ _ _ hxlt]
    by_cases hin : off ≤ x ∧ x < off + d.length
    · rw [if_pos hin, if_pos (by omega)]
      congr 1
      omega
    · rw [if_neg hin, if_neg (by omega)]
  · rw [hkeep i x hi' fun hh => hsame hh.2, if_neg]
    rintro ⟨hlo, hhi⟩
    refine hsame (Nat.le_antisymm ?_ (Nat.div_le_div_right hlo))
    rw [Nat.div_le_iff_le_mul_add_pred hB]
    omega

/-! ### Adding blocks -/

/-- **A file has a new block**, at a place where it had none. -/
structure Gains (S S' : Storage ι B) (lo hi : ℕ) (i : ι) (p : Site) (b : ℕ) : Prop where
  sound : S'.Sound lo hi
  wrote : ∀ off, S.Wrote S' i off []
  old : S.addr i p = 0
  new : S'.addr i p = b
  same : ∀ q, q ≠ p → S'.addr i q = S.addr i q
  free : S'.free hi + 1 = S.free hi

section Gains

variable [DecidableEq ι]

/-- A block is taken and put at a place. -/
theorem Sound.gains (h : S.Sound lo hi) (hlo : 0 < lo) (hi' : S.live i = true)
    (hb : S.used b = false) (hlt : b < hi) (hold : S.addr i p = 0) :
    S.Gains ((S.take b).point i p b) lo hi i p b where
  sound := (h.take b).point (h.fresh_take hlo hb hlt) i p
  wrote off := (h.wrote_take hlo hb hi' off).nil_trans
    (wrote_point (S := S.take b) hold (by simp [Storage.take]) off)
  old := hold
  new := addr_point_self
  same q hq := addr_point_of_ne _ b fun hh => hq hh.2
  free := by
    rw [Storage.free, used_point]
    exact free_take hb hlt

/-- A block is taken and its address is put into the block with further addresses. -/
theorem Sound.gains_put (h : S.Sound lo hi) (hlo : 0 < lo) (hi' : S.live i = true)
    (hb : S.used b = false) (hlt : b < hi) {bn : ℕ} (hold : S.blk i bn = 0) (hind : S.ind i ≠ 0)
    (x : Fin B → Byte) :
    S.Gains (((S.take b).put (S.ind i) x).point i (.block bn) b) lo hi i (.block bn) b := by
  have hne : b ≠ S.ind i := fun heq =>
    h.addr_ne (p := .table) hb hi' (by rw [heq]; exact hind) heq.symm
  have hzero : ((S.take b).put (S.ind i) x).data b = fun _ => 0 := by
    simp [Storage.take, Storage.put, hne]
  have htake := h.take b
  refine ⟨(htake.put _ x).point ((h.fresh_take hlo hb hlt).put _ x) i _, fun off => ?_, hold,
    addr_point_self (p := .block bn), fun q hq => addr_point_of_ne _ b fun hh => hq hh.2, ?_⟩
  · have h1 := h.wrote_take hlo hb hi' off
    have h2 := htake.wrote_putTable hi' hind x off
    exact h1.nil_trans (h2.nil_trans (wrote_point
      (S := (S.take b).put (S.ind i) x) (p := .block bn) hold hzero off))
  · rw [Storage.free, used_point]
    exact free_take hb hlt

end Gains

/-- **The address of a block was asked for**, and the block was added if need be. The address is 0 if
there are not enough blocks. -/
structure Maps (S S' : Storage ι B) (nd hi : ℕ) (i : ι) (bn a : ℕ) : Prop where
  wrote : ∀ off, S.Wrote S' i off []
  others : ∀ bn', bn' ≠ bn → S'.blk i bn' = S.blk i bn'
  found : a ≠ 0 → S'.blk i bn = a ∧ (nd ≤ bn → S'.ind i ≠ 0) ∧
    S'.free hi + S.need nd i bn (bn + 1) = S.free hi
  missing : a = 0 → S.free hi < S.need nd i bn (bn + 1)

section Maps

variable {nd bn a m n : ℕ}

theorem need_one (S : Storage ι B) (nd : ℕ) (i : ι) (bn : ℕ) : S.need nd i bn (bn + 1)
    = (if S.blk i bn = 0 then 1 else 0) + if S.ind i = 0 ∧ nd ≤ bn then 1 else 0 := by
  rw [need, Nat.Ico_succ_singleton, Finset.filter_singleton]
  congr 1
  · split_ifs <;> rfl
  · simp

/-- The first block, and the others. -/
theorem card_missing_succ (S : Storage ι B) (i : ι) (h : m < n) :
    ((Finset.Ico m n).filter fun bn => S.blk i bn = 0).card
      = (if S.blk i m = 0 then 1 else 0)
        + ((Finset.Ico (m + 1) n).filter fun bn => S.blk i bn = 0).card := by
  rw [← Finset.insert_Ico_add_one_left_eq_Ico h, Finset.filter_insert]
  have hmem : m ∉ (Finset.Ico (m + 1) n).filter fun bn => S.blk i bn = 0 := fun hh => by
    have := (Finset.mem_Ico.mp (Finset.mem_filter.mp hh).1).1
    omega
  split_ifs
  · rw [Finset.card_insert_of_notMem hmem, Nat.add_comm]
  · rw [Nat.zero_add]

theorem need_one_le (S : Storage ι B) (nd : ℕ) (i : ι) (h : m < n) :
    S.need nd i m (m + 1) ≤ S.need nd i m n := by
  rw [need_one, need, card_missing_succ S i h]
  have hle : (if S.ind i = 0 ∧ nd ≤ m then 1 else 0)
      ≤ if S.ind i = 0 ∧ m < n ∧ nd < n then 1 else 0 := by
    by_cases hcond : S.ind i = 0 ∧ nd ≤ m
    · rw [if_pos hcond, if_pos ⟨hcond.1, h, by omega⟩]
    · rw [if_neg hcond]
      exact Nat.zero_le _
  omega

/-- The block is there. -/
theorem Maps.here (hblk : S.blk i bn ≠ 0) (hind : nd ≤ bn → S.ind i ≠ 0) :
    S.Maps S nd hi i bn (S.blk i bn) where
  wrote := Wrote.refl S i
  others _ _ := rfl
  found _ := by
    refine ⟨rfl, hind, ?_⟩
    rw [need_one, if_neg hblk, if_neg fun hh => hind hh.2 hh.1]
    rfl
  missing h0 := absurd h0 hblk

/-- There are no blocks. -/
theorem Maps.full (hblk : S.blk i bn = 0) (hfree : S.free hi = 0) : S.Maps S nd hi i bn 0 where
  wrote := Wrote.refl S i
  others _ _ := rfl
  found h0 := absurd rfl h0
  missing _ := by
    rw [need_one, if_pos hblk, hfree]
    omega

/-- The block is new. -/
theorem Gains.maps (h : S.Gains S' lo hi i (.block bn) a) (ha : a ≠ 0)
    (hind : nd ≤ bn → S.ind i ≠ 0) : S.Maps S' nd hi i bn a where
  wrote := h.wrote
  others bn' hne := h.same (.block bn') fun heq => hne (Site.block.inj heq)
  found _ := by
    have hsame : S'.ind i = S.ind i := h.same .table Site.noConfusion
    have hold : S.blk i bn = 0 := h.old
    have hfree := h.free
    refine ⟨h.new, fun hbn => by rw [hsame]; exact hind hbn, ?_⟩
    rw [need_one, if_pos hold, if_neg fun hh => hind hh.2 hh.1]
    omega
  missing h0 := absurd h0 ha

/-- The block with further addresses is new too. -/
theorem Gains.maps_table (h : S.Gains S' lo hi i .table b) (hb : b ≠ 0) (hnd : nd ≤ bn)
    (h' : S'.Maps S'' nd hi i bn a) : S.Maps S'' nd hi i bn a := by
  have hold : S.ind i = 0 := h.old
  have hnew : S'.ind i = b := h.new
  have hblk : ∀ bn', S'.blk i bn' = S.blk i bn' := fun bn' =>
    h.same (.block bn') Site.noConfusion
  have hfree := h.free
  have hneed : S.need nd i bn (bn + 1) = S'.need nd i bn (bn + 1) + 1 := by
    have hyes : (if S.ind i = 0 ∧ nd ≤ bn then 1 else 0) = 1 := if_pos ⟨hold, hnd⟩
    have hno : (if S'.ind i = 0 ∧ nd ≤ bn then 1 else 0) = 0 :=
      if_neg fun hh => hb (hnew.symm.trans hh.1)
    rw [need_one, need_one, hblk, hyes, hno]
  refine ⟨fun off => (h.wrote off).nil_trans (h'.wrote off),
    fun bn' hne => (h'.others bn' hne).trans (hblk bn'), fun ha => ?_, fun ha => ?_⟩
  · obtain ⟨hfound, hind, hcount⟩ := h'.found ha
    exact ⟨hfound, hind, by omega⟩
  · have := h'.missing ha
    omega

/-- **What is left to add.** -/
theorem Maps.need_le (h : S.Maps S' nd hi i bn a) (ha : a ≠ 0) (hn : bn < n) :
    S'.need nd i (bn + 1) n + S.need nd i bn (bn + 1) ≤ S.need nd i bn n := by
  obtain ⟨_, hind, _⟩ := h.found ha
  have hkeep : S'.ind i = 0 → S.ind i = 0 := fun h0 => by
    by_contra hne
    exact hne (((h.wrote 0).keep i .table hne).symm.trans h0)
  have hrest : (Finset.Ico (bn + 1) n).filter (fun bn' => S'.blk i bn' = 0)
      = (Finset.Ico (bn + 1) n).filter fun bn' => S.blk i bn' = 0 := by
    refine Finset.filter_congr fun bn' hmem => ?_
    rw [h.others bn' (by have := (Finset.mem_Ico.mp hmem).1; omega)]
  have hle : (if S'.ind i = 0 ∧ bn + 1 < n ∧ nd < n then 1 else 0)
      + (if S.ind i = 0 ∧ nd ≤ bn then 1 else 0)
      ≤ if S.ind i = 0 ∧ bn < n ∧ nd < n then 1 else 0 := by
    by_cases hbn : nd ≤ bn
    · rw [if_neg fun hh => hind hbn hh.1, Nat.zero_add]
      by_cases h0 : S.ind i = 0
      · rw [if_pos ⟨h0, hbn⟩, if_pos ⟨h0, hn, by omega⟩]
      · rw [if_neg fun hh => h0 hh.1]
        exact Nat.zero_le _
    · have hno : (if S.ind i = 0 ∧ nd ≤ bn then 1 else 0) = 0 := if_neg fun hh => hbn hh.2
      rw [hno, Nat.add_zero]
      by_cases hlate : S'.ind i = 0 ∧ bn + 1 < n ∧ nd < n
      · rw [if_pos hlate, if_pos ⟨hkeep hlate.1, hn, hlate.2.2⟩]
      · rw [if_neg hlate]
        exact Nat.zero_le _
  rw [need_one, need, need, hrest, card_missing_succ S i hn]
  omega

end Maps

/-- **What a write comes to**, once the size is set. -/
theorem Wrote.contents [DecidableEq ι] {off : ℕ} {d : List Byte} (h : S.Wrote S' i off d)
    (hoff : off ≤ S.size i) :
    (S'.resize i (max (S.size i) (off + d.length))).contents i = splice (S.contents i) off d := by
  have hsize : (S'.resize i (max (S.size i) (off + d.length))).size i
      = max (S.size i) (off + d.length) := by
    simp [resize]
  have hlen : off ≤ (S.contents i).length := by
    rw [length_contents]
    exact hoff
  refine eq_splice hlen ?_ fun x hx => ?_
  · rw [length_contents, length_contents, hsize]
  · rw [length_contents] at hx
    rw [getElem?_contents hx]
    rw [hsize] at hx
    change some (S'.byte i x) = _
    rw [h.byte]
    by_cases hin : off ≤ x ∧ x < off + d.length
    · rw [if_pos hin, if_pos hin, List.getD_eq_getElem?_getD,
        List.getElem?_eq_getElem (by omega : x - off < d.length)]
      rfl
    · rw [if_neg hin, if_neg hin, getElem?_contents (by omega)]

theorem Wrote.contents_of_ne {off : ℕ} {d : List Byte} (h : S.Wrote S' i off d) (hj : j ≠ i)
    (hlive : S.live j = true) : S'.contents j = S.contents j := by
  rw [Storage.contents, Storage.contents, h.size]
  exact List.map_congr_left fun x _ => h.others j hj hlive x

theorem Sound.resize [DecidableEq ι] (h : S.Sound lo hi) (i : ι) (n : ℕ) :
    (S.resize i n).Sound lo hi := ⟨h.own, h.inj, h.reserved⟩

theorem resize_self [DecidableEq ι] (S : Storage ι B) (i : ι) : S.resize i (S.size i) = S := by
  rw [resize, update_eq_self]

end Storage

end Xv6
