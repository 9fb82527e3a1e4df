import Xv6.Fs.Volume
import Xv6.Fs.Syscall

/-!
# What a write records in the log

`begin_op` reserves `MAXOPBLOCKS` blocks of the log for a system call, and `filewrite` splits a large
write so that each part stays within that. Here the blocks that one `writei` passes to `log_write`
are counted.

Every block of the file that is written is recorded. If it is new, so is the block of the free map
that has its bit. The indirect block costs two more at most, over the whole write: it is recorded as
often as an address is put into it, but as one block. To count it once, `due` counts it before it is
recorded. Then no block of the file adds more than two, and one that was there adds one.

A write that does not start at the start of a block starts in a block that the file has. That saves
the one by which a part of the largest size would not fit.

## What is not assumed

The free map may have any bits, also those of a broken file system. If it has block 0 as free,
`balloc` zeroes that block and returns its address, which the callers take for a failure.
-/

namespace Xv6

open Prog

/-! ### Counting -/

/-- The number of blocks in `l`, with those that are expected to join them for an indirect block at
address `a`: itself, and if there is none yet a block of the free map. -/
def due (l : Finset ℕ) (a : ℕ) : ℕ := l.card + if a = 0 then 2 else if a ∈ l then 0 else 1

section Due

variable {l : Finset ℕ} {a b c : ℕ}

theorem card_le_due (l : Finset ℕ) (a : ℕ) : l.card ≤ due l a := Nat.le_add_right _ _

theorem due_le_card (l : Finset ℕ) (a : ℕ) : due l a ≤ l.card + 2 := by
  rw [due]
  split_ifs <;> omega

theorem due_insert_le (l : Finset ℕ) (a b : ℕ) : due (insert b l) a ≤ due l a + 1 := by
  have hcard := Finset.card_insert_le b l
  rw [due, due]
  by_cases ha : a = 0
  · rw [if_pos ha, if_pos ha]
    omega
  · rw [if_neg ha, if_neg ha]
    by_cases hmem : a ∈ l
    · rw [if_pos (Finset.mem_insert_of_mem hmem), if_pos hmem]
      omega
    · rw [if_neg hmem]
      split_ifs <;> omega

theorem due_insert_self (ha : a ≠ 0) (l : Finset ℕ) : due (insert a l) a ≤ due l a := by
  rw [due, due, if_neg ha, if_neg ha, if_pos (Finset.mem_insert_self a l)]
  by_cases hmem : a ∈ l
  · rw [if_pos hmem, Finset.insert_eq_of_mem hmem]
  · rw [if_neg hmem, Finset.card_insert_of_notMem hmem]

/-- A new indirect block was expected, with its block of the free map. -/
theorem due_new (hb : b ≠ 0) (l : Finset ℕ) (c : ℕ) : due (insert b (insert c l)) b ≤ due l 0 := by
  have hcard := Finset.card_insert_le b (insert c l)
  have hcard' := Finset.card_insert_le c l
  rw [due, due, if_neg hb, if_pos (Finset.mem_insert_self b _), if_pos rfl]
  omega

end Due

namespace Fs

variable {s s' : Fs} {ip : Fin ninode} {b bn off n k fuel : ℕ} {src : List Byte}
  {E : String → Prop}

/-- The address of the indirect block of an inode in the table. -/
def tableAddr (s : Fs) (ip : Fin ninode) : ℕ := ((s.inode ip).addrs (Fin.last ndirect)).toNat

/-- The blocks that are due in a transaction that writes to an inode. -/
def dueFor (s : Fs) (ip : Fin ninode) : ℕ := due s.logged (s.tableAddr ip)

/-! ### Blocks -/

theorem logWrite_of_room {Q : Unit → Fs → Prop} (hroom : s.logged.card < logblocks)
    (hQ : Q () { s with logged := insert b s.logged }) : wp (logWrite b) Q E s := by
  rw [logWrite, wp_bind, wp_get, if_neg (Nat.not_le.mpr hroom)]
  exact hQ

/-- **`balloc`** records the block and a block of the free map. -/
theorem balloc_due (hroom : s.logged.card + 1 < logblocks) :
    wp balloc (fun b s' => s'.sb = s.sb ∧ s'.inode = s.inode ∧
      (b = 0 ∧ s'.logged = s.logged ∨
        b < s.sb.size ∧ ∃ c, s'.logged = insert b (insert c s.logged))) E s := by
  rw [balloc, wp_bind, wp_get]
  cases hfind : (List.range s.sb.size).find? fun b => !s.bit b with
  | none => exact ⟨rfl, rfl, Or.inl ⟨rfl, rfl⟩⟩
  | some b =>
    have hb : b < s.sb.size := List.mem_range.mp (List.mem_of_find?_eq_some hfind)
    have hcard := Finset.card_insert_le (s.sb.bblock b) s.logged
    rw [wp_bind, wp_modify, wp_bind]
    refine logWrite_of_room (by change s.logged.card < _; omega) ?_
    rw [wp_bind, bzero, wp_bind, wp_modify]
    refine logWrite_of_room (by change (insert _ s.logged).card < _; omega) ?_
    exact ⟨rfl, rfl, Or.inr ⟨hb, _, rfl⟩⟩

theorem due_of_balloc {l l' : Finset ℕ} (a : ℕ)
    (h : b = 0 ∧ l' = l ∨ b < s.sb.size ∧ ∃ c, l' = insert b (insert c l)) :
    due l' a ≤ due l a + 2 ∧ (b ≠ 0 → due (insert b l') a ≤ due l a + 2) := by
  rcases h with ⟨rfl, rfl⟩ | ⟨_, c, rfl⟩
  · exact ⟨Nat.le_add_right _ _, fun h0 => absurd rfl h0⟩
  · have h1 := due_insert_le l a c
    have h2 := due_insert_le (insert c l) a b
    rw [Finset.insert_eq_of_mem (Finset.mem_insert_self b _)]
    exact ⟨by omega, fun _ => by omega⟩

/-! ### The blocks of a file -/

theorem tableAddr_congr (ip : Fin ninode) (h : s'.inode = s.inode) :
    s'.tableAddr ip = s.tableAddr ip := by
  rw [tableAddr, tableAddr, h]

/-- The indirect block does not change with a direct one. -/
theorem tableAddr_setSlot_of_ne {q : Fin (ndirect + 1)} (hq : Fin.last ndirect ≠ q) (b : ℕ) :
    (s.setSlot ip q b).tableAddr ip = s.tableAddr ip := by
  rw [tableAddr, setSlot, setInode_inode_self]
  dsimp only
  rw [Function.update_of_ne hq]
  rfl

theorem tableAddr_setSlot_last (s : Fs) (ip : Fin ninode) (hb : b < 2 ^ 32) :
    (s.setSlot ip (Fin.last ndirect) b).tableAddr ip = b := by
  rw [tableAddr, setSlot, setInode_inode_self]
  dsimp only
  rw [Function.update_self, BitVec.toNat_ofNat, Nat.mod_eq_of_lt hb]

/-- What the address of a block of a file adds: `c` at most, also when the block is recorded. -/
structure Adds (c : ℕ) (s s' : Fs) (ip : Fin ninode) (a : ℕ) : Prop where
  sb : s'.sb = s.sb
  due : s'.dueFor ip ≤ s.dueFor ip + c
  record : a ≠ 0 → Xv6.due (insert a s'.logged) (s'.tableAddr ip) ≤ s.dueFor ip + c

theorem Adds.found (s : Fs) (ip : Fin ninode) (a : ℕ) : Adds 1 s s ip a where
  sb := rfl
  due := Nat.le_succ _
  record _ := due_insert_le _ _ _

theorem Adds.mono {c d a : ℕ} (h : Adds c s s' ip a) (hcd : c ≤ d) : Adds d s s' ip a where
  sb := h.sb
  due := h.due.trans (Nat.add_le_add_left hcd _)
  record ha := (h.record ha).trans (Nat.add_le_add_left hcd _)

theorem Adds.new (hsb : s'.sb = s.sb) (htable : s'.tableAddr ip = s.tableAddr ip)
    (hb : b = 0 ∧ s'.logged = s.logged ∨
      b < s.sb.size ∧ ∃ c, s'.logged = insert b (insert c s.logged)) : Adds 2 s s' ip b := by
  obtain ⟨hdue, hdue'⟩ := due_of_balloc (s := s) (s.tableAddr ip) hb
  exact ⟨hsb, by rw [dueFor, htable]; exact hdue, by rw [htable]; exact hdue'⟩

theorem bmapSlot_direct_due {q : Fin (ndirect + 1)} (hq : Fin.last ndirect ≠ q)
    (hroom : s.logged.card + 1 < logblocks) :
    wp (bmapSlot ip q) (fun a s' => Adds 2 s s' ip a) E s := by
  refine wp_bmapSlot (fun _ => (Adds.found s ip _).mono (by decide)) fun _ => ?_
  refine wp_imp (balloc_due hroom) fun b s' ⟨hsb, hinode, hb⟩ => ⟨?_, fun _ => ?_⟩
  · rintro rfl
    exact .new hsb (tableAddr_congr ip hinode) hb
  · exact .new hsb ((tableAddr_setSlot_of_ne hq b).trans (tableAddr_congr ip hinode)) hb

theorem bmapSlot_last_due (hsize : s.sb.size ≤ 2 ^ 32) (hroom : s.logged.card + 1 < logblocks) :
    wp (bmapSlot ip (Fin.last ndirect)) (fun a s' => (a = 0 → Adds 2 s s' ip 0) ∧
      (a ≠ 0 → s'.sb = s.sb ∧ s'.tableAddr ip = a ∧ s'.dueFor ip ≤ s.dueFor ip)) E s := by
  refine wp_bmapSlot (fun hne => ⟨fun h0 => absurd h0 hne, fun _ => ⟨rfl, rfl, le_rfl⟩⟩) fun h0 => ?_
  refine wp_imp (balloc_due hroom) fun b s' ⟨hsb, hinode, hb⟩ => ⟨?_, fun hne => ?_⟩
  · rintro rfl
    exact ⟨fun _ => .new hsb (tableAddr_congr ip hinode) hb, fun hne => absurd rfl hne⟩
  · refine ⟨fun h0 => absurd h0 hne, fun _ => ?_⟩
    obtain ⟨hlt, c, hlogged⟩ := hb.resolve_left fun hh => hne hh.1
    have htable := tableAddr_setSlot_last s' ip (hlt.trans_le hsize)
    refine ⟨hsb, htable, ?_⟩
    rw [dueFor, dueFor, htable, show s.tableAddr ip = 0 from h0]
    change due s'.logged b ≤ _
    rw [hlogged]
    exact due_new hne _ _

/-- **A block of a file adds two at most.** -/
theorem bmap_due (hsize : s.sb.size ≤ 2 ^ 32) (hbn : bn < maxfile)
    (hroom : s.dueFor ip + 2 < logblocks) :
    wp (bmap ip bn) (fun a s' => Adds 2 s s' ip a) E s := by
  have hcard := card_le_due s.logged (s.tableAddr ip)
  rw [← dueFor] at hcard
  rcases Nat.lt_or_ge bn ndirect with hdir | hind
  · refine wp_bmap_direct hdir (bmapSlot_direct_due (fun heq => ?_) (by omega))
    exact hdir.ne (congrArg Fin.val heq).symm
  · refine wp_bmap_indirect hind hbn ?_
    refine wp_imp (bmapSlot_last_due hsize (by omega)) fun ind s₁ ⟨hnone, hsome⟩ => ?_
    refine ⟨hnone, fun hne _ => ?_, fun hne _ => ?_⟩
    · obtain ⟨hsb, _, hdue⟩ := hsome hne
      have hadd := (Adds.found s₁ ip (s₁.indirect ind (bn - ndirect))).mono (d := 2) (by decide)
      exact ⟨hsb, hadd.due.trans (by omega), fun h => (hadd.record h).trans (by omega)⟩
    · obtain ⟨hsb, htable, hdue⟩ := hsome hne
      have hcard₁ := card_le_due s₁.logged (s₁.tableAddr ip)
      rw [← dueFor] at hcard₁
      refine wp_imp (balloc_due (by omega)) fun b s₂ ⟨hsb₂, hinode₂, hb⟩ => ?_
      have hadd := Adds.new hsb₂ (tableAddr_congr ip hinode₂) hb
      have htable₂ := tableAddr_congr ip hinode₂
      refine ⟨fun h0 => ?_, fun hb0 => ?_⟩
      · rw [h0] at hadd
        exact ⟨hsb₂.trans hsb, hadd.due.trans (by omega), fun h => absurd rfl h⟩
      · have hcard₂ := card_le_due s₂.logged (s₂.tableAddr ip)
        have hdue₂ := hadd.due
        rw [← dueFor] at hcard₂
        refine logWrite_of_room (by change s₂.logged.card < _; omega) ?_
        have hind : s₂.tableAddr ip = ind := htable₂.trans htable
        refine ⟨hsb₂.trans hsb, ?_, fun hb' => ?_⟩
        · change due (insert ind s₂.logged) (s₂.tableAddr ip) ≤ _
          have hself := due_insert_self hne s₂.logged
          rw [dueFor, hind] at hdue₂
          rw [hind]
          omega
        · change due (insert b (insert ind s₂.logged)) (s₂.tableAddr ip) ≤ _
          have hself := due_insert_self hne (insert b s₂.logged)
          have hins := hadd.record hb'
          rw [hind] at hins ⊢
          rw [Finset.insert_comm]
          omega

/-! ### The write -/

theorem mod_add_of_min {m : ℕ} (hm : m = min n (bsize - off % bsize)) (hn : n - m ≠ 0) :
    (off + m) % bsize = 0 ∧ off % bsize + m = bsize := by
  have hbs : bsize = 1024 := rfl
  rw [hbs] at hm ⊢
  omega

theorem writeiFrom_zero (ip : Fin ninode) (fuel : ℕ) (src : List Byte) (off : ℕ) :
    writeiFrom ip fuel src off 0 = pure 0 := by
  cases fuel <;> rfl

/-- **The loop.** The first block adds `c`, which is 1 if the file has that block and 0 if there is
nothing to write, and each of the other `k` adds 2. -/
theorem writeiFrom_due {c : ℕ} (hsize : s.sb.size ≤ 2 ^ 32) (hfit : off + n ≤ maxfile * bsize)
    (hc : c = 2 ∨ c = 1 ∧ s.blockOf (s.inode ip).toDinode (off / bsize) ≠ 0 ∨ c = 0 ∧ n = 0)
    (hk : off % bsize + n ≤ (k + 1) * bsize) (hroom : s.dueFor ip + c + 2 * k < logblocks) :
    wp (writeiFrom ip fuel src off n)
      (fun _ s' => s'.sb = s.sb ∧ s'.dueFor ip ≤ s.dueFor ip + c + 2 * k) E s := by
  have hbs : bsize = 1024 := rfl
  induction fuel generalizing s src off n k c with
  | zero => exact ⟨rfl, by omega⟩
  | succ fuel ih =>
    by_cases hn : n = 0
    · rw [writeiFrom, if_pos hn]
      exact ⟨rfl, by omega⟩
    have hbn : off / bsize < maxfile := by
      rw [Nat.div_lt_iff_lt_mul (by decide)]
      omega
    have hbmap : wp (bmap ip (off / bsize)) (fun a s' => Adds c s s' ip a) E s := by
      rcases hc with rfl | ⟨rfl, hfound⟩ | ⟨_, hnil⟩
      · exact bmap_due hsize hbn (by omega)
      · exact (wp_of_ok (bmap_found hfound)).mpr (.found s ip _)
      · exact absurd hnil hn
    refine wp_writeiFrom hn (wp_imp hbmap fun a s₁ hadd => ?_)
    have hcard := card_le_due s₁.logged (s₁.tableAddr ip)
    rw [← dueFor] at hcard
    have hdue := hadd.due
    refine ⟨fun _ => ⟨hadd.sb, by omega⟩, fun _ _ => ⟨hadd.sb, ?_⟩, fun hne _ => ?_⟩
    · change s₁.dueFor ip ≤ _
      omega
    refine logWrite_of_room (by change s₁.logged.card < _; omega) ?_
    have hrec := hadd.record hne
    generalize hm : min n (bsize - off % bsize) = m
    by_cases hn' : n - m = 0
    · rw [hn', writeiFrom_zero]
      refine ⟨hadd.sb, ?_⟩
      change due (insert a s₁.logged) (s₁.tableAddr ip) ≤ _
      omega
    obtain ⟨hmod, hsum⟩ := mod_add_of_min hm.symm hn'
    obtain ⟨k, rfl⟩ : ∃ j, k = j + 1 := Nat.exists_eq_succ_of_ne_zero (by rintro rfl; omega)
    refine wp_imp (ih (c := 2) (k := k) ?_ (by omega) (Or.inl rfl) ?_ ?_) ?_
    · change s₁.sb.size ≤ _
      rw [hadd.sb]
      exact hsize
    · rw [Nat.succ_mul] at hk
      omega
    · change due (insert a s₁.logged) (s₁.tableAddr ip) + 2 + 2 * k < logblocks
      omega
    · rintro _ s₂ ⟨hsb₂, hdue₂⟩
      refine ⟨hsb₂.trans hadd.sb, hdue₂.trans ?_⟩
      change due (insert a s₁.logged) (s₁.tableAddr ip) + 2 + 2 * k ≤ _
      omega

theorem not_wrapped {size : BitVec 32} (hn : n < 2 ^ 32)
    (h : ¬(size.toNat < off ∨ u32 (off + n) < off)) : off ≤ size.toNat ∧ u32 (off + n) = off + n := by
  have hlt := size.isLt
  rw [u32] at h ⊢
  omega

/-- **The write** adds one more, the block of the inode. -/
theorem writei_due {c : ℕ} (ip : Fin ninode) (src : List Byte) (hsize : s.sb.size ≤ 2 ^ 32)
    (hn : n < 2 ^ 32)
    (hc : c = 2 ∨ c = 1 ∧ s.blockOf (s.inode ip).toDinode (off / bsize) ≠ 0 ∨ c = 0 ∧ n = 0)
    (hk : off % bsize + n ≤ (k + 1) * bsize) (hroom : s.dueFor ip + c + 2 * k < logblocks) :
    wp (writei ip src off n)
      (fun _ s' => s'.logged.card ≤ s.dueFor ip + c + 2 * k + 1) E s := by
  have hcard := card_le_due s.logged (s.tableAddr ip)
  rw [← dueFor] at hcard
  rw [writei, wp_bind, wp_get]
  split_ifs with hbad hbig
  · rw [wp_pure]
    omega
  · rw [wp_pure]
    omega
  · rw [(not_wrapped hn hbad).2, Nat.not_lt] at hbig
    refine wp_seq (writeiFrom_due hsize hbig hc hk hroom) fun tot s₁ ⟨_, hdue⟩ => ?_
    have hcard₁ := card_le_due s₁.logged (s₁.tableAddr ip)
    rw [← dueFor] at hcard₁
    rw [wp_bind, updateInode, wp_modify, wp_bind, iupdate, wp_bind,
      wp_get, wp_bind, wp_modify]
    refine logWrite_of_room (by change s₁.logged.card < _; omega) ?_
    exact (Finset.card_insert_le _ _).trans (by change s₁.logged.card + 1 ≤ _; omega)

/-- The blocks of a file below its size are there. -/
def Backed (s : Fs) (ip : Fin ninode) : Prop :=
  ∀ bn, bn * bsize < (s.inode ip).size.toNat → s.blockOf (s.inode ip).toDinode bn ≠ 0

/-- **One part of a file write fits into its reservation of the log.** -/
theorem writei_fits (hsize : s.sb.size ≤ 2 ^ 32) (hlog : s.logged = ∅) (hback : s.Backed ip)
    (hoff : off ≤ (s.inode ip).size.toNat) (hn : n ≤ Sys.writeMax) (src : List Byte) :
    ∃ r s', writei ip src off n s = .ok (r, s') ∧ s'.logged.card ≤ maxopblocks := by
  have hmax : Sys.writeMax = 3072 := rfl
  have hbs : bsize = 1024 := rfl
  have hlb : logblocks = 30 := rfl
  have hop : maxopblocks = 10 := rfl
  have hn32 : n < 2 ^ 32 := by omega
  have hdue : s.dueFor ip ≤ 2 := by
    have := due_le_card s.logged (s.tableAddr ip)
    rw [hlog, Finset.card_empty] at this
    rw [dueFor, hlog]
    exact this
  by_cases halign : off % bsize = 0
  · have hspan : off % bsize + n ≤ (2 + 1) * bsize := by omega
    obtain ⟨r, s', hok, hcard⟩ := exists_of_wp
      (writei_due ip src hsize hn32 (Or.inl rfl) hspan (by omega))
    exact ⟨r, s', hok, by omega⟩
  · -- the block that has `off` starts below the size of the file
    have hfound : s.blockOf (s.inode ip).toDinode (off / bsize) ≠ 0 := by
      refine hback _ ?_
      rw [hbs] at halign ⊢
      omega
    have hspan : off % bsize + n ≤ (3 + 1) * bsize := by
      have hmod : off % bsize < bsize := Nat.mod_lt _ (by decide)
      omega
    obtain ⟨r, s', hok, hcard⟩ := exists_of_wp
      (writei_due ip src hsize hn32 (Or.inr (Or.inl ⟨rfl, hfound⟩)) hspan (by omega))
    exact ⟨r, s', hok, by omega⟩

/-- A small file system with one file, number 1, which is empty and has been opened. The first five
blocks are in use. -/
def oneFile : Fs where
  sb := ⟨100, 16, 2, 4⟩
  cache b := if b = 4 then fun i => if i.val = 0 then 0x1f else 0 else fun _ => 0
  disk b := if b = 4 then fun i => if i.val = 0 then 0x1f else 0 else fun _ => 0
  logged := ∅
  inode ip :=
    if ip.val = 0 then ⟨{ Dinode.zero with type := tFile, nlink := 1 }, rootdev, 1, 1, false, true⟩
    else ⟨.zero, 0, 0, 0, false, false⟩

theorem writei_fits_small : ∃ r s', writei ⟨0, by decide⟩
    (List.replicate Sys.writeMax 1) 0 Sys.writeMax oneFile = .ok (r, s') ∧
      s'.logged.card ≤ maxopblocks :=
  writei_fits (by decide) rfl (fun bn hbn => absurd hbn (Nat.not_lt_zero _)) (Nat.zero_le _) le_rfl _

end Fs

end Xv6
