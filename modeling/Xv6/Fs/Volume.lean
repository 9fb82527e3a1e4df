import Xv6.Fs.Inode
import Xv6.Lib.Storage

/-!
# The file system as files in blocks

What the bytes of the blocks and the inode table say, taken together: which inodes there are, how
large each is, at which addresses it has its blocks, and which blocks the free map has as used. An
inode is what its entry of the table says if there is one that has been read from disk, and what the
disk says otherwise.

Inodes, free map and data lie in different blocks, so a write to one of them changes what is read
from it and nothing else. This is the only place where the layout matters. Everything after it is
about `Fs.vol`.
-/

namespace Xv6

open Prog Function

/-! ### Inodes in blocks -/

namespace Dinode

variable {blk : Block} {o o' : ℕ} {d : Dinode}

theorem get_store_of_disjoint {i : ℕ} (h : i < o ∨ o + dinodeSize ≤ i) :
    Bytes.get (d.store blk o) i = Bytes.get blk i := by
  have hlen : (List.ofFn fun k => (d.addrs k).toNat).length = ndirect + 1 := List.length_ofFn
  have hsize : dinodeSize = 12 + 4 * (ndirect + 1) := rfl
  rw [store, Bytes.get_stores_of_disjoint (by rw [hlen]; omega), storeHead,
    Bytes.get_store_of_disjoint (by omega), Bytes.get_store_of_disjoint (by omega),
    Bytes.get_store_of_disjoint (by omega), Bytes.get_store_of_disjoint (by omega),
    Bytes.get_store_of_disjoint (by omega)]

theorem load_congr {blk' : Block}
    (h : ∀ i < dinodeSize, Bytes.get blk (o + i) = Bytes.get blk' (o + i)) :
    load blk o = load blk' o := by
  have hfield : ∀ {w k : ℕ}, k + w ≤ dinodeSize →
      Bytes.load w blk (o + k) = Bytes.load w blk' (o + k) := fun {w k} hk =>
    Bytes.load_congr fun j hj => by
      rw [Nat.add_assoc]
      exact h (k + j) (by omega)
  have haddr : ∀ k : Fin (ndirect + 1),
      Bytes.load 4 blk (o + 12 + 4 * k) = Bytes.load 4 blk' (o + 12 + 4 * k) := fun k => by
    have hk : (k : ℕ) < 13 := k.isLt
    rw [Nat.add_assoc]
    exact hfield (by rw [dinodeSize]; omega)
  rw [load, load, show Bytes.load 2 blk o = Bytes.load 2 blk' o from hfield (k := 0) (by decide),
    hfield (by decide), hfield (by decide), hfield (by decide), hfield (by decide)]
  congr 1
  funext k
  rw [haddr]

theorem load_store_of_disjoint (h : o' + dinodeSize ≤ o ∨ o + dinodeSize ≤ o') :
    load (d.store blk o) o' = load blk o' :=
  load_congr fun _ hi => get_store_of_disjoint (by omega)

end Dinode

/-! ### The layout -/

namespace Superblock

/-- The first block that is neither an inode block nor a block of the free map, nor before these. -/
def datastart (sb : Superblock) : ℕ := sb.bmapstart + sb.size / bpb + 1

/-- **The layout**: the inode blocks come before the free map, and block numbers fit in an
address. -/
structure Layout (sb : Superblock) : Prop where
  inodes : sb.inodestart + sb.ninodes / ipb + 1 ≤ sb.bmapstart
  size : sb.size ≤ 2 ^ 32

variable {sb : Superblock} {i b : ℕ}

theorem Layout.iblock_lt (h : sb.Layout) (hi : i < sb.ninodes) : sb.iblock i < sb.bmapstart := by
  have hinodes := h.inodes
  have hdiv : i / ipb ≤ sb.ninodes / ipb := Nat.div_le_div_right hi.le
  rw [iblock]
  omega

theorem bmapstart_le_bblock (sb : Superblock) (b : ℕ) : sb.bmapstart ≤ sb.bblock b :=
  Nat.le_add_left _ _

theorem bblock_lt (hb : b < sb.size) : sb.bblock b < sb.datastart := by
  have hdiv : b / bpb ≤ sb.size / bpb := Nat.div_le_div_right hb.le
  rw [bblock, datastart]
  omega

theorem datastart_pos (sb : Superblock) : 0 < sb.datastart := Nat.succ_pos _

theorem bmapstart_lt_datastart (sb : Superblock) : sb.bmapstart < sb.datastart :=
  Nat.lt_succ_of_le (Nat.le_add_right _ _)

end Superblock

namespace Fs

/-! ### Inodes -/

/-- The entry of the table with the inode as it was read from disk, if there is one. -/
def loaded (s : Fs) (i : ℕ) : Option (Fin ninode) :=
  Table.first fun ip => decide (0 < (s.inode ip).ref) && (s.inode ip).valid &&
    (s.inode ip).inum == i

/-- An inode as it is now. -/
def node (s : Fs) (i : ℕ) : Dinode :=
  match s.loaded i with
  | some ip => (s.inode ip).toDinode
  | none => s.dinode i

/-- The same with nothing in it if it is free. -/
def file (s : Fs) (i : ℕ) : Dinode :=
  if i < s.sb.ninodes ∧ (s.node i).type ≠ 0 then s.node i else .zero

/-- The address of block `bn` of an inode. -/
def blockOf (s : Fs) (d : Dinode) (bn : ℕ) : ℕ :=
  if h : bn < ndirect then (d.addrs ⟨bn, Nat.lt_succ_of_lt h⟩).toNat
  else if bn < maxfile ∧ d.addrs (Fin.last ndirect) ≠ 0 then
    s.indirect (d.addrs (Fin.last ndirect)).toNat (bn - ndirect)
  else 0

/-- **The file system as files in blocks.** -/
def vol (s : Fs) : Storage ℕ bsize where
  live i := (s.file i).type != 0
  size i := (s.file i).size.toNat
  blk i := s.blockOf (s.file i)
  ind i := ((s.file i).addrs (Fin.last ndirect)).toNat
  used b := decide (b < s.sb.size) && s.bit b
  data b := if s.sb.datastart ≤ b then s.cache b else fun _ => 0

/-- No inode is in the table twice. -/
def Unique (s : Fs) : Prop :=
  ∀ ip jp, 0 < (s.inode ip).ref → 0 < (s.inode jp).ref → (s.inode ip).inum = (s.inode jp).inum →
    ip = jp

/-- Entry `ip` has an inode that there is, as it was read from disk. -/
structure Holds (s : Fs) (ip : Fin ninode) : Prop where
  ref : 0 < (s.inode ip).ref
  valid : (s.inode ip).valid = true
  inum : (s.inode ip).inum < s.sb.ninodes
  type : (s.inode ip).type ≠ 0

variable {s s' s'' : Fs} {ip jp : Fin ninode} {i b bn : ℕ} {blk : Block} {E : String → Prop}

theorem Holds.loaded (h : s.Holds ip) (hu : s.Unique) :
    s.loaded (s.inode ip).inum = some ip := by
  refine Table.first_of_unique ?_ fun jp hjp => ?_
  · simp [h.ref, h.valid]
  · simp only [Bool.and_eq_true, decide_eq_true_eq, beq_iff_eq] at hjp
    exact hu jp ip hjp.1.1 h.ref hjp.2

theorem Holds.node (h : s.Holds ip) (hu : s.Unique) :
    s.node (s.inode ip).inum = (s.inode ip).toDinode := by
  rw [Fs.node, h.loaded hu]

theorem Holds.file (h : s.Holds ip) (hu : s.Unique) :
    s.file (s.inode ip).inum = (s.inode ip).toDinode := by
  rw [Fs.file, h.node hu, if_pos ⟨h.inum, h.type⟩]

theorem Holds.live (h : s.Holds ip) (hu : s.Unique) : s.vol.live (s.inode ip).inum = true := by
  change ((s.file (s.inode ip).inum).type != 0) = true
  rw [h.file hu, bne_iff_ne]
  exact h.type

theorem vol_eq {S : Storage ℕ bsize} (hlive : ∀ i, ((s.file i).type != 0) = S.live i)
    (hsize : ∀ i, (s.file i).size.toNat = S.size i)
    (hblk : ∀ i bn, s.blockOf (s.file i) bn = S.blk i bn)
    (hind : ∀ i, ((s.file i).addrs (Fin.last ndirect)).toNat = S.ind i)
    (hused : s.vol.used = S.used) (hdata : s.vol.data = S.data) : s.vol = S :=
  Storage.ext (funext hlive) (funext hsize) (funext fun i => funext (hblk i)) (funext hind) hused
    hdata

theorem file_of_dead (h : s.vol.live i = false) : s.file i = .zero := by
  have htype : (s.file i).type = 0 := by simpa [vol] using h
  rw [file] at htype ⊢
  split_ifs at htype ⊢ with hh
  · exact absurd htype hh.2
  · rfl

/-! ### Writing blocks -/

theorem setCache_cache_of_ne (s : Fs) {b c : ℕ} (blk : Block) (h : c ≠ b) :
    (s.setCache b blk).cache c = s.cache c :=
  update_of_ne h _ _

@[simp] theorem setCache_cache_self (s : Fs) (b : ℕ) (blk : Block) :
    (s.setCache b blk).cache b = blk :=
  update_self _ _ _

/-- The inodes depend on the inode table and the inode blocks. -/
theorem file_congr (hinode : s'.inode = s.inode) (hsb : s'.sb = s.sb)
    (hd : ∀ i < s.sb.ninodes, s'.dinode i = s.dinode i) : s'.file = s.file := by
  funext i
  have hloaded : s'.loaded i = s.loaded i := by rw [loaded, loaded, hinode]
  rw [file, file, hsb]
  by_cases hi : i < s.sb.ninodes
  · have hnode : s'.node i = s.node i := by
      rw [node, node, hloaded, hinode, hd i hi]
    rw [hnode]
  · rw [if_neg fun hh => hi hh.1, if_neg fun hh => hi hh.1]

theorem dinode_setCache (hl : s.sb.Layout) (hb : s.sb.bmapstart ≤ b) (hi : i < s.sb.ninodes) :
    (s.setCache b blk).dinode i = s.dinode i := by
  have hlt := hl.iblock_lt hi
  rw [dinode, dinode]
  change Dinode.load ((s.setCache b blk).cache (s.sb.iblock i)) _ = _
  rw [setCache_cache_of_ne s blk (by omega)]

section Data

variable (hb : s.sb.datastart ≤ b)
include hb

theorem bit_setCache {c : ℕ} (hc : c < s.sb.size) : (s.setCache b blk).bit c = s.bit c := by
  have hlt := Superblock.bblock_lt hc
  rw [bit, bit]
  change (Bytes.get ((s.setCache b blk).cache (s.sb.bblock c)) _).getLsbD _ = _
  rw [setCache_cache_of_ne s blk (by omega)]

theorem file_setCache (blk : Block) (hl : s.sb.Layout) : (s.setCache b blk).file = s.file :=
  file_congr rfl rfl fun _ hi =>
    dinode_setCache hl (s.sb.bmapstart_lt_datastart.le.trans hb) hi

theorem used_setCache : (s.setCache b blk).vol.used = s.vol.used := by
  funext c
  change (decide (c < s.sb.size) && (s.setCache b blk).bit c) = (decide (c < s.sb.size) && s.bit c)
  by_cases hc : c < s.sb.size
  · rw [bit_setCache hb hc]
  · simp [hc]

theorem data_setCache : (s.setCache b blk).vol.data = update s.vol.data b blk := by
  funext c
  change (if s.sb.datastart ≤ c then (s.setCache b blk).cache c else fun _ => 0) = _
  by_cases hc : c = b
  · subst hc
    rw [if_pos hb, setCache_cache_self, update_self]
  · rw [setCache_cache_of_ne s blk hc, update_of_ne hc]
    rfl

theorem data_eq : s.vol.data b = s.cache b := if_pos hb

end Data

theorem blockOf_direct (s : Fs) (d : Dinode) (h : bn < ndirect) :
    s.blockOf d bn = (d.addrs ⟨bn, Nat.lt_succ_of_lt h⟩).toNat := dif_pos h

/-- Beyond the direct blocks all depends on one address. -/
theorem blockOf_of_last {d d' : Dinode} (h : ¬bn < ndirect)
    (hlast : d.addrs (Fin.last ndirect) = d'.addrs (Fin.last ndirect)) :
    s.blockOf d bn = s.blockOf d' bn := by
  rw [blockOf, blockOf, dif_neg h, dif_neg h, hlast]

theorem blockOf_eq_zero {d : Dinode} (h : ¬bn < ndirect) (hlast : d.addrs (Fin.last ndirect) = 0) :
    s.blockOf d bn = 0 := by
  rw [blockOf, dif_neg h, if_neg fun hh => hh.2 hlast]

/-- The blocks of an inode depend on its indirect block. -/
theorem blockOf_congr {d : Dinode} (h : (d.addrs (Fin.last ndirect)).toNat ≠ 0 →
    s'.cache (d.addrs (Fin.last ndirect)).toNat = s.cache (d.addrs (Fin.last ndirect)).toNat) :
    s'.blockOf d bn = s.blockOf d bn := by
  rw [blockOf, blockOf]
  split_ifs with hdir hin
  · rfl
  · rw [indirect, indirect, h fun h0 => hin.2 (BitVec.eq_of_toNat_eq h0)]
  · rfl

theorem blockOf_setCache {d : Dinode} (h : (d.addrs (Fin.last ndirect)).toNat ≠ b) :
    (s.setCache b blk).blockOf d bn = s.blockOf d bn :=
  blockOf_congr fun _ => setCache_cache_of_ne s blk h

/-- **A block that is there.** -/
theorem bmap_found (h : s.blockOf (s.inode ip).toDinode bn ≠ 0) :
    bmap ip bn s = .ok (s.blockOf (s.inode ip).toDinode bn, s) := by
  rw [bmap]
  by_cases hdir : bn < ndirect
  · rw [blockOf_direct s _ hdir] at h ⊢
    rw [dif_pos hdir, bmapSlot, bind_of_ok rfl, if_neg h]
    rfl
  · rw [blockOf, dif_neg hdir] at h ⊢
    by_cases hin : bn < maxfile ∧ (s.inode ip).addrs (Fin.last ndirect) ≠ 0
    · rw [if_pos hin] at h ⊢
      have hbn : bn - ndirect < nindirect := by
        have := hin.1
        rw [maxfile] at this
        omega
      have hlast : ((s.inode ip).addrs (Fin.last ndirect)).toNat ≠ 0 :=
        fun h0 => hin.2 (BitVec.eq_of_toNat_eq h0)
      have hslot : bmapSlot ip (Fin.last ndirect) s
          = .ok (((s.inode ip).addrs (Fin.last ndirect)).toNat, s) := by
        rw [bmapSlot, bind_of_ok rfl, if_neg hlast]
        rfl
      rw [dif_neg hdir, if_pos hbn, bind_of_ok hslot, if_neg hlast, bind_of_ok rfl,
        if_neg h]
      rfl
    · rw [if_neg hin] at h
      exact absurd rfl h

theorem datastart_le_ind (hs : s.vol.Sound s.sb.datastart s.sb.size) {i : ℕ}
    (hne : s.vol.ind i ≠ 0) : s.sb.datastart ≤ s.vol.ind i := by
  cases hlive : s.vol.live i with
  | true => exact (hs.own i .table hlive hne).1
  | false =>
    refine absurd ?_ hne
    change ((s.file i).addrs (Fin.last ndirect)).toNat = 0
    rw [file_of_dead hlive]
    rfl

theorem vol_of_outside (hs : s.vol.Sound s.sb.datastart s.sb.size) (hsb : s'.sb = s.sb)
    (hfile : s'.file = s.file) (hcache : ∀ c, s.sb.datastart ≤ c → s'.cache c = s.cache c) :
    s'.vol = { s.vol with used := s'.vol.used } := by
  refine vol_eq (fun i => ?_) (fun i => ?_) (fun i bn => ?_) (fun i => ?_) rfl ?_
  · rw [hfile]
    rfl
  · rw [hfile]
    rfl
  · rw [hfile]
    exact blockOf_congr fun hne => hcache _ (datastart_le_ind hs hne)
  · rw [hfile]
    rfl
  · funext c
    change (if s'.sb.datastart ≤ c then s'.cache c else fun _ => 0)
      = if s.sb.datastart ≤ c then s.cache c else fun _ => 0
    rw [hsb]
    split_ifs with hc
    · exact hcache c hc
    · rfl

/-- **Writing a data block** that is nobody's indirect block. -/
theorem vol_setCache (hl : s.sb.Layout) (hb : s.sb.datastart ≤ b)
    (hind : ∀ i, s.vol.live i = true → s.vol.ind i ≠ b) :
    (s.setCache b blk).vol = s.vol.put b blk := by
  have hfile := file_setCache hb blk hl
  have hpos := s.sb.datastart_pos
  have hne : ∀ i, ((s.file i).addrs (Fin.last ndirect)).toNat ≠ b := by
    intro i heq
    cases hlive : s.vol.live i with
    | true => exact hind i hlive heq
    | false =>
      rw [file_of_dead hlive] at heq
      change 0 = b at heq
      omega
  refine vol_eq (fun i => ?_) (fun i => ?_) (fun i bn => ?_) (fun i => ?_) (used_setCache hb)
    (data_setCache hb)
  · rw [hfile]
    rfl
  · rw [hfile]
    rfl
  · rw [hfile, blockOf_setCache (hne i)]
    rfl
  · rw [hfile]
    rfl

/-- **Writing an entry of an indirect block** of inode `i`. -/
theorem vol_storeEntry (hl : s.sb.Layout) (hs : s.vol.Sound s.sb.datastart s.sb.size)
    (hi : s.vol.live i = true) (hind : s.vol.ind i ≠ 0) {j x : ℕ} (hj : j < nindirect)
    (hx : x < 2 ^ 32) :
    (s.setCache (s.vol.ind i) (Bytes.store 4 (s.cache (s.vol.ind i)) (4 * j) x)).vol
      = (s.vol.put (s.vol.ind i) (Bytes.store 4 (s.cache (s.vol.ind i)) (4 * j) x)).point i
          (.block (ndirect + j)) x := by
  have hb : s.sb.datastart ≤ s.vol.ind i := (hs.own i .table hi hind).1
  have hfile := file_setCache hb (Bytes.store 4 (s.cache (s.vol.ind i)) (4 * j) x) hl
  have hnd : ndirect = 12 := rfl
  have hni : nindirect = 256 := rfl
  have hmf : maxfile = ndirect + nindirect := rfl
  refine vol_eq (fun i => ?_) (fun i => ?_) (fun i' bn => ?_) (fun i => ?_) ?_ ?_
  · rw [hfile]
    rfl
  · rw [hfile]
    rfl
  · rw [hfile]
    by_cases hsame : i' = i
    · subst hsame
      change _ = update s.vol.blk i' (update (s.vol.blk i') (ndirect + j) x) i' bn
      rw [update_self]
      have hlast : (s.file i').addrs (Fin.last ndirect) ≠ 0 := fun h0 => hind (by
        change ((s.file i').addrs (Fin.last ndirect)).toNat = 0
        rw [h0]
        rfl)
      by_cases hbn : bn = ndirect + j
      · rw [hbn, update_self, blockOf, dif_neg (by omega), if_pos ⟨by omega, hlast⟩,
          indirect, Nat.add_sub_cancel_left]
        change Bytes.load 4 ((s.setCache (s.vol.ind i') _).cache (s.vol.ind i')) (4 * j) = x
        rw [setCache_cache_self, Bytes.load_store_self (by rw [bsize]; omega)]
        exact Nat.mod_eq_of_lt hx
      · rw [update_of_ne hbn]
        change _ = s.blockOf (s.file i') bn
        rw [blockOf, blockOf]
        by_cases hdir : bn < ndirect
        · rw [dif_pos hdir, dif_pos hdir]
        · rw [dif_neg hdir, dif_neg hdir]
          split_ifs with hin
          · rw [indirect, indirect]
            change Bytes.load 4 ((s.setCache (s.vol.ind i') _).cache (s.vol.ind i')) _ = _
            rw [setCache_cache_self, Bytes.load_store_of_disjoint (by omega)]
            rfl
          · rfl
    · change _ = update s.vol.blk i (update (s.vol.blk i) (ndirect + j) x) i' bn
      rw [update_of_ne hsame]
      refine blockOf_setCache fun heq => hsame ?_
      have heq' : s.vol.ind i' = s.vol.ind i := heq
      cases hlive : s.vol.live i' with
      | true =>
        exact (hs.inj i' .table i .table hlive hi (fun h0 => hind (heq'.symm.trans h0)) heq').1
      | false =>
        rw [file_of_dead hlive] at heq
        exact absurd heq.symm hind
  · rw [hfile]
    rfl
  · exact used_setCache hb
  · exact data_setCache hb

/-! ### The free map -/

theorem dinode_setBits (hl : s.sb.Layout) (b : ℕ) (f : Byte → Byte) (hi : i < s.sb.ninodes) :
    (s.setBits b f).dinode i = s.dinode i :=
  dinode_setCache hl (s.sb.bmapstart_le_bblock b) hi

section SetBits

variable {f : Byte → Byte} {v : Bool} (hself : ∀ x : Byte, (f x).getLsbD (b % bpb % 8) = v)
  (hother : ∀ (x : Byte) j, j < 8 → j ≠ b % bpb % 8 → (f x).getLsbD j = x.getLsbD j)
include hself hother

/-- **Changing one bit of the free map.** -/
theorem bit_setBits (c : ℕ) : (s.setBits b f).bit c = if c = b then v else s.bit c := by
  have hbpb : bpb = 8192 := rfl
  have hlt : ∀ x : ℕ, x % bpb / 8 < bsize := fun x => by
    rw [hbpb, bsize]
    omega
  rw [bit]
  change (Bytes.get ((s.setBits b f).cache (s.sb.bblock c)) _).getLsbD _ = _
  by_cases hblock : s.sb.bblock c = s.sb.bblock b
  · have hdiv : c / bpb = b / bpb := Nat.add_right_cancel hblock
    rw [setBits, hblock, setCache_cache_self, Bytes.get, dif_pos (hlt c), Bytes.put]
    dsimp only
    by_cases hbyte : c % bpb / 8 = b % bpb / 8
    · rw [if_pos hbyte]
      by_cases hbit : c % bpb % 8 = b % bpb % 8
      · have hcb : c = b := by
          rw [hbpb] at hdiv hbyte hbit
          omega
        rw [if_pos hcb, hbit, hself]
      · rw [if_neg fun hcb => hbit (by rw [hcb]), hother _ _ (Nat.mod_lt _ (by decide)) hbit, bit,
          hblock, hbyte]
    · rw [if_neg hbyte, if_neg fun hcb => hbyte (by rw [hcb]), bit, hblock, Bytes.get,
        dif_pos (hlt c)]
  · rw [setBits, setCache_cache_of_ne s _ hblock, if_neg fun hcb => hblock (by rw [hcb])]
    rfl

/-- **Marking a block** as used or free. -/
theorem vol_setBits (hl : s.sb.Layout) (hs : s.vol.Sound s.sb.datastart s.sb.size)
    (hb : b < s.sb.size) :
    (s.setBits b f).vol = { s.vol with used := update s.vol.used b v } := by
  have hlt := Superblock.bblock_lt hb
  have hused : (s.setBits b f).vol.used = update s.vol.used b v := by
    funext c
    change (decide (c < s.sb.size) && (s.setBits b f).bit c) = _
    rw [bit_setBits hself hother]
    by_cases hcb : c = b
    · subst hcb
      rw [if_pos rfl, update_self, decide_eq_true hb, Bool.true_and]
    · rw [if_neg hcb, update_of_ne hcb]
      rfl
  have hfile : (s.setBits b f).file = s.file :=
    file_congr rfl rfl fun _ hi => dinode_setBits hl b f hi
  have hcache : ∀ c, s.sb.datastart ≤ c → (s.setBits b f).cache c = s.cache c :=
    fun c hc => setCache_cache_of_ne s _ (by omega)
  rw [vol_of_outside hs (by rfl) hfile hcache, hused]

end SetBits

/-! ### Inodes -/

/-- An entry of the table is replaced that keeps its place. -/
theorem loaded_setInode {x : Inode} (href : x.ref = (s.inode ip).ref)
    (hvalid : x.valid = (s.inode ip).valid) (hinum : x.inum = (s.inode ip).inum) (i : ℕ) :
    (s.setInode ip x).loaded i = s.loaded i := by
  refine Table.first_congr fun jp => ?_
  by_cases hjp : jp = ip
  · subst hjp
    rw [setInode_inode_self, href, hvalid, hinum]
  · rw [setInode_inode_of_ne s x hjp]

theorem file_setInode (h : s.Holds ip) (hu : s.Unique) {x : Inode}
    (href : x.ref = (s.inode ip).ref) (hvalid : x.valid = (s.inode ip).valid)
    (hinum : x.inum = (s.inode ip).inum) (htype : x.type ≠ 0) :
    (s.setInode ip x).file = update s.file (s.inode ip).inum x.toDinode := by
  funext i
  have hloaded := loaded_setInode href hvalid hinum i
  by_cases hi : i = (s.inode ip).inum
  · have hnode : (s.setInode ip x).node i = x.toDinode := by
      rw [node, hloaded, hi, h.loaded hu]
      dsimp only
      rw [setInode_inode_self]
    rw [file, hnode, hi, update_self, if_pos ⟨h.inum, htype⟩]
  · have hnode : (s.setInode ip x).node i = s.node i := by
      rw [node, node, hloaded]
      cases hl : s.loaded i with
      | none => rfl
      | some jp =>
        dsimp only
        have hjp : jp ≠ ip := by
          rintro rfl
          have := Table.of_first hl
          simp only [Bool.and_eq_true, beq_iff_eq] at this
          exact hi this.2.symm
        rw [setInode_inode_of_ne s x hjp]
    rw [file, hnode, update_of_ne hi]
    rfl

section SetInode

variable (h : s.Holds ip) (hu : s.Unique)

include h hu

/-- What the files of a state become when an inode in the table is changed. -/
theorem vol_setInode {x : Inode} (href : x.ref = (s.inode ip).ref)
    (hvalid : x.valid = (s.inode ip).valid) (hinum : x.inum = (s.inode ip).inum)
    (htype : x.type = (s.inode ip).type) {S : Storage ℕ bsize} (hlive : S.live = s.vol.live)
    (hsize : S.size = update s.vol.size (s.inode ip).inum x.size.toNat)
    (hblk : S.blk = update s.vol.blk (s.inode ip).inum (s.blockOf x.toDinode))
    (hind : S.ind = update s.vol.ind (s.inode ip).inum
      (x.addrs (Fin.last ndirect)).toNat)
    (hused : S.used = s.vol.used) (hdata : S.data = s.vol.data) :
    (s.setInode ip x).vol = S := by
  have hfile := file_setInode h hu href hvalid hinum (by rw [htype]; exact h.type)
  refine vol_eq (fun i => ?_) (fun i => ?_) (fun i bn => ?_) (fun i => ?_) hused.symm hdata.symm
  · rw [hfile, hlive]
    by_cases hi : i = (s.inode ip).inum
    · rw [hi, update_self, htype, h.live hu, bne_iff_ne]
      exact h.type
    · rw [update_of_ne hi]
      rfl
  · rw [hfile, hsize]
    by_cases hi : i = (s.inode ip).inum
    · rw [hi, update_self, update_self]
    · rw [update_of_ne hi, update_of_ne hi]
      rfl
  · rw [hfile, hblk]
    by_cases hi : i = (s.inode ip).inum
    · rw [hi, update_self, update_self]
      rfl
    · rw [update_of_ne hi, update_of_ne hi]
      rfl
  · rw [hfile, hind]
    by_cases hi : i = (s.inode ip).inum
    · rw [hi, update_self, update_self]
    · rw [update_of_ne hi, update_of_ne hi]
      rfl

theorem Holds.size_eq : s.vol.size (s.inode ip).inum = (s.inode ip).size.toNat := by
  change (s.file (s.inode ip).inum).size.toNat = _
  rw [h.file hu]

theorem Holds.length_contents :
    (s.vol.contents (s.inode ip).inum).length = (s.inode ip).size.toNat := by
  rw [Storage.length_contents, h.size_eq hu]

theorem Holds.ind_eq :
    s.vol.ind (s.inode ip).inum = ((s.inode ip).addrs (Fin.last ndirect)).toNat := by
  change ((s.file (s.inode ip).inum).addrs (Fin.last ndirect)).toNat = _
  rw [h.file hu]

theorem Holds.blk_eq : s.vol.blk (s.inode ip).inum = s.blockOf (s.inode ip).toDinode := by
  change s.blockOf (s.file (s.inode ip).inum) = _
  rw [h.file hu]

theorem vol_setAddr {k : Fin (ndirect + 1)} (hk : (k : ℕ) < ndirect) (hb : b < 2 ^ 32) :
    (s.setInode ip { s.inode ip with
        addrs := update (s.inode ip).addrs k (BitVec.ofNat 32 b) }).vol
      = s.vol.point (s.inode ip).inum (.block k) b := by
  have hlast : Fin.last ndirect ≠ k := fun heq => by
    rw [← heq] at hk
    exact Nat.lt_irrefl _ hk
  refine vol_setInode h hu (by rfl) (by rfl) (by rfl) (by rfl) (by rfl) ?_ ?_ ?_ (by rfl) (by rfl)
  · rw [← h.size_eq hu, update_eq_self]
    rfl
  · change update s.vol.blk _ _ = _
    congr 1
    funext bn
    rw [h.blk_eq hu]
    by_cases hbn : bn = k
    · subst hbn
      rw [update_self, blockOf_direct s _ hk]
      change b = (update (s.inode ip).addrs k (BitVec.ofNat 32 b) k).toNat
      rw [update_self, BitVec.toNat_ofNat, Nat.mod_eq_of_lt hb]
    · rw [update_of_ne hbn]
      by_cases hdir : bn < ndirect
      · have hne : (⟨bn, Nat.lt_succ_of_lt hdir⟩ : Fin (ndirect + 1)) ≠ k :=
          fun heq => hbn (congrArg Fin.val heq)
        rw [blockOf_direct s _ hdir, blockOf_direct s _ hdir]
        change _ = (update (s.inode ip).addrs k (BitVec.ofNat 32 b) _).toNat
        rw [update_of_ne hne]
      · refine blockOf_of_last hdir ?_
        change _ = update (s.inode ip).addrs k (BitVec.ofNat 32 b) (Fin.last ndirect)
        rw [update_of_ne hlast]
  · dsimp only
    rw [update_of_ne hlast, ← h.ind_eq hu, update_eq_self]
    rfl

/-- **A new indirect block**, which has zeros in it. -/
theorem vol_setTable (hold : s.vol.ind (s.inode ip).inum = 0) (hb : b < 2 ^ 32)
    (hzero : s.cache b = fun _ => 0) :
    (s.setInode ip { s.inode ip with
        addrs := update (s.inode ip).addrs (Fin.last ndirect) (BitVec.ofNat 32 b) }).vol
      = s.vol.point (s.inode ip).inum .table b := by
  have htoNat : (BitVec.ofNat 32 b).toNat = b := by
    rw [BitVec.toNat_ofNat, Nat.mod_eq_of_lt hb]
  refine vol_setInode h hu (by rfl) (by rfl) (by rfl) (by rfl) (by rfl) ?_ ?_ ?_ (by rfl) (by rfl)
  · rw [← h.size_eq hu, update_eq_self]
    rfl
  · change s.vol.blk = _
    rw [eq_comm, update_eq_iff]
    refine ⟨?_, fun _ _ => rfl⟩
    funext bn
    rw [h.blk_eq hu]
    rw [h.ind_eq hu] at hold
    by_cases hdir : bn < ndirect
    · have hne : (⟨bn, Nat.lt_succ_of_lt hdir⟩ : Fin (ndirect + 1)) ≠ Fin.last ndirect :=
        fun heq => hdir.ne (congrArg Fin.val heq)
      rw [blockOf_direct s _ hdir, blockOf_direct s _ hdir]
      change (update (s.inode ip).addrs (Fin.last ndirect) _ _).toNat = _
      rw [update_of_ne hne]
    · rw [blockOf_eq_zero hdir (BitVec.eq_of_toNat_eq hold), blockOf, dif_neg hdir]
      change (if bn < maxfile ∧ update (s.inode ip).addrs (Fin.last ndirect)
          (BitVec.ofNat 32 b) (Fin.last ndirect) ≠ 0 then
        s.indirect (update (s.inode ip).addrs (Fin.last ndirect) (BitVec.ofNat 32 b)
          (Fin.last ndirect)).toNat (bn - ndirect) else 0) = 0
      rw [update_self, indirect, htoNat, hzero, Bytes.load_zero, ite_self]
  · dsimp only
    rw [update_self, htoNat]
    rfl

theorem vol_setSize {n : ℕ} (hn : n < 2 ^ 32) :
    (s.setInode ip { s.inode ip with size := BitVec.ofNat 32 n }).vol
      = s.vol.resize (s.inode ip).inum n := by
  refine vol_setInode h hu (by rfl) (by rfl) (by rfl) (by rfl) (by rfl) ?_ ?_ ?_ (by rfl) (by rfl)
  · dsimp only
    rw [BitVec.toNat_ofNat, Nat.mod_eq_of_lt hn]
    rfl
  · have hself : s.blockOf { (s.inode ip).toDinode with size := BitVec.ofNat 32 n }
        = s.vol.blk (s.inode ip).inum := by
      rw [h.blk_eq hu]
      rfl
    rw [hself, update_eq_self]
    rfl
  · rw [← h.ind_eq hu, update_eq_self]
    rfl

theorem vol_setDinode (hl : s.sb.Layout) (hs : s.vol.Sound s.sb.datastart s.sb.size) :
    (s.setDinode (s.inode ip).inum (s.inode ip).toDinode).vol = s.vol := by
  have hlt := hl.iblock_lt h.inum
  have hdata := s.sb.bmapstart_lt_datastart
  have hoff : ∀ i : ℕ, dinodeSize * (i % ipb) + dinodeSize ≤ bsize := fun i => by
    have : i % ipb < ipb := Nat.mod_lt _ (by decide)
    rw [dinodeSize, bsize]
    rw [ipb] at this ⊢
    omega
  have hdinode : ∀ i, i ≠ (s.inode ip).inum →
      (s.setDinode (s.inode ip).inum (s.inode ip).toDinode).dinode i = s.dinode i := by
    intro i hi
    rw [dinode, setDinode]
    change Dinode.load ((s.setCache _ _).cache (s.sb.iblock i)) _ = _
    by_cases hblock : s.sb.iblock i = s.sb.iblock (s.inode ip).inum
    · have hdiv : i / ipb = (s.inode ip).inum / ipb := Nat.add_right_cancel hblock
      rw [hblock, setCache_cache_self, Dinode.load_store_of_disjoint, ← hblock]
      · rfl
      · rw [dinodeSize]
        rw [ipb] at hdiv ⊢
        omega
    · rw [setCache_cache_of_ne s _ hblock]
      rfl
  have hfile : (s.setDinode (s.inode ip).inum (s.inode ip).toDinode).file = s.file := by
    funext i
    have hnode : (s.setDinode (s.inode ip).inum (s.inode ip).toDinode).node i = s.node i := by
      have hloaded : (s.setDinode (s.inode ip).inum (s.inode ip).toDinode).loaded i
          = s.loaded i := rfl
      rw [node, node, hloaded]
      cases hl' : s.loaded i with
      | some jp => rfl
      | none =>
        refine hdinode i fun hi => ?_
        rw [hi, h.loaded hu] at hl'
        exact Option.some_ne_none _ hl'
    rw [file, hnode]
    rfl
  have hcache : ∀ c, s.sb.bmapstart ≤ c →
      (s.setDinode (s.inode ip).inum (s.inode ip).toDinode).cache c = s.cache c :=
    fun c hc => setCache_cache_of_ne s _ (by omega)
  have hused : (s.setDinode (s.inode ip).inum (s.inode ip).toDinode).vol.used = s.vol.used := by
    funext c
    change (decide (c < s.sb.size) && (Bytes.get
      ((s.setDinode (s.inode ip).inum (s.inode ip).toDinode).cache (s.sb.bblock c)) _).getLsbD _) = _
    rw [hcache _ (s.sb.bmapstart_le_bblock c)]
    rfl
  rw [vol_of_outside hs (by rfl) hfile fun c hc => hcache c (by omega), hused]

end SetInode

/-! ### Transactions -/

/-- Blocks that have changed are recorded in the transaction, which has not become too big. -/
structure Changed (s s' : Fs) : Prop where
  sb : s'.sb = s.sb
  disk : s'.disk = s.disk
  logged : s.logged ⊆ s'.logged
  room : s.logged.card ≤ logblocks → s'.logged.card ≤ logblocks
  cache : ∀ b, b ∉ s'.logged → s'.cache b = s.cache b

theorem Changed.refl (s : Fs) : Changed s s := ⟨rfl, rfl, fun _ hb => hb, id, fun _ _ => rfl⟩

theorem Changed.trans (h : Changed s s') (h' : Changed s' s'') : Changed s s'' where
  sb := h'.sb.trans h.sb
  disk := h'.disk.trans h.disk
  logged := h.logged.trans h'.logged
  room := h'.room ∘ h.room
  cache b hb := (h'.cache b hb).trans (h.cache b fun hmem => hb (h'.logged hmem))

theorem logWrite_spec (hE : E "too big a transaction") {Q : Unit → Fs → Prop}
    (hQ : s.logged.card < logblocks → Q () { s with logged := insert b s.logged }) :
    wp (logWrite b) Q E s := by
  rw [logWrite, wp_bind, wp_get]
  split_ifs with hfull
  · exact hE
  · exact hQ (Nat.not_le.mp hfull)

theorem Changed.write (s : Fs) (hroom : s.logged.card < logblocks) (b : ℕ) (blk : Block) :
    Changed s { s.setCache b blk with logged := insert b s.logged } where
  sb := rfl
  disk := rfl
  logged := Finset.subset_insert b s.logged
  room _ := (Finset.card_insert_le b s.logged).trans hroom
  cache _ hc := setCache_cache_of_ne s blk fun heq => hc (heq ▸ Finset.mem_insert_self _ _)

theorem Changed.setBits (s : Fs) (hroom : s.logged.card < logblocks) (b : ℕ) (f : Byte → Byte) :
    Changed s { s.setBits b f with logged := insert (s.sb.bblock b) s.logged } :=
  .write s hroom _ _

@[simp] theorem vol_logged (s : Fs) (l : Finset ℕ) : ({ s with logged := l } : Fs).vol = s.vol := rfl

/-- **A file system that is as it should be.** -/
structure Sane (s : Fs) : Prop where
  layout : s.sb.Layout
  unique : s.Unique
  sound : s.vol.Sound s.sb.datastart s.sb.size

theorem getLsbD_mask {k j : ℕ} (hj : j < 8) : (1#8 <<< k).getLsbD j = decide (j = k) := by
  rw [BitVec.getLsbD_shiftLeft, BitVec.getLsbD_one]
  rcases Nat.lt_trichotomy j k with hlt | heq | hgt
  · simp [hlt, hlt.ne]
  · simp [heq]
    omega
  · have hsub : j - k ≠ 0 := by omega
    simp [hgt.ne', hsub]

/-- **`balloc`** takes a block that is not used, or there is none. -/
theorem balloc_spec (h : s.Sane) (hE : E "too big a transaction") :
    wp balloc (fun b s' => Changed s s' ∧ s'.inode = s.inode ∧
      (b = 0 ∧ s' = s ∧ s.vol.free s.sb.size = 0 ∨
        b ≠ 0 ∧ b < s.sb.size ∧ s.vol.used b = false ∧ s'.vol = s.vol.take b)) E s := by
  rw [balloc, wp_bind, wp_get]
  cases hfind : (List.range s.sb.size).find? fun b => !s.bit b with
  | none =>
    refine ⟨.refl s, rfl, Or.inl ⟨rfl, rfl, Storage.free_eq_zero fun c hc => ?_⟩⟩
    have hbit := List.find?_eq_none.mp hfind c (List.mem_range.mpr hc)
    change (decide (c < s.sb.size) && s.bit c) = true
    simpa [hc] using hbit
  | some b =>
    have hb : b < s.sb.size := List.mem_range.mp (List.mem_of_find?_eq_some hfind)
    have hbit : s.bit b = false := by simpa using List.find?_some hfind
    have hused : s.vol.used b = false := by
      change (decide (b < s.sb.size) && s.bit b) = false
      rw [hbit, Bool.and_false]
    have hlow := h.sound.low_of_unused hused
    have hpos := s.sb.datastart_pos
    have hmod : b % bpb % 8 < 8 := Nat.mod_lt _ (by decide)
    have hmark : (s.setBits b (· ||| 1#8 <<< (b % bpb % 8))).vol
        = { s.vol with used := update s.vol.used b true } := by
      refine vol_setBits (fun x => ?_) (fun x j hj hne => ?_) h.layout h.sound hb
      · rw [BitVec.getLsbD_or, getLsbD_mask hmod, decide_eq_true rfl, Bool.or_true]
      · rw [BitVec.getLsbD_or, getLsbD_mask hj, decide_eq_false hne, Bool.or_false]
    dsimp only
    rw [wp_bind, wp_modify, wp_bind]
    refine logWrite_spec hE fun hroom => ?_
    rw [wp_bind, bzero, wp_bind, wp_modify]
    refine logWrite_spec hE fun hroom' => ?_
    refine ⟨(Changed.setBits s hroom b (· ||| 1#8 <<< (b % bpb % 8))).trans ?_, rfl,
      Or.inr ⟨by omega, hb, hused, ?_⟩⟩
    · refine Changed.write _ ?_ b _
      exact hroom'
    change ((s.setBits b (· ||| 1#8 <<< (b % bpb % 8))).setCache b fun _ => 0).vol = _
    refine (vol_setCache (s := s.setBits b _) h.layout hlow fun i hlive heq => ?_).trans ?_
    · rw [hmark] at hlive heq
      exact h.sound.addr_ne (p := .table) hused hlive (by omega) heq
    · rw [hmark]
      rfl

end Fs

end Xv6
