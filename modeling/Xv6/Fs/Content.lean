import Xv6.Fs.Reservation

/-!
# A file is an array of bytes

What `readi` and `writei` do, on `Fs.vol`. A block of the file is looked up and added if it is not
there. Adding a block changes no file, since it comes with zeros in it and what is not there reads as
zeros. Writing a block changes one file, since no other has that block.

A write goes on until all is written, there are no blocks left, or the source cannot be read any
further. In the last case the code has moved what could be read into the last block, and then leaves
it at that.
-/

namespace Xv6

open Prog

namespace Fs

variable {s s' s'' t : Fs} {ip : Fin ninode} {bn off n fuel : ℕ} {src : List Byte}
  {E : String → Prop}

/-! ### What a write leaves alone -/

/-- **What a write to an inode leaves alone**: all blocks that are not recorded, all other entries of
the inode table, and of its entry all but size and addresses. -/
structure Extends (s s' : Fs) (ip : Fin ninode) : Prop where
  changed : Changed s s'
  others : ∀ jp, jp ≠ ip → s'.inode jp = s.inode jp
  self : s'.inode ip = { s.inode ip with
    size := (s'.inode ip).size, addrs := (s'.inode ip).addrs }
  sane : s'.Sane

theorem Extends.refl (hs : s.Sane) (ip : Fin ninode) : Extends s s ip :=
  ⟨.refl s, fun _ _ => rfl, rfl, hs⟩

theorem Extends.trans (h : Extends s s' ip) (h' : Extends s' s'' ip) : Extends s s'' ip where
  changed := h.changed.trans h'.changed
  others jp hjp := (h'.others jp hjp).trans (h.others jp hjp)
  self := by
    rw [h'.self, h.self]
  sane := h'.sane

theorem Extends.inum (h : Extends s s' ip) : (s'.inode ip).inum = (s.inode ip).inum := by
  rw [h.self]

theorem Extends.locked (h : Extends s s' ip) : (s'.inode ip).locked = (s.inode ip).locked := by
  rw [h.self]

theorem Extends.holds (h : Extends s s' ip) (hh : s.Holds ip) : s'.Holds ip := by
  obtain ⟨href, hvalid, hinum, htype⟩ := hh
  constructor
  · rw [h.self]
    exact href
  · rw [h.self]
    exact hvalid
  · rw [h.inum, h.changed.sb]
    exact hinum
  · rw [h.self]
    exact htype

/-- How to show it: the table stays unique because no entry is for another inode than before. -/
theorem Extends.intro (hs : s.Sane) (hc : Changed s s')
    (hothers : ∀ jp, jp ≠ ip → s'.inode jp = s.inode jp)
    (hself : s'.inode ip = { s.inode ip with
      size := (s'.inode ip).size, addrs := (s'.inode ip).addrs })
    (hsound : s'.vol.Sound s.sb.datastart s.sb.size) : Extends s s' ip := by
  have hkeep : ∀ jp, (s'.inode jp).ref = (s.inode jp).ref ∧
      (s'.inode jp).inum = (s.inode jp).inum := by
    intro jp
    by_cases hjp : jp = ip
    · rw [hjp, hself]
      exact ⟨rfl, rfl⟩
    · rw [hothers jp hjp]
      exact ⟨rfl, rfl⟩
  refine ⟨hc, hothers, hself, ?_, fun jp kp hjp hkp heq => ?_, ?_⟩
  · rw [hc.sb]
    exact hs.layout
  · rw [(hkeep jp).1] at hjp
    rw [(hkeep kp).1] at hkp
    rw [(hkeep jp).2, (hkeep kp).2] at heq
    exact hs.unique jp kp hjp hkp heq
  · rw [hc.sb]
    exact hsound

theorem Extends.of_inode (hs : s.Sane) (hc : Changed s s') (hinode : s'.inode = s.inode)
    (hsound : s'.vol.Sound s.sb.datastart s.sb.size) : Extends s s' ip :=
  .intro hs hc (fun jp _ => by rw [hinode]) (by rw [hinode]) hsound

theorem Extends.setSlot {k : Fin (ndirect + 1)} {b : ℕ} (hs : s.Sane) (hc : Changed s s')
    (hinode : s'.inode = s.inode)
    (hsound : (s'.setSlot ip k b).vol.Sound s.sb.datastart s.sb.size) :
    Extends s (s'.setSlot ip k b) ip := by
  refine .intro hs ⟨hc.sb, hc.disk, hc.logged, hc.room, hc.cache⟩ (fun jp hjp => ?_) ?_ hsound
  · rw [Fs.setSlot, setInode_inode_of_ne s' _ hjp, hinode]
  · rw [Fs.setSlot, setInode_inode_self, hinode]

/-! ### The blocks of a file -/

/-- The place that a slot of an inode is for. -/
def slotSite (k : Fin (ndirect + 1)) : Site := if (k : ℕ) < ndirect then .block k else .table

section Slot

variable (hs : s.Sane) (h : s.Holds ip)

include hs h

theorem Holds.addr_slot (k : Fin (ndirect + 1)) :
    s.vol.addr (s.inode ip).inum (slotSite k) = ((s.inode ip).addrs k).toNat := by
  rw [slotSite]
  split_ifs with hk
  · change s.vol.blk _ _ = _
    rw [h.blk_eq hs.unique, blockOf_direct s _ hk]
  · have hlast : k = Fin.last ndirect := by
      refine Fin.ext ?_
      have := k.isLt
      change (k : ℕ) = ndirect
      omega
    change s.vol.ind _ = _
    rw [h.ind_eq hs.unique, hlast]

/-- **A new block in a slot.** -/
theorem gains_setSlot {k : Fin (ndirect + 1)} {b : ℕ} (hsb : s'.sb = s.sb)
    (hinode : s'.inode = s.inode) (hvol : s'.vol = s.vol.take b)
    (hb : s.vol.used b = false) (hlt : b < s.sb.size) (hold : ((s.inode ip).addrs k).toNat = 0) :
    s.vol.Gains (s'.setSlot ip k b).vol s.sb.datastart s.sb.size (s.inode ip).inum (slotSite k)
      b := by
  have hh' : s'.Holds ip := by
    obtain ⟨href, hvalid, hinum, htype⟩ := h
    exact ⟨by rw [hinode]; exact href, by rw [hinode]; exact hvalid,
      by rw [hinode, hsb]; exact hinum, by rw [hinode]; exact htype⟩
  have hu' : s'.Unique := by
    intro jp kp
    rw [hinode]
    exact hs.unique jp kp
  have hb32 : b < 2 ^ 32 := hlt.trans_le hs.layout.size
  have hlow := hs.sound.low_of_unused hb
  have hvol' : (s'.setSlot ip k b).vol
      = (s.vol.take b).point (s.inode ip).inum (slotSite k) b := by
    rw [← hvol, ← hinode, slotSite]
    by_cases hk : (k : ℕ) < ndirect
    · rw [if_pos hk]
      exact vol_setAddr hh' hu' hk hb32
    · have hlast : k = Fin.last ndirect := by
        refine Fin.ext ?_
        have := k.isLt
        change (k : ℕ) = ndirect
        omega
      subst hlast
      rw [if_neg hk]
      refine vol_setTable hh' hu' ?_ hb32 ?_
      · rw [hh'.ind_eq hu', hinode]
        exact hold
      · rw [← data_eq (by rw [hsb]; exact hlow), hvol]
        simp [Storage.take]
  rw [hvol']
  refine hs.sound.gains s.sb.datastart_pos (h.live hs.unique) hb hlt ?_
  rw [h.addr_slot hs]
  exact hold

/-- **`bmapSlot`** finds the block, finds that there is none left, or adds one. -/
theorem bmapSlot_spec (hE : E "too big a transaction") (k : Fin (ndirect + 1)) :
    wp (bmapSlot ip k) (fun a s' =>
      a ≠ 0 ∧ s' = s ∧ s.vol.addr (s.inode ip).inum (slotSite k) = a ∨
      a = 0 ∧ s' = s ∧ s.vol.addr (s.inode ip).inum (slotSite k) = 0 ∧
        s.vol.free s.sb.size = 0 ∨
      a ≠ 0 ∧ Extends s s' ip ∧ s.vol.Gains s'.vol s.sb.datastart s.sb.size (s.inode ip).inum
        (slotSite k) a) E s := by
  refine wp_bmapSlot (fun hne => Or.inl ⟨hne, rfl, h.addr_slot hs k⟩) fun hold => ?_
  refine wp_imp (balloc_spec hs hE) fun b s' ⟨hc, hinode, hb⟩ => ?_
  rcases hb with ⟨h0, rfl, hfree⟩ | ⟨hne, hlt, hb, hvol⟩
  · exact ⟨fun _ => Or.inr (Or.inl ⟨rfl, rfl, (h.addr_slot hs k).trans hold, hfree⟩),
      fun hne => absurd h0 hne⟩
  · have hgain := gains_setSlot hs h hc.sb hinode hvol hb hlt hold
    exact ⟨fun h0 => absurd h0 hne,
      fun _ => Or.inr (Or.inr ⟨hne, .setSlot hs hc hinode hgain.sound, hgain⟩)⟩

theorem Holds.indirect_eq (hlow : ndirect ≤ bn) (hhigh : bn < maxfile)
    (hind : s.vol.ind (s.inode ip).inum ≠ 0) :
    s.indirect (s.vol.ind (s.inode ip).inum) (bn - ndirect) = s.vol.blk (s.inode ip).inum bn := by
  have hne : (s.inode ip).addrs (Fin.last ndirect) ≠ 0 := fun h0 => hind (by
    rw [h.ind_eq hs.unique, h0]
    rfl)
  rw [h.blk_eq hs.unique, blockOf, dif_neg (Nat.not_lt.mpr hlow), if_pos ⟨hhigh, hne⟩,
    h.ind_eq hs.unique]

/-- **A block whose address is in the indirect block**: it is there, or it is added. -/
theorem bmapEntry_spec (hE : E "too big a transaction") (hlow : ndirect ≤ bn) (hhigh : bn < maxfile)
    {ind : ℕ} (hind : s.vol.ind (s.inode ip).inum = ind) (hne : ind ≠ 0) {Q : ℕ → Fs → Prop}
    (hQ : ∀ a s', Extends s s' ip →
      s.vol.Maps s'.vol ndirect s.sb.size (s.inode ip).inum bn a → Q a s') :
    (s.indirect ind (bn - ndirect) ≠ 0 → Q (s.indirect ind (bn - ndirect)) s) ∧
    (s.indirect ind (bn - ndirect) = 0 → wp balloc (fun b s' => (b = 0 → Q 0 s') ∧
      (b ≠ 0 → wp (logWrite ind) (fun _ => Q b) E
        (s'.setCache ind (Bytes.store 4 (s'.cache ind) (4 * (bn - ndirect)) b)))) E s) := by
  subst hind
  rw [h.indirect_eq hs hlow hhigh hne]
  refine ⟨fun hfound => hQ _ s (.refl hs ip) (.here hfound fun _ => hne), fun hold => ?_⟩
  refine wp_imp (balloc_spec hs hE) fun b s' ⟨hc, hinode, hb⟩ => ?_
  rcases hb with ⟨h0, rfl, hfree⟩ | ⟨hb0, hlt, hb, hvol⟩
  · exact ⟨fun _ => hQ 0 s' (.refl hs ip) (.full hold hfree), fun hb0 => absurd h0 hb0⟩
  · refine ⟨fun h0 => absurd h0 hb0, fun _ => logWrite_spec hE fun hroom => ?_⟩
    have hlive : s'.vol.live (s.inode ip).inum = true := by
      rw [hvol]
      exact h.live hs.unique
    have hind' : s'.vol.ind (s.inode ip).inum = s.vol.ind (s.inode ip).inum := by
      rw [hvol]
      rfl
    have hsound : s'.vol.Sound s'.sb.datastart s'.sb.size := by
      rw [hvol, hc.sb]
      exact hs.sound.take b
    have hj : bn - ndirect < nindirect := by
      rw [maxfile] at hhigh
      omega
    have hstore := vol_storeEntry (by rw [hc.sb]; exact hs.layout) hsound hlive
      (by rw [hind']; exact hne) hj (hlt.trans_le hs.layout.size)
    rw [hind', hvol, Nat.add_sub_cancel' hlow] at hstore
    have hgain := hs.sound.gains_put s.sb.datastart_pos (h.live hs.unique) hb hlt hold hne
      (Bytes.store 4 (s'.cache (s.vol.ind (s.inode ip).inum)) (4 * (bn - ndirect)) b)
    rw [← hstore] at hgain
    exact hQ b _ (.of_inode hs (hc.trans (.write s' hroom _ _)) hinode hgain.sound)
      (hgain.maps hb0 fun _ => hne)

/-- **`bmap`** finds the block or adds it, with the indirect block if it takes that. -/
theorem bmap_spec (hE : E "too big a transaction") (hbn : bn < maxfile) :
    wp (bmap ip bn) (fun a s' => Extends s s' ip ∧
      s.vol.Maps s'.vol ndirect s.sb.size (s.inode ip).inum bn a) E s := by
  rcases Nat.lt_or_ge bn ndirect with hdir | hlow
  · have hsite : slotSite ⟨bn, Nat.lt_succ_of_lt hdir⟩ = .block bn := if_pos hdir
    have hnd : ndirect ≤ bn → s.vol.ind (s.inode ip).inum ≠ 0 := fun hle => by omega
    refine wp_bmap_direct hdir (wp_imp (bmapSlot_spec hs h hE _) fun a s' hcase => ?_)
    rw [hsite] at hcase
    rcases hcase with ⟨hne, rfl, rfl⟩ | ⟨rfl, rfl, hold, hfree⟩ | ⟨hne, hext, hgain⟩
    · exact ⟨.refl hs ip, .here hne hnd⟩
    · exact ⟨.refl hs ip, .full hold hfree⟩
    · exact ⟨hext, hgain.maps hne hnd⟩
  · have hsite : slotSite (Fin.last ndirect) = .table := if_neg (Nat.lt_irrefl ndirect)
    refine wp_bmap_indirect hlow hbn (wp_imp (bmapSlot_spec hs h hE _) fun ind s₁ hcase => ?_)
    rw [hsite] at hcase
    rcases hcase with ⟨hne, rfl, hind⟩ | ⟨rfl, rfl, hold, hfree⟩ | ⟨hne, hext, hgain⟩
    · obtain ⟨hfound, hnew⟩ := bmapEntry_spec hs h hE hlow hbn hind hne
        fun a s' hext hmaps => And.intro hext hmaps
      exact ⟨fun h0 => absurd h0 hne, fun _ => hfound, fun _ => hnew⟩
    · have hblk : s₁.vol.blk (s₁.inode ip).inum bn = 0 := by
        have hlast : ((s₁.inode ip).addrs (Fin.last ndirect)).toNat = 0 :=
          (h.ind_eq hs.unique).symm.trans hold
        rw [h.blk_eq hs.unique]
        exact blockOf_eq_zero (Nat.not_lt.mpr hlow) (BitVec.eq_of_toNat_eq hlast)
      exact ⟨fun _ => ⟨.refl hs ip, .full hblk hfree⟩, fun hne => absurd rfl hne,
        fun hne => absurd rfl hne⟩
    · have hind : s₁.vol.ind (s₁.inode ip).inum = ind := by
        rw [hext.inum]
        exact hgain.new
      obtain ⟨hfound, hnew⟩ := bmapEntry_spec (Q := fun a s' => Extends s s' ip ∧
          s.vol.Maps s'.vol ndirect s.sb.size (s.inode ip).inum bn a)
        hext.sane (hext.holds h) hE hlow hbn hind hne fun a s' hext' hmaps => by
          rw [hext.inum, hext.changed.sb] at hmaps
          exact ⟨hext.trans hext', hgain.maps_table hne hlow hmaps⟩
      exact ⟨fun h0 => absurd h0 hne, fun _ => hfound, fun _ => hnew⟩

end Slot

/-! ### The loop of `writei` -/

/-- The number of blocks that `x` bytes take. -/
def blocksTo (x : ℕ) : ℕ := (x + (bsize - 1)) / bsize

/-- **The first `tot` bytes of `src` have been written** at `off`. -/
structure Filled (s t : Fs) (ip : Fin ninode) (src : List Byte) (off tot : ℕ) : Prop where
  ext : Extends s t ip
  len : tot ≤ src.length
  wrote : s.vol.Wrote t.vol (s.inode ip).inum off (src.take tot)
  recorded : ∀ x, off ≤ x → x < off + tot →
    t.vol.blk (s.inode ip).inum (x / bsize) ∈ t.logged ∧
      t.vol.blk (s.inode ip).inum (x / bsize) ≠ 0

/-- **How the loop ends** that has written `tot` of `n` bytes and has come to the state `t`: all is
written, there are not enough blocks, or no more of the source can be read. In the last case what can
be read has been moved. -/
inductive Stopped (s t : Fs) (ip : Fin ninode) (src : List Byte) (off n tot : ℕ) : Fs → Prop
  | done (h : tot = n) : Stopped s t ip src off n tot t
  | full (h : s.vol.free s.sb.size
      < s.vol.need ndirect (s.inode ip).inum (off / bsize) (blocksTo (off + n))) :
      Stopped s t ip src off n tot t
  | torn {a : ℕ} (h : src.length < tot + min (n - tot) (bsize - (off + tot) % bsize))
      (ha : t.vol.blk (s.inode ip).inum ((off + tot) / bsize) = a) (hne : a ≠ 0) :
      Stopped s t ip src off n tot
        (t.setCache a (Bytes.write (t.cache a) ((off + tot) % bsize) (src.drop tot)))

theorem Filled.nil (hext : Extends s t ip)
    (hwrote : s.vol.Wrote t.vol (s.inode ip).inum off []) (src : List Byte) :
    Filled s t ip src off 0 where
  ext := hext
  len := Nat.zero_le _
  wrote := by
    rw [List.take_zero]
    exact hwrote
  recorded x hlow hhigh := by omega

theorem Filled.refl (hs : s.Sane) (ip : Fin ninode) (src : List Byte) (off : ℕ) :
    Filled s s ip src off 0 :=
  .nil (.refl hs ip) (.refl _ _ _) src

theorem Filled.trans {m tot : ℕ} (h : Filled s s' ip src off m)
    (h' : Filled s' t ip (src.drop m) (off + m) tot) : Filled s t ip src off (m + tot) := by
  have hlen := h'.len
  rw [List.length_drop] at hlen
  have hm := h.len
  have hwrote := h'.wrote
  rw [h.ext.inum] at hwrote
  refine ⟨h.ext.trans h'.ext, by omega, ?_, fun x hlow hhigh => ?_⟩
  · rw [List.take_add]
    refine h.wrote.trans ?_
    rw [List.length_take_of_le hm]
    exact hwrote
  · by_cases hx : x < off + m
    · obtain ⟨hmem, hne⟩ := h.recorded x hlow hx
      have hkeep : t.vol.blk (s.inode ip).inum (x / bsize)
          = s'.vol.blk (s.inode ip).inum (x / bsize) := hwrote.keep _ (.block (x / bsize)) hne
      rw [hkeep]
      exact ⟨h'.ext.changed.logged hmem, hne⟩
    · rw [← h.ext.inum]
      exact h'.recorded x (by omega) (by omega)

/-- Write bytes to a block and record it. -/
def writeBlock (s : Fs) (a o : ℕ) (d : List Byte) : Fs :=
  { s.setCache a (Bytes.write (s.cache a) o d) with logged := insert a s.logged }

section Block

variable (hs : s.Sane) (h : s.Holds ip) {d : List Byte}
  (hne : s.vol.blk (s.inode ip).inum (off / bsize) ≠ 0)

include hs h hne

theorem vol_setBlock :
    (s.setCache (s.vol.blk (s.inode ip).inum (off / bsize))
      (Bytes.write (s.cache (s.vol.blk (s.inode ip).inum (off / bsize))) (off % bsize) d)).vol
    = s.vol.put (s.vol.blk (s.inode ip).inum (off / bsize))
      (Bytes.write (s.vol.data (s.vol.blk (s.inode ip).inum (off / bsize))) (off % bsize) d) := by
  have hlive := h.live hs.unique
  have hlow : s.sb.datastart ≤ s.vol.blk (s.inode ip).inum (off / bsize) :=
    (hs.sound.own _ (.block (off / bsize)) hlive hne).1
  rw [data_eq hlow]
  refine vol_setCache hs.layout hlow fun j hj heq => ?_
  obtain ⟨_, hsite⟩ := hs.sound.inj _ (.block (off / bsize)) j .table hlive hj hne heq.symm
  exact Site.noConfusion hsite

theorem wrote_setBlock (hfit : off % bsize + d.length ≤ bsize) :
    s.vol.Wrote (s.setCache (s.vol.blk (s.inode ip).inum (off / bsize))
      (Bytes.write (s.cache (s.vol.blk (s.inode ip).inum (off / bsize))) (off % bsize) d)).vol
      (s.inode ip).inum off d := by
  rw [vol_setBlock hs h hne]
  exact hs.sound.wrote_put (by decide) (h.live hs.unique) hne hfit

theorem filled_writeBlock (hroom : s.logged.card < logblocks) {m : ℕ} (hm : m ≤ src.length)
    (hfit : off % bsize + m ≤ bsize) :
    Filled s (s.writeBlock (s.vol.blk (s.inode ip).inum (off / bsize)) (off % bsize) (src.take m))
      ip src off m := by
  have hlen : (src.take m).length = m := List.length_take_of_le hm
  refine ⟨.of_inode hs (.write s hroom _ _) rfl ?_, hm, ?_, fun x hlow hhigh => ?_⟩
  · change (s.setCache _ _).vol.Sound _ _
    rw [vol_setBlock hs h hne]
    exact hs.sound.put _ _
  · exact wrote_setBlock hs h hne (by rw [hlen]; exact hfit)
  · have hbn : x / bsize = off / bsize := by
      have hbs : bsize = 1024 := rfl
      rw [hbs] at hfit ⊢
      omega
    have hblk : (s.writeBlock (s.vol.blk (s.inode ip).inum (off / bsize)) (off % bsize)
        (src.take m)).vol.blk = s.vol.blk := by
      rw [writeBlock, vol_logged, vol_setBlock hs h hne]
      rfl
    rw [hblk, hbn]
    exact ⟨Finset.mem_insert_self _ _, hne⟩

end Block

/-- How the loop ends, seen from an iteration before. -/
theorem Stopped.shift {m tot : ℕ} (hinum : (s''.inode ip).inum = (s.inode ip).inum) (hmn : m ≤ n)
    (hm : m ≤ src.length)
    (hfull : s''.vol.free s''.sb.size < s''.vol.need ndirect (s.inode ip).inum ((off + m) / bsize)
        (blocksTo (off + n)) →
      s.vol.free s.sb.size
        < s.vol.need ndirect (s.inode ip).inum (off / bsize) (blocksTo (off + n)))
    (h : Stopped s'' t ip (src.drop m) (off + m) (n - m) tot s') :
    Stopped s t ip src off n (m + tot) s' := by
  cases h with
  | done h => exact .done (by omega)
  | full h =>
    rw [hinum, show off + m + (n - m) = off + n by omega] at h
    exact .full (hfull h)
  | torn h ha hne =>
    rw [hinum] at ha
    rw [List.length_drop, Nat.sub_sub] at h
    rw [Nat.add_assoc] at h ha ⊢
    rw [List.drop_drop]
    exact .torn (by omega) ha hne

/-- **The loop of `writei`.** -/
theorem writeiFrom_spec (hE : E "too big a transaction") (hs : s.Sane) (h : s.Holds ip)
    (hfuel : n ≤ fuel) (hfit : off + n ≤ maxfile * bsize) :
    wp (writeiFrom ip fuel src off n) (fun tot s' => ∃ t, Filled s t ip src off tot ∧
      tot ≤ n ∧ Stopped s t ip src off n tot s') E s := by
  have hbs : bsize = 1024 := rfl
  induction fuel generalizing s src off n with
  | zero =>
    exact ⟨s, .refl hs ip src off, Nat.zero_le _, .done (by omega)⟩
  | succ fuel ih =>
    by_cases hn : n = 0
    · subst hn
      rw [writeiFrom_zero]
      exact ⟨s, .refl hs ip src off, le_rfl, .done rfl⟩
    have hbn : off / bsize < maxfile := by
      rw [Nat.div_lt_iff_lt_mul (by decide)]
      omega
    have hlast : off / bsize < blocksTo (off + n) := by
      rw [blocksTo, hbs]
      omega
    refine wp_writeiFrom hn (wp_imp (bmap_spec hs h hE hbn) fun a s₁ ⟨hext, hmaps⟩ => ?_)
    have hfill : Filled s s₁ ip src off 0 := .nil hext (hmaps.wrote off) src
    generalize hm : min n (bsize - off % bsize) = m
    refine ⟨fun h0 => ?_, fun hne hshort => ?_, fun hne hlong => ?_⟩
    · refine ⟨s₁, hfill, Nat.zero_le _, .full ?_⟩
      exact (hmaps.missing h0).trans_le (s.vol.need_one_le _ _ hlast)
    · obtain ⟨ha, _⟩ := hmaps.found hne
      refine ⟨s₁, hfill, Nat.zero_le _, ?_⟩
      have htorn : Stopped s s₁ ip src off n 0
          (s₁.setCache a (Bytes.write (s₁.cache a) ((off + 0) % bsize) (src.drop 0))) :=
        .torn (by rw [Nat.sub_zero, Nat.add_zero, hm]; omega) ha hne
      rw [List.take_of_length_le hshort.le]
      exact htorn
    · obtain ⟨ha, _, hfree⟩ := hmaps.found hne
      have hmod : off % bsize < bsize := Nat.mod_lt _ (by decide)
      have hmn : m ≤ n := hm ▸ Nat.min_le_left _ _
      refine logWrite_spec hE fun hroom => ?_
      change wp _ _ E (s₁.writeBlock a (off % bsize) (src.take m))
      rw [← hext.inum] at ha
      have hblock : Filled s₁ (s₁.writeBlock a (off % bsize) (src.take m)) ip src off m := by
        subst ha
        exact filled_writeBlock hext.sane (hext.holds h) hne hroom hlong (by omega)
      have hvol : (s₁.writeBlock a (off % bsize) (src.take m)).vol
          = s₁.vol.put a (Bytes.write (s₁.vol.data a) (off % bsize) (src.take m)) := by
        subst ha
        exact vol_setBlock hext.sane (hext.holds h) hne
      have hsb : (s₁.writeBlock a (off % bsize) (src.take m)).sb = s.sb := hext.changed.sb
      generalize s₁.writeBlock a (off % bsize) (src.take m) = s₂ at hblock hvol hsb ⊢
      have hfill₂ : Filled s s₂ ip src off m := by
        have := hfill.trans hblock
        rwa [Nat.zero_add] at this
      by_cases hn' : n - m = 0
      · rw [hn', writeiFrom_zero]
        exact ⟨s₂, hfill₂, hmn, .done (by omega)⟩
      obtain ⟨hmod₂, hsum⟩ := mod_add_of_min hm.symm hn'
      have hnext : (off + m) / bsize = off / bsize + 1 := by
        rw [hbs] at hsum hmod₂ ⊢
        omega
      refine wp_imp (ih hfill₂.ext.sane (hfill₂.ext.holds h) (by omega) (by omega))
        fun tot s' ⟨t, hfill', htot, hstop⟩ => ?_
      refine ⟨t, hfill₂.trans hfill', by omega, hstop.shift hfill₂.ext.inum hmn hlong fun hfull => ?_⟩
      -- the block was counted, and is not counted again
      have hneed := hmaps.need_le hne hlast
      rw [hnext, hvol, hsb] at hfull
      change s₁.vol.free s.sb.size
        < s₁.vol.need ndirect (s.inode ip).inum (off / bsize + 1) (blocksTo (off + n)) at hfull
      omega

/-! ### `writei` -/

/-- **`iupdate`** changes no file. -/
theorem iupdate_spec (hE : E "too big a transaction") (hs : s.Sane) (h : s.Holds ip) :
    wp (iupdate ip) (fun _ s' => Extends s s' ip ∧ s'.vol = s.vol) E s := by
  have hvol := vol_setDinode h hs.unique hs.layout hs.sound
  rw [iupdate, wp_bind, wp_get, wp_bind, wp_modify]
  refine logWrite_spec hE fun hroom => ⟨.of_inode hs (.write s hroom _ _) rfl ?_, hvol⟩
  change (s.setDinode _ _).vol.Sound _ _
  rw [hvol]
  exact hs.sound

/-- The end of `writei`: the size is set, and the inode is written back. -/
theorem finish_spec (hE : E "too big a transaction") (hs : s.Sane) (h : s.Holds ip) {tot : ℕ}
    (hlt : off + tot < 2 ^ 32) :
    wp (do
      updateInode ip fun x =>
        if x.size.toNat < off + tot then { x with size := BitVec.ofNat 32 (off + tot) } else x
      iupdate ip) (fun _ s' => Extends s s' ip ∧
        s'.vol = s.vol.resize (s.inode ip).inum (max (s.vol.size (s.inode ip).inum) (off + tot))) E
      s := by
  rw [wp_bind, updateInode, wp_modify]
  generalize hx : (if (s.inode ip).size.toNat < off + tot then
    { s.inode ip with size := BitVec.ofNat 32 (off + tot) } else s.inode ip) = x
  have hself : x = { s.inode ip with size := x.size, addrs := x.addrs } := by
    subst hx
    split_ifs <;> rfl
  have hvol : (s.setInode ip x).vol
      = s.vol.resize (s.inode ip).inum (max (s.vol.size (s.inode ip).inum) (off + tot)) := by
    rw [h.size_eq hs.unique]
    subst hx
    split_ifs with hgrow
    · rw [Nat.max_eq_right hgrow.le]
      exact vol_setSize h hs.unique hlt
    · rw [Nat.max_eq_left (Nat.not_lt.mp hgrow), ← h.size_eq hs.unique, Storage.resize_self,
        setInode, Function.update_eq_self]
  have hext : Extends s (s.setInode ip x) ip := by
    refine .intro hs ⟨rfl, rfl, fun _ hb => hb, id, fun _ _ => rfl⟩
      (fun jp hjp => setInode_inode_of_ne s x hjp) (by rw [setInode_inode_self]; exact hself) ?_
    rw [hvol]
    exact hs.sound.resize _ _
  refine wp_imp (iupdate_spec hE hext.sane (hext.holds h)) ?_
  rintro _ s' ⟨hext', hvol'⟩
  exact ⟨hext.trans hext', hvol'.trans hvol⟩

/-- A block that was only partly moved is a block of the file, so all is as it should be. -/
theorem Stopped.sane {tot : ℕ} (h : s.Holds ip) (hf : Filled s t ip src off tot)
    (hstop : Stopped s t ip src off n tot s') : s'.Sane ∧ s'.Holds ip ∧ s'.inode = t.inode := by
  have hh := hf.ext.holds h
  cases hstop with
  | done _ | full _ => exact ⟨hf.ext.sane, hh, rfl⟩
  | torn hshort ha hne =>
    rw [← hf.ext.inum] at ha
    subst ha
    refine ⟨⟨hf.ext.sane.layout, hf.ext.sane.unique, ?_⟩, ⟨hh.ref, hh.valid, hh.inum, hh.type⟩, rfl⟩
    rw [vol_setBlock hf.ext.sane hh hne]
    exact hf.ext.sane.sound.put _ _

/-- **`writei`**, at an offset where it does not refuse. -/
theorem writei_spec (hE : E "too big a transaction") (hs : s.Sane) (h : s.Holds ip)
    (hoff : off ≤ (s.inode ip).size.toNat) (hfit : off + n ≤ maxfile * bsize) :
    wp (writei ip src off n) (fun r s' => ∃ tot t u, r = some tot ∧ tot ≤ n ∧
      Filled s t ip src off tot ∧ Stopped s t ip src off n tot u ∧ Extends u s' ip ∧
      s'.vol = u.vol.resize (s.inode ip).inum
        (max (u.vol.size (s.inode ip).inum) (off + tot))) E s := by
  have hmax : maxfile * bsize = 274432 := rfl
  have hwrap : u32 (off + n) = off + n := Nat.mod_eq_of_lt (by omega)
  rw [writei, wp_bind, wp_get, hwrap, if_neg (by omega), if_neg (by omega)]
  refine wp_seq (writeiFrom_spec hE hs h le_rfl hfit) ?_
  rintro tot u ⟨t, hfill, htot, hstop⟩
  obtain ⟨hsane, hholds, hinode⟩ := hstop.sane h hfill
  have hinum : (u.inode ip).inum = (s.inode ip).inum := by rw [hinode, hfill.ext.inum]
  have hend := finish_spec hE hsane hholds (show off + tot < 2 ^ 32 by omega)
  rw [wp_bind] at hend ⊢
  refine wp_imp hend fun _ s₁ hs₁ => ?_
  refine wp_seq hs₁ ?_
  rintro _ s' ⟨hext, hvol⟩
  rw [hinum] at hvol
  exact ⟨tot, t, u, rfl, htot, hfill, hstop, hext, hvol⟩

theorem contents_of_dead {j : ℕ} (h : s.vol.live j = false) : s.vol.contents j = [] := by
  rw [Storage.contents]
  change (List.range (s.file j).size.toNat).map _ = _
  rw [file_of_dead h]
  rfl

/-- **A write whose source can be read** writes as much as there are blocks for. -/
theorem writei_whole (hE : E "too big a transaction") (hs : s.Sane) (h : s.Holds ip)
    (hoff : off ≤ (s.inode ip).size.toNat) (hfit : off + n ≤ maxfile * bsize)
    (hlen : n ≤ src.length) :
    wp (writei ip src off n) (fun r s' => ∃ tot, r = some tot ∧ tot ≤ n ∧ Extends s s' ip ∧
      s'.vol.contents (s.inode ip).inum
        = splice (s.vol.contents (s.inode ip).inum) off (src.take tot) ∧
      (∀ j, j ≠ (s.inode ip).inum → s'.vol.contents j = s.vol.contents j) ∧
      (∀ x, off ≤ x → x < off + tot →
        s'.vol.blk (s.inode ip).inum (x / bsize) ∈ s'.logged ∧
          s'.vol.blk (s.inode ip).inum (x / bsize) ≠ 0) ∧
      (tot = n ∨ s.vol.free s.sb.size
        < s.vol.need ndirect (s.inode ip).inum (off / bsize) (blocksTo (off + n)))) E s := by
  refine wp_imp (writei_spec hE hs h hoff hfit) ?_
  rintro r s' ⟨tot, t, u, rfl, htot, hfill, hstop, hext, hvol⟩
  have hut : u = t ∧ (tot = n ∨ s.vol.free s.sb.size
      < s.vol.need ndirect (s.inode ip).inum (off / bsize) (blocksTo (off + n))) := by
    cases hstop with
    | done hdone => exact ⟨rfl, Or.inl hdone⟩
    | full hfull => exact ⟨rfl, Or.inr hfull⟩
    | torn hshort _ _ => omega
  obtain ⟨rfl, hwhy⟩ := hut
  have htake : (src.take tot).length = tot := List.length_take_of_le hfill.len
  have hsize : u.vol.size = s.vol.size := hfill.wrote.size
  refine ⟨tot, rfl, htot, hfill.ext.trans hext, ?_, fun j hj => ?_, fun x hlow hhigh => ?_, hwhy⟩
  · have hcontents := hfill.wrote.contents (by rw [h.size_eq hs.unique]; exact hoff)
    rw [htake] at hcontents
    rw [hvol, hsize]
    exact hcontents
  · have hother : (u.vol.resize (s.inode ip).inum
        (max (u.vol.size (s.inode ip).inum) (off + tot))).contents j = u.vol.contents j := by
      rw [Storage.contents, Storage.resize, Storage.contents]
      simp only [Function.update_of_ne hj]
      rfl
    rw [hvol, hother]
    cases hlive : s.vol.live j with
    | true => exact hfill.wrote.contents_of_ne hj hlive
    | false =>
      have hlive' : u.vol.live j = false := by
        rw [hfill.wrote.live]
        exact hlive
      rw [contents_of_dead hlive, contents_of_dead hlive']
  · rw [hvol]
    obtain ⟨hmem, hne⟩ := hfill.recorded x hlow hhigh
    exact ⟨hext.changed.logged hmem, hne⟩

/-- **`writei` refuses** an offset behind the end, and a range that is too large. -/
theorem writei_refuses (hn : n < 2 ^ 32)
    (hbad : (s.inode ip).size.toNat < off ∨ 2 ^ 32 ≤ off + n ∨ maxfile * bsize < off + n) :
    writei ip src off n s = .ok (none, s) := by
  rw [writei, bind_of_ok rfl]
  by_cases hwrap : (s.inode ip).size.toNat < off ∨ u32 (off + n) < off
  · rw [if_pos hwrap]
    rfl
  · obtain ⟨hoff, hsum⟩ := not_wrapped hn hwrap
    have hlt : u32 (off + n) < 2 ^ 32 := Nat.mod_lt _ (by decide)
    rw [if_neg hwrap, if_pos (by omega)]
    rfl

/-! ### `readi` -/

theorem read_block (hs : s.Sane) (h : s.Holds ip)
    (hne : s.blockOf (s.inode ip).toDinode (off / bsize) ≠ 0) {m : ℕ}
    (hm : off % bsize + m ≤ bsize) :
    Bytes.read (s.cache (s.blockOf (s.inode ip).toDinode (off / bsize))) (off % bsize) m
      = (List.range m).map fun k => s.vol.byte (s.inode ip).inum (off + k) := by
  have hbs : bsize = 1024 := rfl
  refine List.map_congr_left fun k hk => ?_
  have hk := List.mem_range.mp hk
  have hdiv : (off + k) / bsize = off / bsize := by
    rw [hbs] at hm ⊢
    omega
  have hmod : (off + k) % bsize = off % bsize + k := by
    rw [hbs] at hm ⊢
    omega
  have hlow : s.sb.datastart ≤ s.blockOf (s.inode ip).toDinode (off / bsize) := by
    rw [← h.blk_eq hs.unique] at hne ⊢
    exact (hs.sound.own _ (.block (off / bsize)) (h.live hs.unique) hne).1
  rw [Storage.byte, hdiv, hmod, h.blk_eq hs.unique, if_neg hne, data_eq hlow]

/-- **The loop of `readi`.** -/
theorem readiFrom_eq (hs : s.Sane) (h : s.Holds ip) (hback : s.Backed ip) (hfuel : n ≤ fuel)
    (hn : off + n ≤ (s.inode ip).size.toNat) :
    readiFrom ip fuel off n s
      = .ok ((List.range n).map fun k => s.vol.byte (s.inode ip).inum (off + k), s) := by
  have hbs : bsize = 1024 := rfl
  induction fuel generalizing off n with
  | zero =>
    obtain rfl : n = 0 := by omega
    rfl
  | succ fuel ih =>
    by_cases hn0 : n = 0
    · subst hn0
      rfl
    have hne : s.blockOf (s.inode ip).toDinode (off / bsize) ≠ 0 := by
      refine hback _ ?_
      rw [hbs]
      omega
    rw [readiFrom, if_neg hn0, bind_of_ok (bmap_found hne), if_neg hne, bind_of_ok rfl]
    generalize hm : min n (bsize - off % bsize) = m
    have hmod : off % bsize < bsize := Nat.mod_lt _ (by decide)
    have hrest := ih (show n - m ≤ fuel by omega)
      (show off + m + (n - m) ≤ (s.inode ip).size.toNat by omega)
    rw [bind_of_ok hrest]
    refine congrArg (fun l => Except.ok (l, s)) ?_
    have hsplit : List.range n = List.range m ++ (List.range (n - m)).map (m + ·) := by
      rw [← List.range_add]
      congr 1
      omega
    rw [read_block hs h hne (by omega), hsplit, List.map_append, List.map_map]
    congr 1
    refine List.map_congr_left fun k _ => ?_
    rw [Function.comp_apply, Nat.add_assoc]

/-- **`readi`** reads what is in the file. -/
theorem readi_eq (hs : s.Sane) (h : s.Holds ip) (hback : s.Backed ip) (hn : off + n < 2 ^ 32) :
    readi ip off n s = .ok (((s.vol.contents (s.inode ip).inum).drop off).take n, s) := by
  have hlen := h.length_contents hs.unique
  have hwrap : u32 (off + n) = off + n := Nat.mod_eq_of_lt hn
  rw [readi, bind_of_ok rfl]
  dsimp only
  rw [hwrap]
  by_cases hoff : (s.inode ip).size.toNat < off
  · rw [if_pos (Or.inl hoff), List.drop_of_length_le (by omega), List.take_nil]
    rfl
  · rw [if_neg (by omega), readiFrom_eq hs h hback le_rfl (by split_ifs <;> omega)]
    refine congrArg (fun l => Except.ok (l, s)) ?_
    rw [Storage.take_drop_contents, h.size_eq hs.unique]
    congr 2
    split_ifs <;> omega

/-! ### The array -/

/-- **A write of too many blocks panics**: every one of them is recorded in the log. -/
theorem writei_too_big (hs : s.Sane) (h : s.Holds ip) (hoff : off ≤ (s.inode ip).size.toNat)
    (hfit : off + n ≤ maxfile * bsize) (hlen : n ≤ src.length)
    (hfree : s.vol.need ndirect (s.inode ip).inum (off / bsize) (blocksTo (off + n))
      ≤ s.vol.free s.sb.size)
    (hlog : s.logged.card ≤ logblocks) (hmany : logblocks < blocksTo (off + n) - off / bsize) :
    writei ip src off n s = .error "too big a transaction" := by
  have hw := writei_whole (E := (· = "too big a transaction")) rfl hs h hoff hfit hlen
  cases hrun : writei ip src off n s with
  | error e =>
    rw [wp_of_error hrun] at hw
    rw [hw]
  | ok r =>
    obtain ⟨tot, _, _, hext, _, _, hrec, hwhy⟩ := (wp_of_ok hrun).mp hw
    obtain rfl : tot = n := hwhy.resolve_right (Nat.not_lt.mpr hfree)
    have hcard := hext.changed.room hlog
    have hlive := (hext.holds h).live hext.sane.unique
    rw [hext.inum] at hlive
    have hbs : bsize = 1024 := rfl
    have hlb : logblocks = 30 := rfl
    -- the block `bn` has a byte that was written
    have hblock : ∀ bn ∈ Finset.Ico (off / bsize) (blocksTo (off + tot)),
        r.2.vol.blk (s.inode ip).inum bn ∈ r.2.logged ∧
          r.2.vol.blk (s.inode ip).inum bn ≠ 0 := by
      intro bn hbn
      obtain ⟨hlow, hhigh⟩ := Finset.mem_Ico.mp hbn
      have hx : max off (bn * bsize) / bsize = bn := by
        rw [hbs] at hlow ⊢
        omega
      have := hrec (max off (bn * bsize)) (Nat.le_max_left _ _) (by
        rw [blocksTo] at hhigh hmany
        rw [hbs] at hlow hhigh hmany ⊢
        omega)
      rwa [hx] at this
    have hsub : (Finset.Ico (off / bsize) (blocksTo (off + tot))).image
        (r.2.vol.blk (s.inode ip).inum) ⊆ r.2.logged := by
      intro b hb
      obtain ⟨bn, hbn, rfl⟩ := Finset.mem_image.mp hb
      exact (hblock bn hbn).1
    have hinj : Set.InjOn (r.2.vol.blk (s.inode ip).inum)
        (Finset.Ico (off / bsize) (blocksTo (off + tot))) := by
      intro bn hbn bn' _ heq
      obtain ⟨_, hsite⟩ := hext.sane.sound.inj _ (.block bn) _ (.block bn') hlive hlive
        (hblock bn hbn).2 heq
      exact Site.block.inj hsite
    have hle := Finset.card_le_card hsub
    rw [Finset.card_image_of_injOn hinj, Nat.card_Ico] at hle
    omega

/-- A write to `k` blocks records `2 * k + 3` blocks at most. -/
theorem writei_of_room (ip : Fin ninode) (hs : s.Sane) (hn : n < 2 ^ 32) (src : List Byte)
    (hroom : s.logged.card + 2 * (blocksTo (off + n) - off / bsize) + 3 ≤ logblocks) :
    ∃ r s', writei ip src off n s = .ok (r, s') := by
  have hbs : bsize = 1024 := rfl
  have hdue := due_le_card s.logged (s.tableAddr ip)
  rw [← dueFor] at hdue
  by_cases hn0 : n = 0
  · have hspan : off % bsize + n ≤ (0 + 1) * bsize := by
      rw [hbs]
      omega
    obtain ⟨r, s', hrun, _⟩ := exists_of_wp (writei_due ip src hs.layout.size hn
      (Or.inr (Or.inr ⟨rfl, hn0⟩)) hspan (by omega))
    exact ⟨r, s', hrun⟩
  · rw [blocksTo] at hroom
    have hspan : off % bsize + n
        ≤ (((off + n + (bsize - 1)) / bsize - off / bsize - 1) + 1) * bsize := by
      rw [hbs]
      omega
    obtain ⟨r, s', hrun, _⟩ := exists_of_wp (writei_due ip src hs.layout.size hn
      (Or.inl rfl) hspan (by rw [hbs] at hroom ⊢; omega))
    exact ⟨r, s', hrun⟩

/-- **A file is an array of bytes.** A write replaces the bytes of the array from its offset on and
changes no other file, unless the log has no room for it. A read delivers bytes of the array and
changes nothing. A write that does not start in the array or ends beyond the largest size is
refused. -/
theorem Sane.file_is_array (hs : s.Sane) (h : s.Holds ip) (hback : s.Backed ip)
    (hsize : (s.vol.contents (s.inode ip).inum).length ≤ maxfile * bsize) :
    (∀ off (d : List Byte), off ≤ (s.vol.contents (s.inode ip).inum).length →
      off + d.length ≤ maxfile * bsize →
      s.vol.need ndirect (s.inode ip).inum (off / bsize) (blocksTo (off + d.length))
        ≤ s.vol.free s.sb.size →
      (logblocks < s.logged.card + 2 * (blocksTo (off + d.length) - off / bsize) + 3 ∧
        writei ip d off d.length s = .error "too big a transaction") ∨
      ∃ s', writei ip d off d.length s = .ok (some d.length, s') ∧
        s'.vol.contents (s.inode ip).inum = splice (s.vol.contents (s.inode ip).inum) off d ∧
        ∀ j, j ≠ (s.inode ip).inum → s'.vol.contents j = s.vol.contents j) ∧
    (∀ off n, off + n < 2 ^ 32 →
      readi ip off n s = .ok (((s.vol.contents (s.inode ip).inum).drop off).take n, s)) ∧
    (∀ src off n, n < 2 ^ 32 → (s.vol.contents (s.inode ip).inum).length < off ∨
        2 ^ 32 ≤ off + n ∨ maxfile * bsize < off + n →
      writei ip src off n s = .ok (none, s)) := by
  have hlen := h.length_contents hs.unique
  rw [hlen] at hsize ⊢
  refine ⟨fun off d hoff hfit hfree => ?_, fun off n hn => readi_eq hs h hback hn,
    fun src off n hn hbad => writei_refuses hn hbad⟩
  have hmax : maxfile * bsize = 274432 := rfl
  have hw := writei_whole (E := (· = "too big a transaction")) rfl hs h hoff hfit le_rfl
  cases hrun : writei ip d off d.length s with
  | error e =>
    rw [wp_of_error hrun] at hw
    subst hw
    refine Or.inl ⟨Nat.lt_of_not_le fun hroom => ?_, rfl⟩
    obtain ⟨r, s', hok⟩ := writei_of_room ip hs (by omega) d hroom
    rw [hok] at hrun
    cases hrun
  | ok r =>
    obtain ⟨tot, hr, _, _, hcontents, hothers, _, hwhy⟩ := (wp_of_ok hrun).mp hw
    obtain rfl : tot = d.length := hwhy.resolve_right (Nat.not_lt.mpr hfree)
    rw [List.take_length] at hcontents
    refine Or.inr ⟨r.2, ?_, hcontents, hothers⟩
    rw [← hr]

section OneFile

theorem addrs_oneFile (i : ℕ) (k : Fin (ndirect + 1)) : (oneFile.file i).addrs k = 0 := by
  rw [file]
  split_ifs with hi
  · rw [node]
    cases hload : oneFile.loaded i with
    | some ip =>
      change (oneFile.inode ip).addrs k = 0
      rw [oneFile]
      dsimp only
      split_ifs <;> rfl
    | none =>
      have hblock : oneFile.cache (oneFile.sb.iblock i) = fun _ => 0 := by
        have hlt : i < 16 := hi.1
        have hne : oneFile.sb.iblock i ≠ 4 := by
          change i / 16 + 2 ≠ 4
          omega
        exact if_neg hne
      change BitVec.ofNat 32 (Bytes.load 4 (oneFile.cache (oneFile.sb.iblock i)) _) = 0
      rw [hblock, Bytes.load_zero]
      rfl
  · rfl

theorem addr_oneFile (i : ℕ) (p : Site) : oneFile.vol.addr i p = 0 := by
  cases p with
  | table =>
    change ((oneFile.file i).addrs (Fin.last ndirect)).toNat = 0
    rw [addrs_oneFile]
    rfl
  | block bn =>
    change oneFile.blockOf (oneFile.file i) bn = 0
    by_cases hdir : bn < ndirect
    · rw [blockOf_direct _ _ hdir, addrs_oneFile]
      rfl
    · exact blockOf_eq_zero hdir (addrs_oneFile i _)

theorem oneFile_sane : oneFile.Sane where
  layout := ⟨by decide, by decide⟩
  unique ip jp hip hjp _ := by
    have hzero : ∀ kp, 0 < (oneFile.inode kp).ref → kp.val = 0 := by
      intro kp hkp
      by_contra hne
      rw [oneFile] at hkp
      dsimp only at hkp
      rw [if_neg hne] at hkp
      exact absurd hkp (Nat.lt_irrefl 0)
    exact Fin.ext ((hzero ip hip).trans (hzero jp hjp).symm)
  sound := by
    refine ⟨fun i p _ hne => absurd (addr_oneFile i p) hne,
      fun i p _ _ _ _ hne => absurd (addr_oneFile i p) hne, ?_⟩
    decide +kernel

theorem oneFile_holds : oneFile.Holds ⟨0, by decide⟩ :=
  ⟨by decide, by decide, by decide, by decide⟩

theorem oneFile_backed : oneFile.Backed ⟨0, by decide⟩ :=
  fun _ hbn => absurd hbn (Nat.not_lt_zero _)

theorem contents_oneFile : oneFile.vol.contents 1 = [] := by
  rw [Storage.contents, show oneFile.vol.size 1 = 0 from
    oneFile_holds.size_eq oneFile_sane.unique]
  rfl

theorem free_oneFile : oneFile.vol.free 100 = 95 := by decide +kernel

/-- A write that ends in the second block. -/
theorem file_is_array_small : ∃ d s', d.length = bsize + 2 ∧
    writei ⟨0, by decide⟩ d 0 d.length oneFile = .ok (some d.length, s') ∧
    s'.vol.contents 1 = d := by
  obtain ⟨d, hd⟩ : ∃ d : List Byte, d.length = bsize + 2 :=
    ⟨List.replicate _ 104, List.length_replicate⟩
  have hlen : (oneFile.vol.contents 1).length = 0 := by rw [contents_oneFile]; rfl
  obtain ⟨hwrite, _, _⟩ := oneFile_sane.file_is_array oneFile_holds oneFile_backed
    (hlen.trans_le (Nat.zero_le _))
  obtain ⟨s', hrun, hcontents, _⟩ := (hwrite 0 d (Nat.zero_le _) (by rw [hd]; decide)
    ((Storage.need_le _ _ _ _ _).trans (by
      rw [hd, show oneFile.sb.size = 100 from rfl, free_oneFile]; decide))).resolve_left
    fun hfull => absurd hfull.1 (by rw [hd]; decide)
  refine ⟨d, s', hd, hrun, hcontents.trans ?_⟩
  rw [show (oneFile.inode ⟨0, by decide⟩).inum = 1 from rfl, contents_oneFile]
  simp [splice]

/-- A write of 31 blocks does not return, though there are blocks enough. -/
theorem large_write_panics : ∃ (s : Fs) (ip : Fin ninode) (d : List Byte), s.Sane ∧ s.Holds ip ∧
    s.Backed ip ∧ s.logged = ∅ ∧ d.length ≤ maxfile * bsize ∧
    s.vol.need ndirect (s.inode ip).inum 0 (blocksTo d.length) ≤ s.vol.free s.sb.size ∧
    writei ip d 0 d.length s = .error "too big a transaction" := by
  have hlen : (List.replicate (31 * bsize) (1 : Byte)).length = 31 * bsize := List.length_replicate
  have hblocks : blocksTo (31 * bsize) = 31 := by decide
  have hneed : oneFile.vol.need ndirect 1 0 31 ≤ oneFile.vol.free oneFile.sb.size :=
    (Storage.need_le _ _ _ _ _).trans (by
      rw [show oneFile.sb.size = 100 from rfl, free_oneFile]; decide)
  refine ⟨oneFile, ⟨0, by decide⟩, List.replicate (31 * bsize) 1, oneFile_sane, oneFile_holds,
    oneFile_backed, rfl, ?_, ?_, ?_⟩
  · rw [hlen]
    decide
  · rw [hlen, hblocks]
    exact hneed
  · refine writei_too_big oneFile_sane oneFile_holds (Nat.zero_le _) ?_ le_rfl ?_ (by decide) ?_
    · rw [hlen]
      decide
    · rw [hlen, Nat.zero_add, hblocks]
      exact hneed
    · rw [hlen, Nat.zero_add, hblocks]
      decide

end OneFile

end Fs

end Xv6
