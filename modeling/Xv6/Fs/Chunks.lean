import Xv6.BootSpec
import Xv6.Fs.Content

/-!
# A large write, part by part

`filewrite` writes to an inode in parts of `writeMax` bytes, each in a transaction of its own. The
parts come to what one write of all the bytes would: each starts where the one before has ended, both
in the source and in the file. The loop stops at the first part that was not written in full. The
offset of the open file has then moved past what was written of that part, though the caller is told
no more than that the write has failed.
-/

namespace Xv6

open Prog Function

namespace Fs

variable {s s' : Fs} {ip : Fin ninode} {E : String → Prop}

/-! ### Locking an inode -/

/-- An entry of the inode table that has an inode, which nobody has locked. -/
structure Opened (s : Fs) (ip : Fin ninode) : Prop where
  ref : 0 < (s.inode ip).ref
  unlocked : (s.inode ip).locked = false
  inum : (s.inode ip).inum < s.sb.ninodes
  type : (s.node (s.inode ip).inum).type ≠ 0

/-- The files depend on the blocks and the inodes. -/
theorem vol_congr (hsb : s'.sb = s.sb) (hcache : s'.cache = s.cache) (hnode : s'.node = s.node) :
    s'.vol = s.vol := by
  have hfile : s'.file = s.file := by
    funext i
    rw [file, file, hnode, hsb]
  have hbit : s'.bit = s.bit := by
    funext b
    rw [bit, bit, hcache, hsb]
  have hblock : s'.blockOf = s.blockOf := by
    funext d bn
    exact blockOf_congr fun _ => by rw [hcache]
  rw [vol, vol, hfile, hbit, hblock, hsb, hcache]

section SetInode

variable {x : Inode} (hpos : 0 < (s.inode ip).ref) (href : x.ref = (s.inode ip).ref)
  (hvalid : x.valid = true) (hinum : x.inum = (s.inode ip).inum)
  (hnode : x.toDinode = s.node (s.inode ip).inum)
include hpos href hvalid hinum hnode

/-- **An inode is read from disk**, or its lock changes hands. -/
theorem node_setInode (hu : s.Unique) : (s.setInode ip x).node = s.node := by
  funext i
  by_cases hi : (s.inode ip).inum = i
  · have hfirst : (s.setInode ip x).loaded i = some ip := by
      refine Table.first_of_unique ?_ fun jp hjp => ?_
      · rw [setInode_inode_self]
        simp [href, hpos, hvalid, hinum, hi]
      · by_contra hne
        rw [setInode_inode_of_ne s x hne] at hjp
        simp only [Bool.and_eq_true, decide_eq_true_eq, beq_iff_eq] at hjp
        exact hne (hu jp ip hjp.1.1 hpos (hjp.2.trans hi.symm))
    rw [node, hfirst]
    dsimp only
    rw [setInode_inode_self, hnode, hi]
  · have hload : (s.setInode ip x).loaded i = s.loaded i := by
      refine Table.first_congr fun jp => ?_
      by_cases hjp : jp = ip
      · subst hjp
        rw [setInode_inode_self, hinum, beq_eq_false_iff_ne.mpr hi, Bool.and_false, Bool.and_false]
      · rw [setInode_inode_of_ne s x hjp]
    rw [node, node, hload]
    cases hl : s.loaded i with
    | none => rfl
    | some jp =>
      have hjp : jp ≠ ip := by
        rintro rfl
        have := Table.of_first hl
        simp only [Bool.and_eq_true, beq_iff_eq] at this
        exact hi this.2
      dsimp only
      rw [setInode_inode_of_ne s x hjp]

/-- What a step that leaves the files alone may do to an entry. -/
theorem Sane.setInode (hs : s.Sane) :
    (s.setInode ip x).vol = s.vol ∧ (s.setInode ip x).Sane := by
  have hvol : (s.setInode ip x).vol = s.vol :=
    vol_congr rfl rfl (node_setInode hpos href hvalid hinum hnode hs.unique)
  refine ⟨hvol, hs.layout, fun jp kp => ?_, ?_⟩
  · have hkeep : ∀ lp, ((s.setInode ip x).inode lp).ref = (s.inode lp).ref ∧
        ((s.setInode ip x).inode lp).inum = (s.inode lp).inum := by
      intro lp
      by_cases hlp : lp = ip
      · rw [hlp, setInode_inode_self]
        exact ⟨href, hinum⟩
      · rw [setInode_inode_of_ne s x hlp]
        exact ⟨rfl, rfl⟩
    rw [(hkeep jp).1, (hkeep kp).1, (hkeep jp).2, (hkeep kp).2]
    exact hs.unique jp kp
  · rw [hvol]
    exact hs.sound

end SetInode

theorem node_eq (hu : s.Unique) (hpos : 0 < (s.inode ip).ref) : s.node (s.inode ip).inum
    = if (s.inode ip).valid then (s.inode ip).toDinode else s.dinode (s.inode ip).inum := by
  have hself : ∀ jp, (decide (0 < (s.inode jp).ref) && (s.inode jp).valid &&
      (s.inode jp).inum == (s.inode ip).inum) = true → jp = ip := by
    intro jp hjp
    simp only [Bool.and_eq_true, decide_eq_true_eq, beq_iff_eq] at hjp
    exact hu jp ip hjp.1.1 hpos hjp.2
  cases hvalid : (s.inode ip).valid with
  | true =>
    have hload : s.loaded (s.inode ip).inum = some ip :=
      Table.first_of_unique (by simp [hpos, hvalid]) hself
    rw [node, hload]
    rfl
  | false =>
    have hload : s.loaded (s.inode ip).inum = none := by
      cases hl : s.loaded (s.inode ip).inum with
      | none => rfl
      | some jp =>
        have hjp := Table.of_first hl
        obtain rfl := hself jp hjp
        simp [hvalid] at hjp
    rw [node, hload]
    rfl

/-- **`ilock`** takes the lock and reads the inode. -/
theorem ilock_eq (hu : s.Unique) (h : s.Opened ip) : ilock ip s = .ok ((), s.setInode ip
    { s.inode ip with
      toDinode := s.node (s.inode ip).inum, valid := true, locked := true }) := by
  have hlock : lockInode ip s = .ok ((), s.setInode ip { s.inode ip with locked := true }) := by
    rw [lockInode, bind_of_ok rfl, h.unlocked]
    rfl
  have hnode := node_eq hu h.ref
  rw [ilock, bind_of_ok rfl, if_neg (Nat.not_lt.mpr h.ref), bind_of_ok hlock]
  cases hvalid : (s.inode ip).valid with
  | true =>
    rw [hvalid, if_pos rfl] at hnode
    have hentry : { s.inode ip with locked := true } = { s.inode ip with
        toDinode := s.node (s.inode ip).inum, valid := true, locked := true } := by
      rw [hnode, ← hvalid]
    rw [← hentry]
    rfl
  | false =>
    rw [hvalid, if_neg Bool.false_ne_true] at hnode
    have htype := h.type
    rw [hnode] at htype ⊢
    rw [if_pos Bool.not_false, updateInode, bind_of_ok rfl, if_neg htype]
    refine congrArg (fun t => Except.ok ((), t)) ?_
    dsimp only
    rw [setInode_inode_self, setInode, setInode, update_idem]
    rfl

/-- **`ilock`** changes no file. -/
theorem ilock_spec (hs : s.Sane) (h : s.Opened ip) :
    wp (ilock ip) (fun _ s' => s'.Sane ∧ s'.Holds ip ∧ (s'.inode ip).locked = true ∧
      (s'.inode ip).inum = (s.inode ip).inum ∧ s'.vol = s.vol ∧ s'.logged = s.logged ∧
      s'.sb = s.sb) E s := by
  rw [wp_of_ok (ilock_eq hs.unique h)]
  obtain ⟨hvol, hsane⟩ := hs.setInode (x := { s.inode ip with
    toDinode := s.node (s.inode ip).inum, valid := true, locked := true }) h.ref rfl rfl rfl rfl
  refine ⟨hsane, ⟨?_, ?_, ?_, ?_⟩, ?_, ?_, hvol, rfl, rfl⟩
  all_goals rw [setInode_inode_self]
  · exact h.ref
  · exact h.inum
  · exact h.type

/-- **`iunlock` and the end of the transaction** change no file. -/
theorem release_spec (hs : s.Sane) (h : s.Holds ip) (hlocked : (s.inode ip).locked = true) :
    wp (do
      iunlock ip
      endOp) (fun _ s' => s'.Sane ∧ s'.Opened ip ∧ (s'.inode ip).inum = (s.inode ip).inum ∧
      s'.vol = s.vol ∧ s'.logged = ∅ ∧ s'.sb = s.sb) E s := by
  have hnode := h.node hs.unique
  obtain ⟨hvol, hsane⟩ := hs.setInode (x := { s.inode ip with locked := false }) h.ref rfl h.valid
    rfl hnode.symm
  have hunlock : iunlock ip s = .ok ((), s.setInode ip { s.inode ip with locked := false }) := by
    rw [iunlock, bind_of_ok rfl, hlocked, decide_eq_false (Nat.not_lt.mpr h.ref)]
    rfl
  have hkeep := node_setInode (x := { s.inode ip with locked := false }) h.ref rfl h.valid
    rfl hnode.symm hs.unique
  rw [wp_bind, wp_of_ok hunlock, endOp, wp_modify]
  refine ⟨⟨hsane.layout, hsane.unique, hsane.sound⟩, ⟨?_, ?_, ?_, ?_⟩, ?_, hvol, rfl, rfl⟩
  · change 0 < ((s.setInode ip _).inode ip).ref
    rw [setInode_inode_self]
    exact h.ref
  · change ((s.setInode ip _).inode ip).locked = false
    rw [setInode_inode_self]
  · change ((s.setInode ip _).inode ip).inum < s.sb.ninodes
    rw [setInode_inode_self]
    exact h.inum
  · change ((s.setInode ip _).node ((s.setInode ip _).inode ip).inum).type ≠ 0
    rw [hkeep, setInode_inode_self]
    dsimp only
    rw [hnode]
    exact h.type
  · change ((s.setInode ip _).inode ip).inum = _
    rw [setInode_inode_self]

/-! ### A part of a write -/

/-- **`writei` of a part** does not panic. -/
theorem writePart_spec (hs : s.Sane) (h : s.Holds ip) (hlog : s.logged = ∅) {src : List Byte}
    {off m : ℕ} (hm : m ≤ Sys.writeMax) (hpos : 0 < m) :
    wp (writei ip (src.take m) off m) (fun r s' => s'.Sane ∧ s'.Holds ip ∧
      (s'.inode ip).locked = (s.inode ip).locked ∧ (s'.inode ip).inum = (s.inode ip).inum ∧
      (src.length < m → r ≠ some m) ∧
      (m ≤ src.length → ∃ p ≤ m, r.getD 0 = p ∧ (r = some m ↔ p = m) ∧
        s'.vol.contents (s.inode ip).inum
          = splice (s.vol.contents (s.inode ip).inum) off (src.take p) ∧
        (∀ j, j ≠ (s.inode ip).inum → s'.vol.contents j = s.vol.contents j) ∧
        (0 < p → off ≤ (s.vol.contents (s.inode ip).inum).length ∧ off + p < 2 ^ 32))) E s := by
  have hbs : bsize = 1024 := rfl
  have hmax : Sys.writeMax = 3072 := rfl
  have hlb : logblocks = 30 := rfl
  have hmf : maxfile * bsize = 274432 := rfl
  have hlen := h.length_contents hs.unique
  by_cases hbad : (s.inode ip).size.toNat < off ∨ maxfile * bsize < off + m
  · -- the part is refused
    have hrun : writei ip (src.take m) off m s = .ok (none, s) :=
      writei_refuses (by omega) (hbad.imp_right Or.inr)
    rw [wp_of_ok hrun]
    refine ⟨hs, h, rfl, rfl, fun _ => nofun, fun _ => ⟨0, Nat.zero_le _, rfl, ?_, ?_,
      fun _ _ => rfl, fun h0 => absurd h0 (Nat.lt_irrefl 0)⟩⟩
    · exact ⟨nofun, fun h0 => absurd h0 hpos.ne⟩
    · rw [List.take_zero, splice_nil]
  · rw [not_or, Nat.not_lt, Nat.not_lt] at hbad
    obtain ⟨hoff, hfit⟩ := hbad
    have hdue : s.dueFor ip ≤ 2 := by
      have := due_le_card s.logged (s.tableAddr ip)
      rw [hlog, Finset.card_empty] at this
      rw [dueFor, hlog]
      exact this
    have hspan : off % bsize + m ≤ (3 + 1) * bsize := by
      have hmod : off % bsize < bsize := Nat.mod_lt _ (by decide)
      omega
    obtain ⟨r, s', hrun, _⟩ := exists_of_wp
      (writei_due ip (src.take m) hs.layout.size (by omega) (Or.inl rfl) hspan (by omega))
    obtain ⟨tot, t, u, rfl, htot, hfill, hstop, hext, hvol⟩ := (wp_of_ok hrun).mp
      (writei_spec (E := fun _ => True) trivial hs h hoff hfit)
    obtain ⟨_, hholds, hinode⟩ := hstop.sane h hfill
    rw [wp_of_ok hrun]
    refine ⟨hext.sane, hext.holds hholds, ?_, ?_, fun hshort heq => ?_, fun hlong => ?_⟩
    · rw [hext.locked, hinode, hfill.ext.locked]
    · rw [hext.inum, hinode, hfill.ext.inum]
    · have hle := hfill.len
      rw [Option.some.inj heq, List.length_take] at hle
      omega
    · obtain ⟨tot', heq, _, _, hcontents, hothers, _, _⟩ := (wp_of_ok hrun).mp
        (writei_whole (E := fun _ => True) trivial hs h hoff hfit
          (List.length_take_of_le hlong).ge)
      obtain rfl := Option.some.inj heq
      rw [List.take_take, Nat.min_eq_left htot] at hcontents
      exact ⟨tot, htot, rfl, ⟨fun hr => Option.some.inj hr, congrArg some⟩, hcontents, hothers,
        fun _ => ⟨by rw [hlen]; exact hoff, by omega⟩⟩

end Fs

/-! ### The parts of a write -/

namespace Sys

open Fs

variable {w w' w'' : Sys} {f : Fin nfile} {src : List Byte} {m n p fuel : ℕ} {E : String → Prop}

/-- The number of the inode of an open file. -/
def inumOf (w : Sys) (f : Fin nfile) : ℕ := (w.fs.inode (w.node f).ip).inum

/-- What is in an open file. -/
def contentsOf (w : Sys) (f : Fin nfile) : List Byte := w.fs.vol.contents (w.inumOf f)

/-- **Between the parts of a write**: the inode of the file is not locked, and no transaction is under
way. -/
structure Writable (w : Sys) (f : Fin nfile) : Prop where
  sane : w.fs.Sane
  opened : w.fs.Opened (w.node f).ip
  logged : w.fs.logged = ∅
  off : (w.node f).off < 2 ^ 32

/-- **The first `p` bytes of `src` have been written** to the file at its offset, and the offset has
moved by `p`. -/
structure Advanced (w w' : Sys) (f : Fin nfile) (src : List Byte) (p : ℕ) : Prop where
  contents : w'.contentsOf f = splice (w.contentsOf f) (w.node f).off (src.take p)
  others : ∀ j, j ≠ w.inumOf f → w'.fs.vol.contents j = w.fs.vol.contents j
  inum : w'.inumOf f = w.inumOf f
  node : w'.node = update w.node f { w.node f with off := (w.node f).off + p }
  kernel : w'.kernel = w.kernel
  cwd : w'.cwd = w.cwd

theorem Advanced.refl (w : Sys) (f : Fin nfile) (src : List Byte) : Advanced w w f src 0 where
  contents := by rw [List.take_zero, splice_nil]
  others _ _ := rfl
  inum := rfl
  node := by rw [Nat.add_zero, update_eq_self]
  kernel := rfl
  cwd := rfl

theorem Advanced.trans (h : Advanced w w' f src m) (h' : Advanced w' w'' f (src.drop m) p)
    (hm : m ≤ src.length) (hoff : (w.node f).off ≤ (w.contentsOf f).length) :
    Advanced w w'' f src (m + p) where
  contents := by
    have hnode : (w'.node f).off = (w.node f).off + m := by rw [h.node, update_self]
    have hsplice := splice_splice (d := src.take m) (e := (src.drop m).take p) hoff
    rw [List.length_take_of_le hm] at hsplice
    rw [h'.contents, h.contents, hnode, hsplice, List.take_add]
  others j hj := (h'.others j (by rw [h.inum]; exact hj)).trans (h.others j hj)
  inum := h'.inum.trans h.inum
  node := by
    rw [h'.node, h.node, update_self, update_idem, Nat.add_assoc]
  kernel := h'.kernel.trans h.kernel
  cwd := h'.cwd.trans h.cwd

/-- **What a part of `m` bytes comes to**, if it returns `r`. -/
structure Part (w w' : Sys) (f : Fin nfile) (src : List Byte) (m : ℕ) (r : Option ℕ) : Prop where
  writable : Writable w' f
  enough : m ≤ src.length → ∃ p ≤ m, Advanced w w' f src p ∧ (r = some m ↔ p = m) ∧
    (0 < p → (w.node f).off ≤ (w.contentsOf f).length)
  short : src.length < m → r ≠ some m

/-- **A part of a write**: what has to be shown for an iteration of the loop. -/
theorem wp_filewriteFrom (h : Writable w f) (hn : n ≠ 0) {Q : Bool → Sys → Prop}
    (hQ : ∀ w' r, Part w w' f src (min n writeMax) r →
      (r ≠ some (min n writeMax) → Q false w') ∧
      (r = some (min n writeMax) → wp (filewriteFrom f fuel (src.drop (min n writeMax))
        (n - min n writeMax)) Q E w')) :
    wp (filewriteFrom f (fuel + 1) src n) Q E w := by
  have hpos : 0 < min n writeMax := by
    have hmax : writeMax = 3072 := rfl
    omega
  rw [filewriteFrom, if_neg hn, wp_bind, wp_get, wp_bind, onFs, wp_zoom]
  generalize hm : min n writeMax = m at hpos hQ ⊢
  refine wp_imp (ilock_spec h.sane h.opened)
    fun _ s₁ ⟨hsane₁, hholds₁, hlocked₁, hinum₁, hvol₁, hlogged₁, hsb₁⟩ => ?_
  rw [wp_bind, onFs, wp_zoom]
  refine wp_imp (writePart_spec hsane₁ hholds₁ (hlogged₁.trans h.logged)
    (hm ▸ Nat.min_le_right _ _) hpos)
    fun r s₂ ⟨hsane₂, hholds₂, hlocked₂, hinum₂, hshort, hlong⟩ => ?_
  have hrest : ∀ w₂ : Sys, w₂.fs = s₂ → w₂.kernel = w.kernel → w₂.cwd = w.cwd →
      w₂.node = update w.node f { w.node f with
        off := if 0 < r.getD 0 then u32 ((w.node f).off + r.getD 0) else (w.node f).off } →
      wp (do
        onFs do
          Fs.iunlock (w.node f).ip
          Fs.endOp
        if r ≠ some m then return false
        else filewriteFrom f fuel (src.drop m) (n - m)) Q E w₂ := by
    intro w₂ hfs hkernel hcwd hnode
    rw [wp_bind, onFs, wp_zoom]
    change wp _ _ E w₂.fs
    rw [hfs]
    refine wp_imp (release_spec hsane₂ hholds₂ (hlocked₂.trans hlocked₁))
      fun _ s₃ ⟨hsane₃, hopened₃, hinum₃, hvol₃, hlogged₃, _⟩ => ?_
    have hip : (w₂.node f).ip = (w.node f).ip := by rw [hnode, update_self]
    have hput : ((fsPart.put w₂ s₃).node f).ip = (w.node f).ip := hip
    have hinum : (fsPart.put w₂ s₃).inumOf f = w.inumOf f := by
      rw [inumOf, hput]
      exact hinum₃.trans (hinum₂.trans hinum₁)
    have hpart : Part w (fsPart.put w₂ s₃) f src m r := by
      refine ⟨⟨hsane₃, by rw [hput]; exact hopened₃, hlogged₃, ?_⟩, fun hm' => ?_, hshort⟩
      · change (w₂.node f).off < 2 ^ 32
        rw [hnode, update_self]
        split_ifs
        · exact Nat.mod_lt _ (by decide)
        · exact h.off
      · obtain ⟨p, hp, hget, hiff, hcontents, hothers, hsmall⟩ := hlong hm'
        rw [hinum₁, hvol₁] at hcontents hsmall
        rw [hinum₁] at hothers
        refine ⟨p, hp, ⟨?_, fun j hj => ?_, hinum, ?_, hkernel, hcwd⟩, hiff, fun h0 => (hsmall h0).1⟩
        · rw [contentsOf, hinum]
          exact (congrArg (fun S => S.contents (w.inumOf f)) hvol₃).trans hcontents
        · exact (congrArg (fun S => S.contents j) hvol₃).trans
            ((hothers j hj).trans (congrArg (fun S => S.contents j) hvol₁))
        · have hoff : (if 0 < p then u32 ((w.node f).off + p) else (w.node f).off)
              = (w.node f).off + p := by
            split_ifs with h0
            · exact Nat.mod_eq_of_lt (hsmall h0).2
            · rw [Nat.eq_zero_of_not_pos h0, Nat.add_zero]
          change w₂.node = _
          rw [hnode, hget, hoff]
    obtain ⟨hfail, hok⟩ := hQ _ r hpart
    split_ifs with hr
    · exact hfail hr
    · exact hok (not_not.mp hr)
  dsimp only
  by_cases hgrow : 0 < r.getD 0
  · rw [if_pos hgrow, wp_bind, updateNode, wp_modify]
    refine hrest { fsPart.put w s₂ with node := _ } rfl rfl rfl ?_
    rw [if_pos hgrow]
    rfl
  · rw [if_neg hgrow]
    refine hrest (fsPart.put w s₂) rfl rfl rfl ?_
    rw [if_neg hgrow]
    exact (update_eq_self f w.node).symm

/-- **The loop of `filewrite`.** -/
theorem filewriteFrom_spec (h : Writable w f) (hfuel : n ≤ fuel) :
    wp (filewriteFrom f fuel src n) (fun b w' => (src.length < n → b = false) ∧
      (n ≤ src.length → ∃ p ≤ n, Advanced w w' f src p ∧ (b = true ↔ p = n))) E w := by
  have hmax : writeMax = 3072 := rfl
  induction fuel generalizing w src n with
  | zero =>
    obtain rfl : n = 0 := by omega
    exact ⟨fun hlt => absurd hlt (Nat.not_lt_zero _),
      fun _ => ⟨0, le_rfl, .refl w f src, iff_of_true rfl rfl⟩⟩
  | succ fuel ih =>
    by_cases hn : n = 0
    · subst hn
      exact ⟨fun hlt => absurd hlt (Nat.not_lt_zero _),
        fun _ => ⟨0, le_rfl, .refl w f src, iff_of_true rfl rfl⟩⟩
    have hpos : 0 < min n writeMax := by omega
    have hsum : ∀ q, q = n - min n writeMax ↔ min n writeMax + q = n := fun q => by omega
    refine wp_filewriteFrom h hn fun w' r hpart => ⟨fun hr => ⟨fun _ => rfl, fun hlong => ?_⟩,
      fun hr => ?_⟩
    · obtain ⟨p, hp, hadv, hiff, _⟩ := hpart.enough (by omega)
      have hne : p ≠ min n writeMax := fun heq => hr (hiff.mpr heq)
      exact ⟨p, by omega, hadv, iff_of_false Bool.false_ne_true (by omega)⟩
    · have hm : min n writeMax ≤ src.length :=
        Nat.le_of_not_lt fun hlt => hpart.short hlt hr
      obtain ⟨p, _, hadv, hiff, hoff⟩ := hpart.enough hm
      rw [hiff.mp hr] at hadv hoff
      refine wp_imp (ih hpart.writable (by omega)) fun b w'' ⟨hshort, hlong⟩ => ?_
      rw [List.length_drop] at hshort hlong
      refine ⟨fun hlt => hshort (by omega), fun hle => ?_⟩
      obtain ⟨q, hq, hadv', hiff'⟩ := hlong (by omega)
      exact ⟨min n writeMax + q, by omega, hadv.trans hadv' hm (hoff hpos), hiff'.trans (hsum q)⟩

/-- **A write in parts comes to one write.** If it returns, the file is as after one `writei` of all
the bytes, and the offset has moved by their number. If it fails though the source can be read, the
file is as after a write of a part of the bytes from the first on, and the offset has moved by the
number of these. -/
theorem write_in_parts {me : Fin nproc} {fd : Fin nofile}
    (hfd : (w.kernel.proc me).ofile fd = some f) (hwritable : (w.kernel.file f).writable = true)
    (htype : (w.kernel.file f).type = .inode) (h : Writable w f) (src : List Byte)
    (hn : n < 2 ^ 31) :
    ∃ b w', sysWrite me fd src n w = .ok (b, w') ∧
      (b = true → n ≤ src.length ∧
        w'.contentsOf f = splice (w.contentsOf f) (w.node f).off (src.take n) ∧
        (w'.node f).off = (w.node f).off + n ∧
        ∀ s₁ s₂, ilock (w.node f).ip w.fs = .ok ((), s₁) →
          writei (w.node f).ip src (w.node f).off n s₁ = .ok (some n, s₂) →
          s₂.vol.contents (w.inumOf f) = w'.contentsOf f) ∧
      (b = false → n ≤ src.length → ∃ p < n,
        w'.contentsOf f = splice (w.contentsOf f) (w.node f).off (src.take p) ∧
        (w'.node f).off = (w.node f).off + p) := by
  have hrun : wp (sysWrite me fd src n) (fun b w' => (src.length < n → b = false) ∧
      (n ≤ src.length → ∃ p ≤ n, Advanced w w' f src p ∧ (b = true ↔ p = n))) (fun _ => False)
      w := by
    rw [sysWrite, wp_bind, wp_get, hfd]
    dsimp only
    rw [hwritable, htype]
    exact filewriteFrom_spec h le_rfl
  obtain ⟨b, w', hok, hshort, hlong⟩ := exists_of_wp hrun
  refine ⟨b, w', hok, fun hb => ?_, fun hb hle => ?_⟩
  · have hle : n ≤ src.length := Nat.le_of_not_lt fun hlt => by
      rw [hshort hlt] at hb
      nomatch hb
    obtain ⟨p, _, hadv, hiff⟩ := hlong hle
    obtain rfl := hiff.mp hb
    refine ⟨hle, hadv.contents, by rw [hadv.node, update_self], fun s₁ s₂ hlock hone => ?_⟩
    obtain ⟨hsane, hholds, _, hinum, hvol, _⟩ := (wp_of_ok hlock).mp
      (ilock_spec (E := fun _ => True) h.sane h.opened)
    have hgood : ¬((s₁.inode (w.node f).ip).size.toNat < (w.node f).off ∨
        maxfile * bsize < (w.node f).off + p) := by
      intro hbad
      rw [writei_refuses (by omega) (hbad.imp_right Or.inr)] at hone
      cases hone
    rw [not_or, Nat.not_lt, Nat.not_lt] at hgood
    obtain ⟨tot, htot, _, _, hcontents, _⟩ := (wp_of_ok hone).mp
      (writei_whole (E := fun _ => True) trivial hsane hholds hgood.1 hgood.2 hle)
    obtain rfl := Option.some.inj htot
    rw [hinum, hvol] at hcontents
    rw [hadv.contents]
    exact hcontents
  · obtain ⟨p, hp, hadv, hiff⟩ := hlong hle
    have hne : p ≠ n := fun heq => by
      rw [hiff.mpr heq] at hb
      nomatch hb.symm
    exact ⟨p, by omega, hadv.contents, by rw [hadv.node, update_self]⟩

/-- The file of `Fs.oneFile`, opened by every process as every file. -/
def oneFile : Sys where
  kernel := { Boot.small.start with
    proc := fun p => { Boot.small.start.proc p with ofile := fun _ => some ⟨0, by decide⟩ }
    file := fun _ => ⟨.inode, 1, true, true, 0⟩ }
  fs := Fs.oneFile
  node _ := ⟨⟨0, by decide⟩, 0, 0⟩
  cwd _ := none

theorem oneFile_writable (f : Fin nfile) : oneFile.Writable f where
  sane := oneFile_sane
  opened := by
    refine ⟨oneFile_holds.ref, rfl, oneFile_holds.inum, ?_⟩
    exact (congrArg (fun d => d.type ≠ 0) (oneFile_holds.node oneFile_sane.unique)).mpr
      oneFile_holds.type
  logged := rfl
  off := Nat.two_pow_pos 32

/-- A write in two parts. -/
theorem write_in_parts_small : ∃ w', sysWrite ⟨0, by decide⟩ ⟨0, by decide⟩
      (List.replicate 5000 1) 5000 oneFile = .ok (true, w') ∧
    w'.contentsOf ⟨0, by decide⟩ = List.replicate 5000 1 ∧
    (w'.node ⟨0, by decide⟩).off = 5000 := by
  obtain ⟨src, hsrc⟩ : ∃ src : List Byte, src = List.replicate 5000 1 := ⟨_, rfl⟩
  have hrun : wp (sysWrite ⟨0, by decide⟩ ⟨0, by decide⟩ src 5000) (fun b _ => b = true)
      (fun _ => False) oneFile := by
    rw [hsrc]
    decide +kernel
  obtain ⟨b, w', hok, hwrote, -⟩ := write_in_parts
    (show (oneFile.kernel.proc ⟨0, by decide⟩).ofile ⟨0, by decide⟩ = some ⟨0, by decide⟩ from rfl)
    (n := 5000) rfl rfl (oneFile_writable _) src (by decide)
  have hb : b = true := (wp_of_ok hok).mp hrun
  obtain ⟨-, hcontents, hoff, -⟩ := hwrote hb
  rw [show oneFile.contentsOf ⟨0, by decide⟩ = [] from contents_oneFile] at hcontents
  rw [List.take_of_length_le (by rw [hsrc, List.length_replicate])] at hcontents
  rw [← hsrc]
  refine ⟨w', hb ▸ hok, hcontents.trans ?_, hoff⟩
  simp [splice]

end Sys

end Xv6
