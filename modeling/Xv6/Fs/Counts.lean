import Xv6.Fs.Filing
import Xv6.Fs.Refs

/-!
# Reference counts are exact

Over every sequence of system calls, the count of every open file is the number of descriptors that
point to it, and the count of every inode in the table is the number of open files and current
directories that point to it. Inside a call the counts are ahead of the tables by what the call
holds in local variables (`Sys.Counted`), and every exit of every call gives back what it took.

A process that is not alive has no descriptors and no current directory, which is why `fork` may
fill the entry that `allocproc` found, and `wait` may free that of a zombie.
-/

namespace Xv6

open Ledger Prog Function

namespace Sys

/-- The inodes that open files point to. -/
noncomputable def nodes (onDisk : Fin nfile → Bool) (node : Fin nfile → FileNode) :
    Multiset (Fin ninode) :=
  pointers fun f => if onDisk f then some (node f).ip else none

/-- The references to inodes that are in tables. -/
noncomputable def tabled (w : Sys) : Multiset (Fin ninode) :=
  nodes w.kernel.filing.onDisk w.node + pointers w.cwd

/-- The counts are right when the running code holds the references `held` to inodes. -/
structure Counted (w : Sys) (held : Multiset (Fin ninode)) : Prop where
  files : w.kernel.filing.Exact ∅ 0
  inodes : w.fs.InodeRefs (held + w.tabled)
  idle : ∀ p, ¬(w.kernel.family.mark p).state.Live →
    (∀ fd, w.kernel.filing.ofile p fd = none) ∧ w.cwd p = none

/-- The counts are right at the end of a call, when the code holds nothing. -/
abbrev settled {α : Type} (_ : α) (w : Sys) : Prop := w.Counted 0

/-- The process is alive: it may have files. -/
abbrev Live (w : Sys) (p : Fin nproc) : Prop := (w.kernel.family.mark p).state.Live

variable {α : Type} {w : Sys} {held : Multiset (Fin ninode)} {me : Fin nproc}

theorem not_live {k : Kernel} {p : Fin nproc}
    (h : (k.proc p).state = .unused ∨ (k.proc p).state = .zombie) :
    ¬(k.family.mark p).state.Live := by
  change ¬(k.proc p).state.Live
  rcases h with h | h <;> simp [h, ProcState.Live]

theorem tabled_setKernel {k : Kernel} (h : k.filing.onDisk = w.kernel.filing.onDisk) :
    tabled { w with kernel := k } = w.tabled :=
  congrArg (fun d => nodes d w.node + pointers w.cwd) h

/-- A function of the kernel, by what it does to files and to processes. -/
theorem wp_onKernel {x : Prog Kernel α} {P R : α → Kernel → Prop} {Q : α → Sys → Prop}
    (hx : wp x P (fun _ => True) w.kernel) (hy : wp x R (fun _ => True) w.kernel)
    (hQ : ∀ a k, P a k → R a k → Q a { w with kernel := k }) :
    wp (onKernel x) Q (fun _ => True) w :=
  (wp_zoom kernelPart).mpr (wp_mono (wp_and hx hy) (fun a k hk => hQ a k hk.1 hk.2)
    fun _ _ => trivial)

/-- **A function of the file system**, which may use the current directory of a process. -/
theorem Counted.onFs_cwd {x : Prog Fs α} {g : α → Multiset (Fin ninode)} (h : w.Counted held)
    (me : Fin nproc)
    (hx : Trades Fs.InodeRefs (held + ofOption (w.cwd me)) x fun a => g a + ofOption (w.cwd me))
    {Q : α → Sys → Prop} (hQ : ∀ a s, Counted { w with fs := s } (g a) → Q a { w with fs := s }) :
    wp (onFs x) Q (fun _ => True) w := by
  obtain ⟨rest, hrest⟩ := exists_pointers_eq w.cwd me
  have hsplit : ∀ m : Multiset (Fin ninode), m + w.tabled
      = m + ofOption (w.cwd me) + (nodes w.kernel.filing.onDisk w.node + rest) := fun m => by
    rw [tabled, hrest]
    abel
  refine (wp_zoom fsPart).mpr (wp_imp (hx w.fs _ (hsplit held ▸ h.inodes)) fun a s hs => ?_)
  refine hQ a s ⟨h.files, ?_, h.idle⟩
  change s.InodeRefs (g a + w.tabled)
  rw [hsplit]
  exact hs

theorem Counted.onFs {x : Prog Fs α} {g : α → Multiset (Fin ninode)} (h : w.Counted held)
    (hx : Trades Fs.InodeRefs held x g) {Q : α → Sys → Prop}
    (hQ : ∀ a s, Counted { w with fs := s } (g a) → Q a { w with fs := s }) :
    wp (onFs x) Q (fun _ => True) w :=
  (wp_zoom fsPart).mpr (wp_imp (hx w.fs _ h.inodes) fun a s hs => hQ a s ⟨h.files, hs, h.idle⟩)

/-- A change to the kernel that has the same files with an inode. -/
theorem Counted.setKernel {k : Kernel} (h : w.Counted held) (hexact : k.filing.Exact ∅ 0)
    (hdisk : k.filing.onDisk = w.kernel.filing.onDisk)
    (hidle : ∀ p, ¬(k.family.mark p).state.Live →
      ¬(w.kernel.family.mark p).state.Live ∧ k.filing.ofile p = w.kernel.filing.ofile p) :
    Counted { w with kernel := k } held := by
  refine ⟨hexact, (tabled_setKernel hdisk).symm ▸ h.inodes, fun p hp => ?_⟩
  obtain ⟨hold, hofile⟩ := hidle p hp
  exact ⟨fun fd => by rw [hofile]; exact (h.idle p hold).1 fd, (h.idle p hold).2⟩

/-- A function of the kernel that leaves processes and files alone. -/
theorem Counted.onKernel_leaves {x : Prog Kernel α} (h : w.Counted held)
    (hfiling : Leaves Kernel.filing x) (hfamily : Leaves Kernel.family x) {Q : α → Sys → Prop}
    (hQ : ∀ a k, k.filing = w.kernel.filing → k.family = w.kernel.family →
      Counted { w with kernel := k } held → Q a { w with kernel := k }) :
    wp (onKernel x) Q (fun _ => True) w := by
  refine wp_onKernel (hfiling w.kernel) (hfamily w.kernel) fun a k hf hl => hQ a k hf hl ?_
  refine h.setKernel (hf ▸ h.files) (congrArg Filing.onDisk hf) fun p hp => ?_
  rw [hl] at hp
  exact ⟨hp, congrFun (congrArg Filing.ofile hf) p⟩

theorem Counted.shelved {k : Kernel} (h : w.Counted held) (hk : Shelved me w.kernel k)
    (hfamily : k.family = w.kernel.family) (hme : w.Live me) :
    Counted { w with kernel := k } held := by
  refine h.setKernel hk.exact hk.onDisk fun p hp => ?_
  rw [hfamily] at hp
  exact ⟨hp, hk.others p fun heq => hp (heq ▸ hme)⟩

/-! ### Open files -/

theorem nodes_update (d : Fin nfile → Bool) (node : Fin nfile → FileNode) (f : Fin nfile) (b : Bool)
    (n : FileNode) :
    nodes (update d f b) (update node f n)
        + ofOption (if d f then some (node f).ip else none)
      = nodes d node + ofOption (if b then some n.ip else none) := by
  have h := pointers_update (fun g => if d g then some (node g).ip else none) f
    (if b then some n.ip else none)
  rw [nodes, nodes, ← h]
  congr 2
  funext g
  by_cases hg : g = f
  · subst hg
    simp
  · simp [hg]

/-- What is left after a file has been closed. -/
structure Closed (f : Fin nfile) (held : Multiset (Fin ninode)) (w w' : Sys) : Prop where
  filing : w'.kernel.filing = w.kernel.filing.set f (w.kernel.file f).closed
  family : w'.kernel.family = w.kernel.family
  cwd : w'.cwd = w.cwd
  inodes : w'.fs.InodeRefs (held + w'.tabled)

/-- **`fileclose`** drops the inode with the last reference to the file. -/
theorem fileclose_counted (f : Fin nfile) (h : w.fs.InodeRefs (held + w.tabled)) :
    wp (fileclose f) (fun _ w' => Closed f held w w') (fun _ => True) w := by
  rw [fileclose, wp_bind, wp_get]
  dsimp only
  rw [wp_bind]
  refine wp_onKernel (fileclose_filing f w.kernel) (fileclose_family f w.kernel)
    fun _ k hk hfamily => ?_
  obtain ⟨-, hfiling⟩ := hk
  have hdisk : k.filing.onDisk
      = update w.kernel.filing.onDisk f (w.kernel.file f).closed.type.onDisk := by
    rw [hfiling, Filing.onDisk_set]
  have hnodes := nodes_update w.kernel.filing.onDisk w.node f
    (w.kernel.file f).closed.type.onDisk (w.node f)
  rw [update_eq_self f w.node, ← hdisk] at hnodes
  change wp (if _ then _ else _) _ _ { w with kernel := k }
  split_ifs with hlast
  · have hclosed : (w.kernel.file f).closed.type.onDisk = false := by
      rw [File.closed, if_pos hlast.1]
      rfl
    have hf : w.kernel.filing.onDisk f = true := hlast.2
    rw [hclosed, hf, if_pos rfl, if_neg Bool.false_ne_true, ofOption_none, add_zero] at hnodes
    have hbefore : w.fs.InodeRefs ({(w.node f).ip}
        + (held + tabled { w with kernel := k })) := by
      have hsum : held + w.tabled = {(w.node f).ip} + (held + tabled { w with kernel := k }) := by
        rw [tabled, tabled, ← hnodes]
        change held + (nodes k.filing.onDisk w.node + {(w.node f).ip} + pointers w.cwd) = _
        abel
      exact hsum ▸ h
    refine (wp_zoom fsPart).mpr ?_
    refine wp_seq (Fs.iput_trades (w.node f).ip w.fs _ hbefore) fun _ s hs => ?_
    refine wp_imp (Fs.trades_of_keys Fs.endOp_keys 0 s _ hs) fun _ s' hs' => ?_
    rw [zero_add] at hs'
    exact ⟨hfiling, hfamily, rfl, hs'⟩
  · have hsame : (w.kernel.file f).closed.type.onDisk = w.kernel.filing.onDisk f := by
      change (w.kernel.file f).closed.type.onDisk = (w.kernel.file f).type.onDisk
      rw [File.closed]
      dsimp only
      split_ifs with hone
      · cases hd : (w.kernel.file f).type.onDisk with
        | true => exact absurd ⟨hone, hd⟩ hlast
        | false => rfl
      · rfl
    rw [hsame, update_eq_self] at hdisk
    exact ⟨hfiling, hfamily, rfl, (tabled_setKernel hdisk).symm ▸ h⟩

theorem sysClose_counted (fd : Fin nofile) (h : w.Counted 0)
    (hme : w.Live me) :
    wp (sysClose me fd) settled (fun _ => True) w := by
  rw [sysClose, wp_bind, wp_get]
  cases hf : (w.kernel.proc me).ofile fd with
  | none => exact h
  | some f =>
    dsimp only
    rw [wp_bind]
    refine wp_onKernel (Kernel.filing_fdclear w.kernel me fd) (fdclear_family fd w.kernel)
      fun _ k hfiling hfamily => ?_
    have hin : Fs.InodeRefs w.fs (0 + tabled { w with kernel := k }) :=
      (tabled_setKernel (by rw [hfiling]; rfl)).symm ▸ h.inodes
    refine wp_seq (fileclose_counted (w := { w with kernel := k }) f hin) fun _ w' hw' => ?_
    have hexact : k.filing.Exact ∅ (f ::ₘ 0) := hfiling ▸ h.files.clear hf
    have hofile : w'.kernel.filing.ofile = (w.kernel.filing.point me fd none).ofile := by
      rw [hw'.filing, ← hfiling]
      rfl
    refine ⟨?_, hw'.inodes, fun p hp => ?_⟩
    · have hclosed := hexact.closed
      rw [Finset.erase_empty] at hclosed
      rw [hw'.filing]
      exact hclosed
    · rw [hw'.family, hfamily] at hp
      have hne : p ≠ me := fun heq => hp (heq ▸ hme)
      rw [hofile, Filing.point_ofile_of_ne _ hne, hw'.cwd]
      exact h.idle p hp

theorem openFail_counted (ip : Fin ninode) (h : w.Counted {ip}) :
    wp (openFail ip) settled (fun _ => True) w := by
  refine h.onFs (g := fun _ => 0) ?_ fun _ _ hw => hw
  exact trades_bind (Fs.iunlockput_trades ip) fun _ =>
    trades_bind (Fs.trades_of_keys Fs.endOp_keys _) fun _ => trades_pure rfl

/-- A new file takes over the reference to its inode. -/
theorem fileInit_counted (omode : BitVec 32) (ip : Fin ninode) {f : Fin nfile}
    (hexact : w.kernel.filing.Exact {f} 0) (hin : w.fs.InodeRefs ({ip} + w.tabled))
    (hidle : ∀ p, ¬(w.kernel.family.mark p).state.Live →
      (∀ fd, w.kernel.filing.ofile p fd = none) ∧ w.cwd p = none) :
    wp (fileInit omode ip f) settled (fun _ => True) w := by
  have htype : (w.kernel.filing.file f).type = .none :=
    (hexact.type_eq_none f).mpr (Or.inr (Finset.mem_singleton_self f))
  rw [fileInit, wp_bind, wp_get]
  dsimp only
  generalize hx : w.fs.inode ip = x
  generalize hy : ({ w.kernel.file f with
    type := if x.type = tDevice then .device else .inode
    readable := !hasMode omode oWronly
    writable := hasMode omode oWronly || hasMode omode oRdwr } : File) = y
  have hydisk : y.type.onDisk = true := by
    rw [← hy]
    dsimp only
    split_ifs <;> rfl
  have hynone : y.type ≠ .none := fun hn => by
    rw [hn] at hydisk
    exact absurd hydisk (by decide)
  generalize hn : (if x.type = tDevice then { w.node f with ip := ip, major := x.major }
    else { w.node f with ip := ip, off := 0 } : FileNode) = n
  have hnip : n.ip = ip := by
    rw [← hn]
    split_ifs <;> rfl
  have hfinal : Counted { w with
      kernel := w.kernel.setFile f y, node := update w.node f n } 0 := by
    have hset : (w.kernel.setFile f y).filing = w.kernel.filing.set f y := rfl
    refine ⟨?_, ?_, hidle⟩
    · have hbecome := hexact.become (Finset.mem_singleton_self f) (x := y) (by rw [← hy]; rfl) hynone
      rw [Finset.erase_singleton] at hbecome
      exact hbecome
    · have hnodes := nodes_update w.kernel.filing.onDisk w.node f y.type.onDisk n
      rw [← Filing.onDisk_set, ← hset, hydisk, if_pos rfl, hnip,
        show w.kernel.filing.onDisk f = false by rw [Filing.onDisk, htype]; rfl,
        if_neg Bool.false_ne_true, ofOption_none, add_zero, ofOption_some] at hnodes
      change w.fs.InodeRefs (0 + (nodes (w.kernel.setFile f y).filing.onDisk
        (update w.node f n) + pointers w.cwd))
      rw [hnodes, zero_add, add_comm (nodes _ _), add_assoc]
      exact hin
  subst hy hn
  exact hfinal

/-- **`open`**, once the inode is known. -/
theorem openInode_counted (omode : BitVec 32) (ip : Fin ninode) (h : w.Counted {ip})
    (hme : w.Live me) :
    wp (openInode me omode ip) settled (fun _ => True) w := by
  rw [openInode, wp_bind, wp_get]
  dsimp only
  split
  · exact openFail_counted ip h
  rw [wp_bind]
  refine wp_onKernel (filealloc_new h.files) (filealloc_family w.kernel) fun r k₁ hk₁ hfamily₁ => ?_
  obtain ⟨rfl, rfl⟩ | ⟨f, rfl, -, hexact₁, hshelf₁, htype₁, -⟩ := hk₁
  · exact openFail_counted ip h
  have hin₁ : w.fs.InodeRefs ({ip} + tabled { w with kernel := k₁ }) :=
    (tabled_setKernel hshelf₁.onDisk).symm ▸ h.inodes
  dsimp only
  rw [wp_bind]
  refine wp_onKernel (fdalloc_filing me f k₁) (fdalloc_family f k₁) fun r k₂ hk₂ hfamily₂ => ?_
  obtain ⟨rfl, rfl⟩ | ⟨fd, rfl, hfree, hfiling₂⟩ := hk₂
  · -- no descriptor is free: the file is closed, and the inode given back
    dsimp only
    refine wp_seq (fileclose_counted (w := { w with kernel := k₂ }) f hin₁) fun _ w' hw' => ?_
    refine openFail_counted ip ⟨?_, hw'.inodes, fun p hp => ?_⟩
    · have hclosed := hexact₁.closed
      rw [insert_empty_eq, Finset.erase_singleton] at hclosed
      rw [hw'.filing]
      exact hclosed
    · rw [hw'.family, hfamily₁] at hp
      rw [hw'.filing, hw'.cwd]
      exact ⟨fun fd => (congrFun (congrFun hshelf₁.ofile p) fd).trans ((h.idle p hp).1 fd),
        (h.idle p hp).2⟩
  · dsimp only
    rw [wp_bind]
    have hinit := fileInit_counted (w := { w with kernel := k₂ }) omode ip (f := f) ?_ ?_ ?_
    · refine wp_imp hinit fun _ w' hw' => ?_
      rw [wp_bind]
      refine hw'.onFs (g := fun _ => 0) ?_ fun _ _ hw => hw
      have hend := trades_bind (Fs.trades_of_keys (Fs.iunlock_keys ip) 0) fun _ =>
        Fs.trades_of_keys Fs.endOp_keys 0
      exact trades_ite (trades_bind (Fs.trades_of_keys (Fs.itrunc_keys ip) _) fun _ => hend) hend
    · have hgive := hexact₁.give hfree
      rw [insert_empty_eq, ← hfiling₂] at hgive
      exact hgive
    · have hdisk₂ : k₂.filing.onDisk = w.kernel.filing.onDisk := by
        rw [hfiling₂]
        exact hshelf₁.onDisk
      exact (tabled_setKernel hdisk₂).symm ▸ h.inodes
    · intro p hp
      change ¬(k₂.family.mark p).state.Live at hp
      rw [hfamily₂, hfamily₁] at hp
      have hne : p ≠ me := fun heq => hp (heq ▸ hme)
      change (∀ fd, k₂.filing.ofile p fd = none) ∧ w.cwd p = none
      rw [hfiling₂, Filing.point_ofile_of_ne _ hne, hshelf₁.ofile]
      exact h.idle p hp

theorem openLookup_trades (cwd : Option (Fin ninode)) (path : List Byte) (omode : BitVec 32) :
    Trades Fs.InodeRefs (ofOption cwd) (openLookup cwd path omode)
      fun r => ofOption r + ofOption cwd := by
  refine trades_ite (Fs.create_trades cwd path tFile 0 0)
    (trades_bind (Fs.namei_trades cwd path) fun r => ?_)
  cases r with
  | none => exact trades_pure rfl
  | some ip =>
    refine trades_bind (Fs.trades_of_keys (Fs.ilock_keys ip) _) fun _ => trades_get fun s =>
      tradesAt_of_trades (trades_ite ?_ (trades_pure rfl))
    exact trades_call (Fs.iunlockput_trades ip) (ofOption cwd) rfl fun _ => trades_pure rfl

theorem endOp_counted (h : w.Counted held) :
    wp (onFs Fs.endOp) (fun _ w' => w'.Counted held) (fun _ => True) w :=
  h.onFs (Fs.trades_of_keys Fs.endOp_keys held) fun _ _ hw => hw

theorem sysOpen_counted (path : Option (List Byte)) (omode : BitVec 32) (h : w.Counted 0)
    (hme : w.Live me) :
    wp (sysOpen me path omode) settled (fun _ => True) w := by
  cases path with
  | none => exact h
  | some path =>
    rw [sysOpen, wp_bind, wp_get, wp_bind]
    refine h.onFs_cwd me (g := ofOption)
      ((openLookup_trades _ path omode).congr (zero_add _) fun _ => rfl) fun r s hs => ?_
    cases r with
    | none =>
      dsimp only
      rw [wp_bind]
      exact endOp_counted hs
    | some ip => exact openInode_counted omode ip hs hme

/-! ### Paths -/

/-- **`mkdir`** and **`mknod`.** -/
theorem sysCreate_counted (path : Option (List Byte)) (type major minor : BitVec 16)
    (h : w.Counted 0) :
    wp (sysCreate me path type major minor) settled (fun _ => True) w := by
  have hcreate : Trades Fs.InodeRefs (0 + ofOption (w.cwd me))
      (createAt (w.cwd me) path type major minor) fun r => ofOption r + ofOption (w.cwd me) := by
    cases path with
    | none => exact trades_pure rfl
    | some path => exact (Fs.create_trades _ path type major minor).congr (zero_add _) fun _ => rfl
  have hend : ∀ b : Bool, Trades Fs.InodeRefs (0 + ofOption (w.cwd me)) (do
      Fs.endOp
      return b) fun _ => 0 + ofOption (w.cwd me) := fun b =>
    trades_bind (Fs.trades_of_keys Fs.endOp_keys _) fun _ => trades_pure rfl
  rw [sysCreate, wp_bind, wp_get]
  refine h.onFs_cwd me (g := fun _ => 0) (trades_bind hcreate fun r => ?_) fun _ _ hw => hw
  cases r with
  | none => exact hend false
  | some ip =>
    exact trades_call (Fs.iunlockput_trades ip) (ofOption (w.cwd me)) rfl fun _ => hend true

theorem sysLink_counted (old new : Option (List Byte)) (h : w.Counted 0) :
    wp (sysLink me old new) settled (fun _ => True) w := by
  cases old with
  | none => exact h
  | some old =>
    cases new with
    | none => exact h
    | some new =>
      rw [sysLink, wp_bind, wp_get]
      refine h.onFs_cwd me (g := fun _ => 0) ?_ fun _ _ hw => hw
      exact trades_bind ((Fs.link_trades _ old new).congr (zero_add _) fun _ => rfl) fun _ =>
        trades_bind (Fs.trades_of_keys Fs.endOp_keys _) fun _ => trades_pure (zero_add _).symm

theorem sysUnlink_counted (path : Option (List Byte)) (h : w.Counted 0) :
    wp (sysUnlink me path) settled (fun _ => True) w := by
  cases path with
  | none => exact h
  | some path =>
    rw [sysUnlink, wp_bind, wp_get]
    refine h.onFs_cwd me (g := fun _ => 0) ?_ fun _ _ hw => hw
    exact trades_bind ((Fs.unlink_trades _ path).congr (zero_add _) fun _ => rfl) fun _ =>
      trades_bind (Fs.trades_of_keys Fs.endOp_keys _) fun _ => trades_pure (zero_add _).symm

theorem chdirLookup_trades (cwd : Option (Fin ninode)) (path : Option (List Byte)) :
    Trades Fs.InodeRefs (ofOption cwd) (chdirLookup cwd path)
      fun r => ofOption r + ofOption cwd := by
  cases path with
  | none => exact trades_pure (zero_add _).symm
  | some path =>
    refine trades_bind (Fs.namei_trades cwd path) fun r => ?_
    cases r with
    | none => exact trades_pure rfl
    | some ip =>
      refine trades_bind (Fs.trades_of_keys (Fs.ilock_keys ip) _) fun _ => trades_get fun s =>
        tradesAt_of_trades (trades_ite ?_ ?_)
      · exact trades_call (Fs.iunlockput_trades ip) (ofOption cwd) rfl fun _ => trades_pure rfl
      · exact trades_bind (Fs.trades_of_keys (Fs.iunlock_keys ip) _) fun _ => trades_pure rfl

/-- The current directory of a process is replaced, once the old one has been dropped. -/
theorem putCwd_counted (me : Fin nproc) (ip : Option (Fin ninode)) (h : w.Counted (ofOption ip))
    (hip : (ip = none ∧ ∀ fd, w.kernel.filing.ofile me fd = none) ∨
      (w.kernel.family.mark me).state.Live) :
    wp (do
      putCwd me
      setCwd me ip) (fun _ w' => w'.Counted 0 ∧ w'.kernel = w.kernel ∧ w'.cwd me = ip)
      (fun _ => True) w := by
  rw [wp_bind, putCwd, wp_bind, wp_get]
  cases hcwd : w.cwd me with
  | none => trivial
  | some cwd =>
    have hcwds := pointers_update w.cwd me ip
    rw [hcwd, ofOption_some] at hcwds
    refine (wp_zoom fsPart).mpr ?_
    have hsum : ofOption ip + w.tabled = {cwd}
        + (nodes w.kernel.filing.onDisk w.node + pointers (update w.cwd me ip)) := by
      calc ofOption ip + w.tabled
          = nodes w.kernel.filing.onDisk w.node + (pointers w.cwd + ofOption ip) := by
            rw [tabled]
            abel
        _ = _ := by
            rw [← hcwds]
            abel
    refine wp_seq (Fs.iput_trades cwd w.fs _ (hsum ▸ h.inodes)) fun _ s hs => ?_
    refine wp_imp (Fs.trades_of_keys Fs.endOp_keys 0 s _ hs) fun _ s' hs' => ?_
    refine ⟨⟨h.files, hs', fun p hp => ?_⟩, rfl, update_self ..⟩
    by_cases hpme : p = me
    · subst hpme
      rcases hip with ⟨rfl, hofile⟩ | hlive
      · exact ⟨hofile, update_self ..⟩
      · exact absurd hlive hp
    · exact ⟨(h.idle p hp).1, (update_of_ne hpme _ _).trans (h.idle p hp).2⟩

theorem sysChdir_counted (path : Option (List Byte)) (h : w.Counted 0)
    (hme : w.Live me) :
    wp (sysChdir me path) settled (fun _ => True) w := by
  rw [sysChdir, wp_bind, wp_get, wp_bind]
  refine h.onFs_cwd me (g := ofOption)
    ((chdirLookup_trades _ path).congr (zero_add _) fun _ => rfl) fun r s hs => ?_
  cases r with
  | none =>
    dsimp only
    rw [wp_bind]
    exact endOp_counted hs
  | some ip =>
    have hput := putCwd_counted me (some ip) hs (Or.inr hme)
    rw [wp_bind] at hput
    dsimp only
    exact wp_seq hput fun _ w' hw' => (wp_bind _).mpr (wp_imp hw' fun _ _ hw => hw.1)

/-! ### Reading and writing -/

/-- A change to an open file that keeps its inode. -/
theorem Counted.updateNode (h : w.Counted held) (f : Fin nfile) {g : FileNode → FileNode}
    (hg : (g (w.node f)).ip = (w.node f).ip) :
    Counted { w with node := update w.node f (g (w.node f)) } held := by
  refine ⟨h.files, ?_, h.idle⟩
  have hnodes := nodes_update w.kernel.filing.onDisk w.node f (w.kernel.filing.onDisk f)
    (g (w.node f))
  rw [update_eq_self f w.kernel.filing.onDisk, hg] at hnodes
  have htabled : tabled { w with node := update w.node f (g (w.node f)) } = w.tabled :=
    congrArg (· + pointers w.cwd) (add_right_cancel hnodes)
  rw [htabled]
  exact h.inodes

theorem filewriteFrom_counted (f : Fin nfile) : ∀ (fuel : ℕ) (src : List Byte) (n : ℕ) {w : Sys},
    w.Counted 0 → wp (filewriteFrom f fuel src n) settled (fun _ => True) w := by
  intro fuel
  induction fuel with
  | zero => exact fun _ _ _ h => h
  | succ fuel ih =>
    intro src n w h
    rw [filewriteFrom]
    split
    · exact h
    rw [wp_bind, wp_get]
    dsimp only
    rw [wp_bind]
    refine h.onFs (Fs.trades_of_keys (Fs.ilock_keys _) 0) fun _ s hs => ?_
    rw [wp_bind]
    refine hs.onFs (Fs.trades_of_keys (Fs.writei_keys _ _ _ _) 0) fun r s' hs' => ?_
    have hrest : ∀ {w' : Sys}, w'.Counted 0 → wp (do
        onFs do
          Fs.iunlock (w.node f).ip
          Fs.endOp
        if r ≠ some (min n writeMax) then return false
        else filewriteFrom f fuel (src.drop (min n writeMax)) (n - min n writeMax))
        settled (fun _ => True) w' := fun h' => by
      rw [wp_bind]
      refine h'.onFs (g := fun _ => 0) ?_ fun _ s'' hs'' => ?_
      · exact trades_bind (Fs.trades_of_keys (Fs.iunlock_keys _) _) fun _ =>
          Fs.trades_of_keys Fs.endOp_keys _
      · split
        · exact hs''
        · exact ih _ _ hs''
    split
    · rw [wp_bind]
      exact hrest (hs'.updateNode f (g := fun y => { y with off := u32 (y.off + r.getD 0) }) rfl)
    · exact hrest hs'

theorem sysWrite_counted (fd : Fin nofile) (src : List Byte) (n : ℕ) (h : w.Counted 0) :
    wp (sysWrite me fd src n) settled (fun _ => True) w := by
  rw [sysWrite, wp_bind, wp_get]
  split
  · exact h
  · split
    · exact h
    · split
      · exact filewriteFrom_counted _ n src n h
      · exact h

/-! ### Processes -/

theorem kexec_counted (path : List Byte) (argv : List (List Byte)) (h : w.Counted 0) :
    wp (kexec me path argv) settled (fun _ => True) w := by
  rw [kexec, wp_bind, wp_get, wp_bind]
  refine h.onFs_cwd me (g := ofOption)
    ((Fs.namei_trades _ path).congr (zero_add _) fun _ => rfl) fun r s hs => ?_
  cases r with
  | none =>
    dsimp only
    rw [wp_bind]
    exact endOp_counted hs
  | some ip =>
    have hread : Trades Fs.InodeRefs {ip} (do
        Fs.ilock ip
        let s ← Prog.get
        Fs.readi ip 0 (s.inode ip).size.toNat) fun _ => {ip} :=
      trades_bind (Fs.trades_of_keys (Fs.ilock_keys ip) _) fun _ => trades_get fun s =>
        tradesAt_of_trades (Fs.trades_of_keys (Fs.readi_keys ip _ _) _)
    dsimp only
    rw [wp_bind]
    refine hs.onFs hread fun file s' hs' => ?_
    rw [wp_bind]
    refine hs'.onKernel_leaves (kexec_leaves Kernel.filing_aside _ _)
      (kexec_leaves Kernel.family_aside _ _) fun r k _ _ hk => ?_
    rw [wp_bind]
    refine hk.onFs (g := fun _ => 0) ?_ fun _ _ hw => hw
    exact trades_bind (Fs.iunlockput_trades ip) fun _ => Fs.trades_of_keys Fs.endOp_keys _

theorem sysExec_counted (path : Option (List Byte)) (uargv : ℕ) (h : w.Counted 0) :
    wp (sysExec me path uargv) settled (fun _ => True) w := by
  cases path with
  | none => exact h
  | some path =>
    rw [sysExec, wp_bind]
    refine h.onKernel_leaves (fetchArgs_leaves Kernel.filing_aside _ _ _ _)
      (fetchArgs_leaves Kernel.family_aside _ _ _ _) fun r k _ _ hk => ?_
    obtain ⟨pages, argv⟩ := r
    have hfree : ∀ (ret : Option ℕ) {w' : Sys}, w'.Counted 0 → wp (do
        onKernel (Prog.forEach pages fun page => onVm (onKmem (kfree page)))
        return ret) settled (fun _ => True) w' := fun ret w' hw' => by
      rw [wp_bind]
      exact hw'.onKernel_leaves
        (leaves_forEach (fun _ => onVm_leaves Kernel.filing_aside _) _)
        (leaves_forEach (fun _ => onVm_leaves Kernel.family_aside _) _) fun _ _ _ _ hw => hw
    cases argv with
    | none => exact hfree none hk
    | some argv =>
      dsimp only
      exact wp_seq (kexec_counted path argv hk) fun ret w' hw' => hfree ret hw'

/-- **`wait`** frees an entry that has no files. -/
theorem kwait_counted (addr : ℕ) (h : w.Counted 0) :
    wp (onKernel (kwait me addr)) settled (fun _ => True) w := by
  refine wp_onKernel (kwait_filing addr w.kernel) (kwait_family me addr w.kernel)
    fun r k hfiling hfamily => ?_
  refine h.setKernel (hfiling ▸ h.files) (congrArg Filing.onDisk hfiling) fun p hp =>
    ⟨?_, congrFun (congrArg Filing.ofile hfiling) p⟩
  cases r with
  | sleep =>
    rw [show k = w.kernel from hfamily] at hp
    exact hp
  | ret r =>
    rcases hfamily with ⟨j, -, hreaped⟩ | ⟨-, hsame⟩
    · by_cases hpj : p = j
      · exact hpj ▸ not_live (.inr (of_zombieChild hreaped.child).2)
      · rw [hreaped.family, Family.set_mark_of_ne _ _ hpj] at hp
        exact hp
    · rw [hsame] at hp
      exact hp

/-- What `fork` does to files, up to the current directory. -/
theorem forkMake_filing {k : Kernel} (h : k.filing.Exact ∅ 0)
    (hidle : ∀ p, ¬(k.family.mark p).state.Live → ∀ fd, k.filing.ofile p fd = none) :
    wp (forkMake me) (fun r k' => match r with
      | none => k'.filing = k.filing
      | some (np, _) => Shelved np k k') (fun _ => True) k := by
  refine forkMake_filing_of (fun _ hk' => hk') fun np pid k' hunused hk' => ?_
  have hnp := hidle np (not_live (.inl hunused))
  refine wp_imp (dupFiles_filing (k := k') (hk'.symm ▸ h) (hk'.symm ▸ hnp)) fun _ k₆ hk₆ => ?_
  rw [hk'] at hk₆
  exact ⟨hk₆.1, hk₆.2.1, hk₆.2.2⟩

theorem forkStart_filing (me np : Fin nproc) (k : Kernel) {E : String → Prop} :
    wp (do
      forkAdopt me np
      forkStart np) (fun _ k' =>
        k' = k.setProc np { k.proc np with parent := some me, state := .runnable } ∧
        k'.filing = k.filing ∧ (k'.family.mark np).state.Live ∧
        ∀ p, p ≠ np → k'.family.mark p = k.family.mark p) E k := by
  rw [wp_bind, forkAdopt, wp_updateProc, forkStart, wp_updateProc, Kernel.setProc_proc_self,
    Kernel.setProc_setProc]
  refine ⟨rfl, ?_⟩
  rw [Kernel.family_setProc, Family.set_mark_self, Kernel.filing_setProc]
  exact ⟨congrArg (Filing.mk k.file) (update_eq_self np k.filing.ofile),
    by simp [ProcState.Live, Proc.mark], fun p hp => Family.set_mark_of_ne _ _ hp⟩

/-- **`fork`** gives the child its files and its current directory. -/
theorem kfork_counted (h : w.Counted 0) (hme : w.Live me) :
    wp (kfork me) settled (fun _ => True) w := by
  rw [kfork, wp_bind]
  refine wp_onKernel (forkMake_filing h.files fun p hp => (h.idle p hp).1)
    (forkMake_family me w.kernel) fun r k hfiling hk => ?_
  obtain ⟨rfl, hunborn⟩ | ⟨np, rfl, hborn⟩ := hk
  · -- an entry that was unused is unused again
    refine h.setKernel (hfiling ▸ h.files) (congrArg Filing.onDisk hfiling) fun p hp =>
      ⟨fun hlive => hp ?_, congrFun (congrArg Filing.ofile hfiling) p⟩
    have hfirst : w.kernel.firstUnused ≠ some p := fun hp' =>
      not_live (.inl (state_of_firstUnused hp')) hlive
    rw [hunborn]
    change (Family.mark (w.kernel.firstUnused.elim w.kernel.family
      fun i => w.kernel.family.set i .free) p).state.Live
    cases hu : w.kernel.firstUnused with
    | none => exact hlive
    | some i =>
      have hpi : p ≠ i := fun heq => hfirst (heq ▸ hu)
      rw [Option.elim_some, Family.set_mark_of_ne _ _ hpi]
      exact hlive
  change Shelved np w.kernel k at hfiling
  have hunused : ¬w.Live np := not_live (.inl (state_of_firstUnused hborn.1))
  have hne : np ≠ me := fun heq => hunused (heq ▸ hme)
  dsimp only
  rw [wp_bind, wp_get]
  dsimp only [kernelPart]
  cases hcwd : w.cwd me with
  | none => trivial
  | some cwd =>
    dsimp only
    rw [wp_bind]
    refine (wp_zoom fsPart).mpr ?_
    obtain ⟨rest, hrest⟩ := exists_pointers_eq w.cwd me
    rw [hcwd, ofOption_some] at hrest
    have hdup : w.fs.InodeRefs ({cwd} + (nodes w.kernel.filing.onDisk w.node + rest)) := by
      have hin := h.inodes
      rw [tabled, hrest] at hin
      rwa [show 0 + (nodes w.kernel.filing.onDisk w.node + ({cwd} + rest))
        = {cwd} + (nodes w.kernel.filing.onDisk w.node + rest) by abel] at hin
    refine wp_imp (Fs.idup_trades cwd w.fs _ hdup) fun ip s hs => ?_
    have hcwds := pointers_update w.cwd np (some ip)
    rw [(h.idle np hunused).2, ofOption_none, add_zero, ofOption_some, hrest] at hcwds
    have hcounted : Fs.InodeRefs s (0 + (nodes k.filing.onDisk w.node
        + pointers (update w.cwd np (some ip)))) := by
      rw [hfiling.onDisk, hcwds]
      have hsum : 0 + (nodes w.kernel.filing.onDisk w.node + ({cwd} + rest + {ip}))
          = {ip} + {cwd} + (nodes w.kernel.filing.onDisk w.node + rest) := by abel
      rw [hsum]
      exact hs
    rw [wp_bind]
    change wp (do
      onKernel (do
        forkAdopt me np
        forkStart np)
      pure w.kernel.nextpid) settled (fun _ => True)
      { w with kernel := k, fs := s, cwd := update w.cwd np (some ip) }
    rw [wp_bind]
    refine (wp_zoom kernelPart).mpr (wp_imp (forkStart_filing me np k) fun _ k' hk' => ?_)
    obtain ⟨-, hfiling', hlive, hothers⟩ := hk'
    change k'.filing = k.filing at hfiling'
    refine ⟨hfiling' ▸ hfiling.exact, ?_, fun p hp => ?_⟩
    · change Fs.InodeRefs s (0 + (nodes k'.filing.onDisk w.node + _))
      rw [hfiling']
      exact hcounted
    · change ¬(k'.family.mark p).state.Live at hp
      change (∀ fd, k'.filing.ofile p fd = none) ∧ update w.cwd np (some ip) p = none
      have hpne : p ≠ np := fun heq => hp (heq ▸ hlive)
      have hdead : ¬(w.kernel.family.mark p).state.Live := by
        rw [hothers p hpne] at hp
        change ¬(k.family.mark p).state.Live at hp
        rwa [hborn.2, Family.set_mark_of_ne _ _ hpne] at hp
      rw [hfiling', hfiling.others p hpne, update_of_ne hpne]
      exact h.idle p hdead

/-- **The files of a process that exits** are closed one by one. -/
theorem closeFiles_counted (h : w.Counted 0) (hme : w.Live me) :
    wp (closeFiles me) (fun _ w' => w'.Counted 0 ∧ w'.kernel.family = w.kernel.family ∧
      ∀ fd, w'.kernel.filing.ofile me fd = none) (fun _ => True) w := by
  rw [closeFiles]
  refine wp_imp (wp_forEach (fun rest w' => w'.Counted 0 ∧ w'.kernel.family = w.kernel.family ∧
    ∀ fd, fd ∉ rest → w'.kernel.filing.ofile me fd = none) ?_
    ⟨h, rfl, fun fd hfd => absurd (List.mem_finRange fd) hfd⟩) fun _ w' hw' =>
    ⟨hw'.1, hw'.2.1, fun fd => hw'.2.2 fd List.not_mem_nil⟩
  intro fd rest w₁ hw₁
  obtain ⟨hcounted, hfamily, hdone⟩ := hw₁
  rw [wp_bind, wp_get]
  cases hf : (w₁.kernel.proc me).ofile fd with
  | none =>
    refine ⟨hcounted, hfamily, fun fd' hfd' => ?_⟩
    by_cases heq : fd' = fd
    · exact heq ▸ hf
    · exact hdone fd' (by simp [heq, hfd'])
  | some f =>
    dsimp only
    refine wp_seq (fileclose_counted f hcounted.inodes) fun _ w₂ hw₂ => ?_
    refine wp_onKernel (Kernel.filing_fdclear w₂.kernel me fd) (fdclear_family fd w₂.kernel)
      fun _ k hfiling hfamily₂ => ?_
    have hk : k.filing
        = (w₁.kernel.filing.point me fd none).set f (w₁.kernel.filing.file f).closed := by
      rw [hfiling, hw₂.filing]
      rfl
    have hofile : k.filing.ofile = (w₁.kernel.filing.point me fd none).ofile := by
      rw [hk]
      rfl
    have hlive : k.family = w₁.kernel.family := hfamily₂.trans hw₂.family
    refine ⟨⟨?_, ?_, fun p hp => ?_⟩, hlive.trans hfamily, fun fd' hfd' => ?_⟩
    · change k.filing.Exact ∅ 0
      have hclosed := (hcounted.files.clear hf).closed
      rw [Finset.erase_empty] at hclosed
      rw [hk]
      exact hclosed
    · change Fs.InodeRefs w₂.fs (0 + (nodes k.filing.onDisk w₂.node + pointers w₂.cwd))
      rw [hfiling]
      exact hw₂.inodes
    · change ¬(k.family.mark p).state.Live at hp
      rw [hlive] at hp
      have hne : p ≠ me := fun heq => hp (by rw [heq, hfamily]; exact hme)
      change (∀ fd, k.filing.ofile p fd = none) ∧ w₂.cwd p = none
      rw [hofile, Filing.point_ofile_of_ne _ hne, hw₂.cwd]
      exact hcounted.idle p hp
    · change k.filing.ofile me fd' = none
      rw [hofile]
      change update w₁.kernel.filing.ofile me _ me fd' = none
      rw [update_self]
      by_cases heq : fd' = fd
      · rw [heq, update_self]
      · rw [update_of_ne heq]
        exact hdone fd' (by simp [heq, hfd'])

/-- The end of `exit` changes no file, and only the process that exits is no longer live. -/
theorem kexitEnd_filing (me : Fin nproc) (status : ℤ) (k : Kernel) :
    wp (do
      reparent me
      updateProc me fun p => { p with xstate := status, state := .zombie }) (fun _ k' =>
        k'.filing = k.filing ∧ ∀ p, p ≠ me → (k'.family.mark p).state = (k.family.mark p).state)
      (fun _ => True) k := by
  have hofile : Leaves Kernel.filing (reparent me) := leaves_modify fun k => by
    refine congrArg (Filing.mk k.file) (funext fun j => ?_)
    change Proc.ofile (if _ then _ else _) = (k.proc j).ofile
    split_ifs <;> rfl
  rw [wp_bind]
  refine wp_mono (wp_and (hofile k) (reparent_family me k)) (fun _ k₁ h₁ => ?_) fun _ _ => trivial
  rw [updateProc, wp_modify]
  refine ⟨?_, fun p hp => ?_⟩
  · rw [Kernel.filing_setProc, ← h₁.1]
    exact congrArg (Filing.mk k₁.file) (update_eq_self me k₁.filing.ofile)
  · rw [Kernel.family_setProc, Family.set_mark_of_ne _ _ hp, h₁.2]
    change Mark.state (if _ then _ else _) = _
    split_ifs <;> rfl

/-- **`exit`** gives back every file and the current directory. -/
theorem kexit_counted (status : ℤ) (h : w.Counted 0)
    (hme : w.Live me) :
    wp (kexit me status) settled (fun _ => True) w := by
  rw [kexit, wp_bind, wp_get]
  split_ifs with hinit
  · trivial
  refine wp_seq (closeFiles_counted h hme) fun _ w₁ hw₁ => ?_
  obtain ⟨hcounted, hfamily, hofile⟩ := hw₁
  rw [← bind_assoc]
  refine wp_seq (putCwd_counted me none hcounted (Or.inl ⟨rfl, hofile⟩)) fun _ w₂ hw₂ => ?_
  obtain ⟨hcounted₂, hkernel, hcwd⟩ := hw₂
  refine (wp_zoom kernelPart).mpr (wp_imp (kexitEnd_filing me status w₂.kernel) fun _ k hk => ?_)
  obtain ⟨hfiling, hstate⟩ := hk
  change k.filing = w₂.kernel.filing at hfiling
  refine ⟨hfiling ▸ hcounted₂.files, ?_, fun p hp => ?_⟩
  · change Fs.InodeRefs w₂.fs (0 + (nodes k.filing.onDisk w₂.node + pointers w₂.cwd))
    rw [hfiling]
    exact hcounted₂.inodes
  · change (∀ fd, k.filing.ofile p fd = none) ∧ w₂.cwd p = none
    rw [hfiling]
    by_cases heq : p = me
    · rw [heq, hkernel]
      exact ⟨hofile, hcwd⟩
    · change ¬(k.family.mark p).state.Live at hp
      rw [hstate p heq] at hp
      exact hcounted₂.idle p hp

/-! ### Whole runs -/

theorem shelved_counted {x : Prog Kernel α} (h : w.Counted 0)
    (hme : w.Live me) (hfamily : Leaves Kernel.family x)
    (hx : wp x (fun _ k => Shelved me w.kernel k) (fun _ => True) w.kernel) :
    wp (onKernel x) settled (fun _ => True) w :=
  wp_onKernel hx (hfamily w.kernel) fun _ _ hk hf => h.shelved hk hf hme

/-- **Every system call** of a live process keeps the counts, whether it fails or not. -/
theorem call_counted (c : Call) (h : w.Counted 0) (hme : w.Live me) :
    wp (c.run me) settled (fun _ => True) w := by
  have hdrop : ∀ {β : Type} {x : Prog Sys β}, wp x settled (fun _ => True) w →
      wp (do
        let _ ← x
        return ()) settled (fun _ => True) w := fun hx => by
    rw [wp_bind]
    exact hx
  cases c with
  | «open» path omode => exact hdrop (sysOpen_counted path omode h hme)
  | write fd src n => exact hdrop (sysWrite_counted fd src n h)
  | dup fd => exact hdrop (shelved_counted h hme (sysDup_family fd) (sysDup_filing fd h.files))
  | pipe fdarray =>
    exact hdrop (shelved_counted h hme (sysPipe_family fdarray) (sysPipe_filing fdarray h.files))
  | close fd => exact hdrop (sysClose_counted fd h hme)
  | fork => exact hdrop (kfork_counted h hme)
  | exec path uargv => exact hdrop (sysExec_counted path uargv h)
  | chdir path => exact hdrop (sysChdir_counted path h hme)
  | mkdir path => exact hdrop (sysCreate_counted path tDir 0 0 h)
  | mknod path major minor => exact hdrop (sysCreate_counted path tDevice major minor h)
  | link old new => exact hdrop (sysLink_counted old new h)
  | unlink path => exact hdrop (sysUnlink_counted path h)
  | exit status => exact kexit_counted status h hme
  | wait addr => exact hdrop (kwait_counted addr h)

theorem schedule_counted {p : Fin nproc} {state : ProcState} {level : Fin 4} (h : w.Counted 0)
    (hen : (Op.schedule p state level).Enabled w.kernel) :
    wp (onKernel (Op.schedule p state level).run) settled (fun _ => True) w := by
  refine (wp_zoom kernelPart).mpr ?_
  rw [Op.run, updateProc, wp_modify]
  have hfiling : (w.kernel.setProc p { w.kernel.proc p with
      state := state, mlfqLevel := (level : ℕ) }).filing = w.kernel.filing := by
    rw [Kernel.filing_setProc]
    exact congrArg (Filing.mk w.kernel.file) (update_eq_self p w.kernel.filing.ofile)
  refine h.setKernel (hfiling ▸ h.files) (congrArg Filing.onDisk hfiling) fun j hj => ?_
  refine ⟨?_, congrFun (congrArg Filing.ofile hfiling) j⟩
  change ¬(Family.mark (Kernel.family (w.kernel.setProc p _)) j).state.Live at hj
  rw [Kernel.family_setProc] at hj
  by_cases heq : j = p
  · rw [heq, Family.set_mark_self] at hj
    exact absurd hen.2 hj
  · rwa [Family.set_mark_of_ne _ _ heq] at hj

theorem boot_filing (b : Boot) : Leaves Kernel.filing (boot b) := by
  have htake : ∀ n, Leaves Kernel.filing (takePages n) := by
    intro n
    induction n with
    | zero => exact leaves_pure _
    | succ n ih =>
      exact leaves_bind_option (onVm_leaves Kernel.filing_aside _) (leaves_panic _) fun pa =>
        leaves_bind (leaves_modify fun _ => rfl) fun _ => ih
  have hinit : Leaves Kernel.filing userinit := by
    refine leaves_bind_option allocproc_filing (leaves_panic _) fun p => ?_
    exact leaves_bind (leaves_modify fun _ => rfl) fun _ =>
      (updateProc_filing (fun _ => by rfl) p).ret
  refine leaves_bind (onVm_leaves Kernel.filing_aside _) fun _ => leaves_bind (htake _) fun _ =>
    leaves_bind hinit fun p => leaves_bind (updateProc_filing (fun _ => by rfl) p) fun _ =>
    leaves_bind_option (kexec_leaves Kernel.filing_aside _ _) (leaves_panic _) fun argc =>
    leaves_get fun _ => onVm_leaves Kernel.filing_aside _

theorem filing_of_boot {b : Boot} {k : Kernel} (h : boot b b.start = .ok ((), k)) :
    k.filing = b.start.filing :=
  (wp_of_ok h).mp (boot_filing b b.start)

theorem counted_of_boots {b : Boot} {img : Fs} (h : Boots b img w) : w.Counted 0 := by
  obtain ⟨himg, p, ip, hboot, hinit, hroot, hcwd⟩ := h
  have hfiling : w.kernel.filing = b.start.filing := filing_of_boot hboot
  have hdisk : w.kernel.filing.onDisk = fun _ => false := by
    rw [hfiling]
    rfl
  have hnone : ∀ {ι α : Type} [Fintype ι] (t : ι → Option α), (∀ i, t i = none) →
      pointers t = 0 := fun t ht => by
    rw [pointers]
    exact Finset.sum_eq_zero fun i _ => by rw [ht, ofOption_none]
  have hnodes : nodes w.kernel.filing.onDisk w.node = 0 := by
    rw [hdisk]
    exact hnone _ fun _ => rfl
  have hpointers : pointers w.cwd = {ip} := by
    have hup := pointers_update (fun _ : Fin nproc => (none : Option (Fin ninode))) p (some ip)
    rw [hnone _ fun _ => rfl, ofOption_none, add_zero, zero_add] at hup
    rw [hcwd, hup, ofOption_some]
  obtain ⟨i, root, n, hk⟩ := booted_of_boot hboot
  obtain rfl : i = p := Option.some.inj (hk.initproc.symm.trans hinit)
  refine ⟨?_, ?_, fun j hj => ⟨fun fd => by rw [hfiling]; rfl, ?_⟩⟩
  · rw [hfiling]
    refine ⟨fun f => ?_, fun f => ⟨fun _ => Or.inl rfl, fun _ => rfl⟩, fun f hf =>
      absurd hf (Finset.notMem_empty f)⟩
    have hhandles : b.start.filing.handles = 0 := hnone _ fun _ => rfl
    rw [hhandles]
    rfl
  · have hunused : img.InodeRefs 0 := ⟨fun i => himg.ref i, fun i j hi => by
      rw [himg.ref i] at hi
      exact absurd hi (lt_irrefl 0)⟩
    have htrade := wp_ok (Fs.namei_trades none [slash] img 0 hunused) hroot
    rw [tabled, hnodes, hpointers]
    exact htrade
  · rw [hcwd]
    refine update_of_ne (fun heq => hj ?_) _ _
    rw [heq]
    exact Or.inl hk.state

/-- **The counts are right in every reachable state.** -/
theorem Reaches.counted {b : Boot} {img : Fs} {P : Fin nproc → Call → Sys → Prop}
    (h : Reaches b img P w) : w.Counted 0 := by
  induction h with
  | boot hboot => exact counted_of_boots hboot
  | call _ hen _ hrun ih => exact (wp_of_ok hrun).mp (call_counted _ ih (Or.inl hen))
  | schedule _ hen hrun ih => exact (wp_of_ok hrun).mp (schedule_counted ih hen)

/-- **Reference counts are exact**: after every sequence of system calls, the count of an open file
is the number of descriptors that point to it, the count of an inode is the number of open files and
of current directories that point to it, and no inode is in the table twice. -/
theorem reference_counts_exact {b : Boot} {img : Fs}
    (h : Reaches b img (fun _ _ _ => True) w) :
    (∀ f, (w.kernel.file f).ref = (Finset.univ.filter fun x : Fin nproc × Fin nofile =>
        (w.kernel.proc x.1).ofile x.2 = some f).card) ∧
      (∀ f, (w.kernel.file f).ref = 0 ↔ (w.kernel.file f).type = .none) ∧
      (∀ ip, (w.fs.inode ip).ref
        = (Finset.univ.filter fun f =>
            (w.kernel.file f).type.onDisk = true ∧ (w.node f).ip = ip).card
          + (Finset.univ.filter fun p => w.cwd p = some ip).card) ∧
      ∀ ip jp, 0 < (w.fs.inode ip).ref → 0 < (w.fs.inode jp).ref →
        (w.fs.inode ip).dev = (w.fs.inode jp).dev →
        (w.fs.inode ip).inum = (w.fs.inode jp).inum → ip = jp := by
  have hcounted := h.counted
  refine ⟨fun f => ?_, fun f => ?_, fun ip => ?_, hcounted.inodes.unique⟩
  · have href := hcounted.files.ref f
    rw [zero_add, Filing.handles, count_pointers] at href
    exact href
  · have htype := hcounted.files.type_eq_none f
    rw [or_iff_left (Finset.notMem_empty f)] at htype
    exact htype.symm
  · rw [hcounted.inodes.ref ip, zero_add, tabled, Multiset.count_add, nodes, count_pointers,
      count_pointers]
    congr 2
    refine Finset.filter_congr fun f _ => ?_
    change (if (w.kernel.file f).type.onDisk = true then _ else _) = some ip ↔ _
    split_ifs with hd <;> simp [hd]

/-! ### A file that is shared -/

/-- A disk that holds an empty root directory. -/
def formatted : Fs :=
  Fs.setDinode
    { sb := ⟨1000, 200, 33, 46⟩
      cache := fun _ _ => 0
      disk := fun _ _ => 0
      logged := ∅
      inode := fun _ => ⟨.zero, 0, 0, 0, false, false⟩ }
    rootino { Dinode.zero with type := tDir, nlink := 1 }

theorem fdalloc_of_first {k : Kernel} {fd : Fin nofile} (f : Fin nfile)
    (h : (Table.first fun fd => ((k.proc me).ofile fd).isNone) = some fd) :
    fdalloc me f k = .ok (some fd, k.setProc me
      { k.proc me with ofile := update (k.proc me).ofile fd (some f) }) := by
  refine bind_ok_iff.mpr ⟨_, _, rfl, ?_⟩
  rw [h]
  rfl

/-- A directory is opened for which there are an open file and a descriptor. -/
theorem open_of_alloc {s : Fs} {ip : Fin ninode} {path : List Byte} {f : Fin nfile}
    {fd : Fin nofile} {k₁ k₂ : Kernel}
    (hlook : openLookup (w.cwd me) path oRdonly w.fs = .ok (some ip, s))
    (hlock : (s.inode ip).locked = true) (href : 0 < (s.inode ip).ref)
    (htype : (s.inode ip).type = tDir) (halloc : filealloc w.kernel = .ok (some f, k₁))
    (hfd : fdalloc me f k₁ = .ok (some fd, k₂)) :
    ∃ w', (Call.open (some path) oRdonly).run me w = .ok ((), w') ∧
      w'.kernel = k₂.setFile f { k₂.file f with
        type := .inode, readable := true, writable := false } ∧
      (w'.fs.inode ip).ref = (s.inode ip).ref := by
  have hwp : wp (openInode me oRdonly ip) (fun _ w' => w'.kernel = k₂.setFile f { k₂.file f with
      type := .inode, readable := true, writable := false } ∧
      (w'.fs.inode ip).ref = (s.inode ip).ref) (fun _ => False) { w with fs := s } := by
    rw [openInode, wp_bind, wp_get]
    dsimp only
    rw [if_neg fun hdev => absurd (htype.symm.trans hdev.1) (by decide), wp_bind]
    refine (wp_zoom kernelPart).mpr ((wp_of_ok halloc).mpr ?_)
    dsimp only
    rw [wp_bind]
    refine (wp_zoom kernelPart).mpr ((wp_of_ok hfd).mpr ?_)
    dsimp only
    rw [wp_bind, fileInit, wp_bind, wp_get]
    dsimp only [kernelPart]
    rw [wp_bind]
    refine (wp_zoom kernelPart).mpr ?_
    rw [updateFile, wp_modify, updateNode, wp_modify, wp_bind]
    refine (wp_zoom fsPart).mpr ?_
    dsimp only [fsPart, kernelPart]
    have hdev : ¬(s.inode ip).type = tDevice := by rw [htype]; decide
    rw [if_neg hdev, if_neg (by rw [htype]; decide), wp_bind, Fs.iunlock, wp_bind, wp_get, hlock,
      if_neg (by simp; omega)]
    exact ⟨rfl, by simp⟩
  obtain ⟨_, w', hrun, hw'⟩ := exists_of_wp hwp
  exact ⟨w', bind_ok_iff.mpr ⟨_, _, bind_ok_iff.mpr ⟨_, _, rfl,
    bind_ok_iff.mpr ⟨_, _, zoom_ok hlook, hrun⟩⟩, rfl⟩, hw'⟩

theorem dup_of_alloc {f : Fin nfile} {fd fd' : Fin nofile} {k₁ : Kernel}
    (hf : (w.kernel.proc me).ofile fd = some f)
    (hfd : fdalloc me f w.kernel = .ok (some fd', k₁)) (href : 0 < (k₁.file f).ref) :
    ∃ w', (Call.dup fd).run me w = .ok ((), w') ∧ w'.fs = w.fs ∧
      w'.kernel = k₁.setFile f { k₁.file f with ref := (k₁.file f).ref + 1 } := by
  refine ⟨{ w with kernel := k₁.setFile f _ }, bind_ok_iff.mpr ⟨some fd', _,
    zoom_ok (bind_ok_iff.mpr ⟨_, _, rfl, ?_⟩), rfl⟩, rfl, rfl⟩
  dsimp only [kernelPart]
  rw [hf]
  refine bind_ok_iff.mpr ⟨_, _, hfd, bind_ok_iff.mpr ⟨(), _, ?_, rfl⟩⟩
  refine bind_ok_iff.mpr ⟨_, _, rfl, ?_⟩
  rw [if_neg (Nat.not_lt.mpr href)]
  rfl

theorem fork_of_booted {root : ℕ} {ip : Fin ninode} {s : Fs} (hb : Booted me root 0 w.kernel)
    (hmem : 32000 ≤ w.kernel.freePages) (hcwd : w.cwd me = some ip)
    (hdup : Fs.idup ip w.fs = .ok (ip, s)) :
    ∃ w', Call.fork.run me w = .ok ((), w') ∧ w'.kernel.filing = w.kernel.filing ∧
      w'.kernel.proc me = w.kernel.proc me ∧ w'.cwd me = some ip ∧ w'.fs = s := by
  obtain ⟨r, k₁, hx, hfiling, ⟨rfl, hwhy⟩ | ⟨np, root', pid, rfl, hf⟩⟩ := exists_of_wp
    (forkMake_of_none hb.ok.inv (by rw [hb.created]; decide) hb.pagetable hb.ofile)
  · obtain ⟨i, hi⟩ := exists_unused fun j hj => congrArg Proc.state (hb.others j hj)
    rw [hb.sz, pagesOf_mul] at hwhy
    exact absurd hi (hwhy.resolve_right (by omega) i)
  have hne : me ≠ np := fun heq => hb.live (heq ▸ hf.old)
  obtain ⟨_, k₂, hstart, hk₂, hfiling₂, -⟩ :=
    exists_of_wp (forkStart_filing (E := fun _ => False) me np k₁)
  refine ⟨{ w with kernel := k₂, fs := s, cwd := update w.cwd np (some ip) },
    bind_ok_iff.mpr ⟨pid, _, bind_ok_iff.mpr ⟨_, _, zoom_ok hx, bind_ok_iff.mpr ⟨_, _, rfl, ?_⟩⟩,
      rfl⟩, hfiling₂.trans hfiling, hk₂ ▸ hf.others me hne, (update_of_ne hne _ _).trans hcwd, rfl⟩
  dsimp only [kernelPart]
  rw [hcwd]
  exact bind_ok_iff.mpr ⟨_, _, zoom_ok hdup, bind_ok_iff.mpr ⟨(), _, rfl,
    bind_ok_iff.mpr ⟨(), _, zoom_ok hstart, rfl⟩⟩⟩

theorem open_of_none {s s' : Fs} {path : List Byte} {omode : BitVec 32}
    (hlook : openLookup (w.cwd me) path omode w.fs = .ok (none, s))
    (hend : Fs.endOp s = .ok ((), s')) :
    (Call.open (some path) omode).run me w = .ok ((), { w with fs := s' }) :=
  bind_ok_iff.mpr ⟨none, _, bind_ok_iff.mpr ⟨_, _, rfl, bind_ok_iff.mpr ⟨_, _, zoom_ok hlook,
    bind_ok_iff.mpr ⟨_, _, zoom_ok hend, rfl⟩⟩⟩, rfl⟩

theorem close_of_shared {f : Fin nfile} {fd : Fin nofile}
    (hf : (w.kernel.proc me).ofile fd = some f) (href : 1 < (w.kernel.file f).ref) :
    (Call.close fd).run me w = .ok ((), { w with
      kernel := (w.kernel.setProc me { w.kernel.proc me with
        ofile := update (w.kernel.proc me).ofile fd none }).setFile f { w.kernel.file f with
        ref := (w.kernel.file f).ref - 1 } }) := by
  refine bind_ok_iff.mpr ⟨true, _, bind_ok_iff.mpr ⟨_, _, rfl, ?_⟩, rfl⟩
  dsimp only
  rw [hf]
  generalize hp : { w.kernel.proc me with ofile := update (w.kernel.proc me).ofile fd none } = p
  have hclose : Xv6.fileclose f (w.kernel.setProc me p) = .ok ((), (w.kernel.setProc me p).setFile f
      { w.kernel.file f with ref := (w.kernel.file f).ref - 1 }) :=
    bind_ok_iff.mpr ⟨_, _, rfl, (congrFun (if_neg (Nat.not_lt.mpr href.le)) _).trans
      (congrFun (if_pos (Nat.sub_pos_of_lt href)) _)⟩
  refine bind_ok_iff.mpr ⟨(), { w with kernel := w.kernel.setProc me p }, hp ▸ zoom_ok rfl,
    bind_ok_iff.mpr ⟨(), _, bind_ok_iff.mpr ⟨_, _, rfl, bind_ok_iff.mpr ⟨(), _, zoom_ok hclose, ?_⟩⟩,
    rfl⟩⟩
  exact congrFun (if_neg fun h => href.ne' h.1) _

/-- Init forks. It fails to open the root directory for writing, and opens it for reading. -/
theorem exists_opened : ∃ (w : Sys) (me : Fin nproc) (fd : Fin nofile) (f : Fin nfile)
    (ip : Fin ninode), Reaches .small formatted (fun _ _ _ => True) w ∧ fd = ⟨0, by decide⟩ ∧
    f = ⟨0, by decide⟩ ∧ (w.kernel.proc me).state = .running ∧
    (w.kernel.proc me).ofile = update (fun _ => none) fd (some f) ∧ (w.kernel.file f).ref = 1 ∧
    (w.fs.inode ip).ref = 3 := by
  obtain ⟨f, hf⟩ : ∃ f : Fin nfile, f = ⟨0, by decide⟩ := ⟨_, rfl⟩
  obtain ⟨fd, hfd⟩ : ∃ fd : Fin nofile, fd = ⟨0, by decide⟩ := ⟨_, rfl⟩
  obtain ⟨ip, hip⟩ : ∃ ip : Fin ninode, ip = ⟨0, by decide⟩ := ⟨_, rfl⟩
  have hfs : wp (do
      let r ← Fs.namei none [slash]
      let copy ← Fs.idup ip
      let refused ← openLookup (some ip) [slash] oRdwr
      Fs.endOp
      let found ← openLookup (some ip) [slash] oRdonly
      return (r, copy, refused, found)) (fun r s => r = (some ip, ip, none, some ip) ∧
        (s.inode ip).locked = true ∧ (s.inode ip).ref = 3 ∧ (s.inode ip).type = tDir)
      (fun _ => False) formatted := by
    rw [hip]
    decide +kernel
  obtain ⟨_, s₁, hfs, rfl, hlock, href, htype⟩ := exists_of_wp hfs
  simp only [bind_ok_iff] at hfs
  obtain ⟨r, s, hroot, copy, s₀, hdup, refused, s₂, hrefused, _, s₃, hend, found, _, hlook, hfs⟩ :=
    hfs
  cases hfs
  obtain ⟨me, root, k, hboot, hb, hmem⟩ := Boot.small_boots
  obtain ⟨w, hfork, hfiling, hproc, hcwd, hs⟩ := fork_of_booted (w := ⟨k, s, fun _ => ⟨ip, 0, 0⟩,
    update (fun _ => none) me (some ip)⟩) hb hmem (by simp) hdup
  have h : Reaches .small formatted (fun _ _ _ => True) w := .call (by
    exact .boot ⟨⟨fun _ => rfl, fun _ => rfl, rfl⟩, me, ip, hboot, hb.initproc, hroot, rfl⟩)
    hb.state trivial hfork
  have hstate : (w.kernel.proc me).state = .running := by rw [hproc]; exact hb.state
  have h₀ := h.call hstate trivial (open_of_none (by rw [hcwd, hs]; exact hrefused) hend)
  have hofile : (w.kernel.proc me).ofile = fun _ => none := by rw [hproc]; exact funext hb.ofile
  have hfile : w.kernel.file = Boot.small.start.file :=
    congrArg Filing.file (hfiling.trans (filing_of_boot hboot))
  have halloc : filealloc w.kernel
      = .ok (some f, w.kernel.setFile f { w.kernel.file f with ref := 1 }) := by
    refine bind_ok_iff.mpr ⟨_, _, rfl, ?_⟩
    rw [show (Table.first fun f => (w.kernel.file f).ref == 0) = some f by
      rw [hfile, hf]; decide +kernel]
    rfl
  obtain ⟨w₁, hrun₁, hk₁, hs₁⟩ := open_of_alloc (w := { w with fs := s₃ })
    (by rw [hcwd]; exact hlook) hlock (by omega)
    htype halloc (fdalloc_of_first f (show _ = some fd by
      rw [show (Kernel.proc (w.kernel.setFile f _) me).ofile = fun _ => none from hofile, hfd]
      decide +kernel))
  have hme₁ : w₁.kernel.proc me
      = { w.kernel.proc me with ofile := update (fun _ => none) fd (some f) } := by
    rw [hk₁, ← hofile]
    exact Kernel.setProc_proc_self _ _ _
  refine ⟨w₁, me, fd, f, ip, h₀.call hstate trivial hrun₁, hfd, hf, ?_, ?_, ?_, by rw [hs₁, href]⟩
  · rw [hme₁]
    exact hstate
  · rw [hme₁]
  · rw [hk₁]
    simp [Kernel.setFile, Kernel.setProc]

/-- Init has a child and has opened the root directory. It duplicates the descriptor and closes the
first one. -/
theorem reference_counts_exact_shared : ∃ (w w' : Sys) (me : Fin nproc) (fd : Fin nofile)
    (f : Fin nfile) (ip : Fin ninode), Reaches .small formatted (fun _ _ _ => True) w ∧
    (w.kernel.file f).ref = 2 ∧
    (Finset.univ.filter fun x : Fin nproc × Fin nofile =>
      (w.kernel.proc x.1).ofile x.2 = some f).card = 2 ∧
    (w.fs.inode ip).ref = 3 ∧
    (Finset.univ.filter fun f =>
      (w.kernel.file f).type.onDisk = true ∧ (w.node f).ip = ip).card
      + (Finset.univ.filter fun p => w.cwd p = some ip).card = 3 ∧
    (Call.close fd).run me w = .ok ((), w') ∧ (w'.kernel.file f).ref = 1 ∧
    (Finset.univ.filter fun x : Fin nproc × Fin nofile =>
      (w'.kernel.proc x.1).ofile x.2 = some f).card = 1 := by
  obtain ⟨w₁, me, fd, f, ip, h₁, hfd, hf, hstate, hofile₁, hfile₁, href⟩ := exists_opened
  obtain ⟨w₂, hrun₂, hs₂, hk₂⟩ := dup_of_alloc (w := w₁) (by rw [hofile₁, update_self])
    (fdalloc_of_first f (show _ = some ⟨1, by decide⟩ by rw [hofile₁, hfd, hf]; decide +kernel))
    (hfile₁.symm ▸ Nat.one_pos)
  have h₂ := h₁.call hstate trivial hrun₂
  have hfile₂ : (w₂.kernel.file f).ref = 2 := by
    rw [hk₂]
    simp [Kernel.setFile, Kernel.setProc, hfile₁]
  have hrun₃ := close_of_shared (show (w₂.kernel.proc me).ofile fd = some f by
    rw [hk₂]
    simp [Kernel.setFile, hfd, hofile₁]) (hfile₂ ▸ Nat.one_lt_two)
  have h₃ := h₂.call (by rw [hk₂]; simp [Kernel.setFile, hstate]) trivial hrun₃
  obtain ⟨hfiles, -, hinodes, -⟩ := reference_counts_exact h₂
  have href₂ : (w₂.fs.inode ip).ref = 3 := by rw [hs₂, href]
  refine ⟨w₂, _, me, fd, f, ip, h₂, hfile₂, (hfiles f).symm.trans hfile₂, href₂,
    (hinodes ip).symm.trans href₂, hrun₃, ?_, ((reference_counts_exact h₃).1 f).symm.trans ?_⟩
  · simp [Kernel.setFile, hfile₂]
  · simp [Kernel.setFile, hfile₂]

end Sys

end Xv6
