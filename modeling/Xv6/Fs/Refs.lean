import Xv6.Fs.Dir
import Xv6.Lib.Ledger
import Xv6.Lib.Trade

/-!
# References to inodes

The functions of the file system take references to entries of the inode table and give them back.
Which of them a function still holds when it returns depends on how it returns: `namex` holds the
inode it found and nothing if it found none, and has four exits to get this right. The judgments
below have the references of each function on the left and those of each of its results on the
right.
-/

namespace Xv6

/-- What is in an entry of the inode table, and how often it is referred to. -/
def Inode.key (x : Inode) : ℕ × ℕ × ℕ := (x.dev, x.inum, x.ref)

namespace Fs

open Ledger Prog

/-! ### Counts -/

/-- What is in the entries of the inode table, and how often they are referred to. -/
def keys (s : Fs) : Fin ninode → ℕ × ℕ × ℕ := fun ip => (s.inode ip).key

/-- The counts of the inode table are right if the references `held` exist, and no inode is in the
table twice. -/
structure InodeRefs (s : Fs) (held : Multiset (Fin ninode)) : Prop where
  ref : ∀ ip, (s.inode ip).ref = held.count ip
  unique : ∀ ip jp, 0 < (s.inode ip).ref → 0 < (s.inode jp).ref →
    (s.inode ip).dev = (s.inode jp).dev → (s.inode ip).inum = (s.inode jp).inum → ip = jp

theorem InodeRefs.congr {s s' : Fs} {held : Multiset (Fin ninode)} (hk : s'.keys = s.keys)
    (h : InodeRefs s held) : InodeRefs s' held := by
  have hkey : ∀ ip, (s'.inode ip).key = (s.inode ip).key := fun ip => congrFun hk ip
  have hdev : ∀ ip, (s'.inode ip).dev = (s.inode ip).dev := fun ip => congrArg Prod.fst (hkey ip)
  have hinum : ∀ ip, (s'.inode ip).inum = (s.inode ip).inum := fun ip =>
    congrArg (fun t => t.2.1) (hkey ip)
  have href : ∀ ip, (s'.inode ip).ref = (s.inode ip).ref := fun ip =>
    congrArg (fun t => t.2.2) (hkey ip)
  constructor
  · intro ip
    rw [href, h.ref]
  · intro ip jp hip hjp hd hi
    rw [href] at hip hjp
    rw [hdev, hdev] at hd
    rw [hinum, hinum] at hi
    exact h.unique ip jp hip hjp hd hi

variable {α : Type} {x : Prog Fs α} {ip dp : Fin ninode}

/-- Code that leaves the keys alone holds what it held. -/
theorem trades_of_keys (h : Leaves keys x) (held : Multiset (Fin ninode)) :
    Trades InodeRefs held x fun _ => held :=
  Leaves.trades h fun _ _ _ hk hI => hI.congr hk

theorem trades_keys {β : Type} {f : α → Prog Fs β} {held : Multiset (Fin ninode)}
    {g : β → Multiset (Fin ninode)} (h : Leaves keys x)
    (hf : ∀ a, Trades InodeRefs held (f a) g) : Trades InodeRefs held (x >>= f) g :=
  trades_bind (trades_of_keys h held) hf

/-! ### What leaves the counts alone -/

theorem keys_setInode (s : Fs) (x : Inode) :
    (s.setInode ip x).keys = Function.update s.keys ip x.key := by
  funext jp
  by_cases hj : jp = ip
  · subst hj
    simp [keys, setInode]
  · simp [keys, setInode, hj]

theorem updateInode_keys {f : Inode → Inode} (hf : ∀ x, (f x).key = x.key) :
    Leaves keys (updateInode ip f) :=
  leaves_modify fun s => by
    rw [keys_setInode, hf]
    exact Function.update_eq_self ip s.keys

theorem logWrite_keys (b : ℕ) : Leaves keys (logWrite b) :=
  leaves_get fun _ => leaves_ite (leaves_panic _) (leaves_modify fun _ => rfl)

theorem endOp_keys : Leaves keys endOp := leaves_modify fun _ => rfl

theorem setCache_keys {f : Fs → Fs} (hf : ∀ s, ∃ b blk, f s = s.setCache b blk) :
    Leaves keys (modify f) :=
  leaves_modify fun s => by
    obtain ⟨b, blk, hs⟩ := hf s
    rw [hs]
    rfl

theorem balloc_keys : Leaves keys balloc := by
  refine leaves_get fun s => ?_
  split
  · exact leaves_pure _
  · exact leaves_bind (setCache_keys fun _ => ⟨_, _, rfl⟩) fun _ =>
      leaves_bind (logWrite_keys _) fun _ => leaves_bind
        (leaves_bind (setCache_keys fun _ => ⟨_, _, rfl⟩) fun _ => logWrite_keys _)
        fun _ => leaves_pure _

theorem bfree_keys (b : ℕ) : Leaves keys (bfree b) :=
  leaves_get fun _ => leaves_ite
    (leaves_bind (setCache_keys fun _ => ⟨_, _, rfl⟩) fun _ => logWrite_keys _) (leaves_panic _)

section Inodes

variable (ip : Fin ninode)

theorem lockInode_keys : Leaves keys (lockInode ip) :=
  leaves_get fun _ => leaves_ite (leaves_panic _) (updateInode_keys fun _ => by rfl)

theorem ilock_keys : Leaves keys (ilock ip) := by
  refine leaves_get fun s => leaves_ite (leaves_panic _) ?_
  refine leaves_bind (lockInode_keys ip) fun _ => leaves_ite ?_ (leaves_pure _)
  exact leaves_bind (updateInode_keys fun _ => by rfl) fun _ =>
    leaves_ite (leaves_panic _) (leaves_pure _)

theorem iunlock_keys : Leaves keys (iunlock ip) :=
  leaves_get fun _ => leaves_ite (leaves_panic _) (updateInode_keys fun _ => by rfl)

theorem iupdate_keys : Leaves keys (iupdate ip) :=
  leaves_get fun _ =>
    leaves_bind (setCache_keys fun _ => ⟨_, _, rfl⟩) fun _ => logWrite_keys _

theorem bmapSlot_keys (k : Fin (ndirect + 1)) : Leaves keys (bmapSlot ip k) := by
  refine leaves_get fun s => leaves_ite ?_ (leaves_pure _)
  exact leaves_bind balloc_keys fun addr => leaves_guard
    (updateInode_keys fun _ => by rfl).ret

theorem bmap_keys (bn : ℕ) : Leaves keys (bmap ip bn) := by
  rw [bmap]
  split
  · exact bmapSlot_keys ip _
  · refine leaves_ite (leaves_bind (bmapSlot_keys ip _) fun ind => leaves_guard ?_)
      (leaves_panic _)
    refine leaves_get fun s => leaves_ite ?_ (leaves_pure _)
    refine leaves_bind balloc_keys fun addr => leaves_ite ?_ (leaves_pure _)
    exact leaves_bind (setCache_keys fun _ => ⟨_, _, rfl⟩) fun _ =>
      (logWrite_keys _).ret

theorem freeSlot_keys (k : Fin (ndirect + 1)) : Leaves keys (freeSlot ip k) :=
  leaves_get fun _ => leaves_ite
    (leaves_bind (bfree_keys _) fun _ => updateInode_keys fun _ => rfl) (leaves_pure _)

theorem freeEntry_keys (ind j : ℕ) : Leaves keys (freeEntry ind j) :=
  leaves_get fun _ => leaves_ite (bfree_keys _) (leaves_pure _)

theorem itrunc_keys : Leaves keys (itrunc ip) := by
  have hend : Leaves keys (do
      updateInode ip fun x => { x with size := 0 }
      iupdate ip) := leaves_bind (updateInode_keys fun _ => by rfl) fun _ => iupdate_keys ip
  refine leaves_bind (leaves_forEach (fun k => freeSlot_keys ip _) _) fun _ =>
    leaves_get fun s => leaves_ite ?_ hend
  exact leaves_bind (leaves_forEach (freeEntry_keys _) _) fun _ =>
    leaves_bind (freeSlot_keys ip _) fun _ => hend

theorem readiFrom_keys : ∀ fuel off n : ℕ, Leaves keys (readiFrom ip fuel off n) := by
  intro fuel
  induction fuel with
  | zero => exact fun _ _ => leaves_pure _
  | succ fuel ih =>
    intro off n
    refine leaves_guard (leaves_bind (bmap_keys ip _) fun addr => ?_)
    exact leaves_guard (leaves_get fun s =>
      leaves_bind (ih _ _) fun rest => leaves_pure _)

theorem readi_keys (off n : ℕ) : Leaves keys (readi ip off n) :=
  leaves_get fun _ => leaves_guard (readiFrom_keys ip _ _ _)

theorem writeiFrom_keys : ∀ (fuel : ℕ) (src : List Byte) (off n : ℕ),
    Leaves keys (writeiFrom ip fuel src off n) := by
  intro fuel
  induction fuel with
  | zero => exact fun _ _ _ => leaves_pure _
  | succ fuel ih =>
    intro src off n
    refine leaves_guard (leaves_bind (bmap_keys ip _) fun addr => ?_)
    refine leaves_guard
      (leaves_bind (setCache_keys fun _ => ⟨_, _, rfl⟩) fun _ => leaves_guard ?_)
    exact leaves_bind (logWrite_keys _) fun _ => leaves_bind (ih _ _ _) fun tot => leaves_pure _

theorem writei_keys (src : List Byte) (off n : ℕ) :
    Leaves keys (writei ip src off n) := by
  refine leaves_get fun s => leaves_guard (leaves_guard ?_)
  refine leaves_bind (writeiFrom_keys ip _ _ _ _) fun tot =>
    leaves_bind (updateInode_keys fun x => ?_) fun _ =>
    (iupdate_keys ip).ret
  split <;> rfl

end Inodes

theorem direntsFrom_keys {α : Type} (dp : Fin ninode) (msg : String)
    (visit : List Byte → ℕ → Option α) (finish : ℕ → α) : ∀ fuel off : ℕ,
    Leaves keys (direntsFrom dp msg visit finish fuel off) := by
  intro fuel
  induction fuel with
  | zero => exact fun _ => leaves_pure _
  | succ fuel ih =>
    intro off
    refine leaves_get fun s => leaves_ite (leaves_bind (readi_keys dp _ _) fun de =>
      leaves_ite (leaves_panic _) ?_) (leaves_pure _)
    cases visit de off with
    | none => exact ih _
    | some a => exact leaves_pure a

theorem isFullDir_keys (ip : Fin ninode) : Leaves keys (isFullDir ip) :=
  leaves_get fun _ => leaves_ite (leaves_get fun _ =>
    direntsFrom_keys ip _ _ _ _ _).ret (leaves_pure _)

theorem addLink_keys (ip : Fin ninode) (n : BitVec 16) : Leaves keys (addLink ip n) :=
  leaves_bind (updateInode_keys fun _ => by rfl) fun _ => iupdate_keys ip

/-! ### Taking and dropping references -/

/-- An entry is replaced, and the references change with it. -/
theorem InodeRefs.set {s : Fs} {held held' : Multiset (Fin ninode)} {x : Inode}
    (h : InodeRefs s held) (hx : x.ref = held'.count ip)
    (hother : ∀ jp, jp ≠ ip → held'.count jp = held.count jp)
    (hnew : ∀ jp, jp ≠ ip → 0 < x.ref → 0 < (s.inode jp).ref → x.dev = (s.inode jp).dev →
      x.inum ≠ (s.inode jp).inum) : InodeRefs (s.setInode ip x) held' := by
  constructor
  · intro jp
    by_cases hj : jp = ip
    · rw [hj, setInode_inode_self, hx]
    · rw [setInode_inode_of_ne s x hj, h.ref, hother jp hj]
  · intro jp kp hjp hkp hdev hinum
    by_cases hj : jp = ip
    · by_cases hk : kp = ip
      · rw [hj, hk]
      · rw [hj, setInode_inode_self] at hjp hdev hinum
        rw [setInode_inode_of_ne s x hk] at hkp hdev hinum
        exact absurd hinum (hnew kp hk hjp hkp hdev)
    · rw [setInode_inode_of_ne s x hj] at hjp hdev hinum
      by_cases hk : kp = ip
      · rw [hk, setInode_inode_self] at hkp hdev hinum
        exact absurd hinum.symm (hnew jp hj hkp hjp hdev.symm)
      · rw [setInode_inode_of_ne s x hk] at hkp hdev hinum
        exact h.unique jp kp hjp hkp hdev hinum

theorem InodeRefs.setRef {s : Fs} {held held' : Multiset (Fin ninode)} (h : InodeRefs s held)
    (hip : 0 < (s.inode ip).ref) {n : ℕ} (hn : n = held'.count ip)
    (hother : ∀ jp, jp ≠ ip → held'.count jp = held.count jp) :
    InodeRefs (s.setInode ip { s.inode ip with ref := n }) held' :=
  h.set hn hother fun jp hj _ hjp hdev hinum => hj (h.unique jp ip hjp hip hdev.symm hinum.symm)

theorem idup_trades (ip : Fin ninode) : Trades InodeRefs {ip} (idup ip) fun jp => {jp} + {ip} := by
  intro s r h
  have hpos : 0 < (s.inode ip).ref := by
    rw [h.ref]
    simp
  refine h.setRef hpos ?_ fun jp hj => ?_
  · rw [h.ref]
    simp
  · simp [hj]

theorem iget_trades (dev inum : ℕ) : Trades InodeRefs 0 (iget dev inum) fun ip => {ip} := by
  intro s r h
  rw [zero_add] at h
  rw [iget, wp_bind, wp_get]
  split
  next ip hfirst =>
    have hip := Table.of_first hfirst
    simp only [Bool.and_eq_true, decide_eq_true_eq] at hip
    refine h.setRef hip.1.1 ?_ fun jp hj => ?_
    · rw [h.ref]
      simp
    · simp [hj]
  next hnone =>
    split
    · trivial
    · rename_i ip hempty
      have hip : (s.inode ip).ref = 0 := by simpa using Table.of_first hempty
      refine h.set ?_ (fun jp hj => ?_) fun jp hj _ hjp hdev hinum => ?_
      · rw [h.ref] at hip
        simp [hip]
      · simp [hj]
      · have hmiss := Table.first_eq_none.mp hnone jp
        dsimp only at hdev hinum
        simp [hjp, ← hdev, ← hinum] at hmiss

theorem iput_trades (ip : Fin ninode) : Trades InodeRefs {ip} (iput ip) fun _ => 0 := by
  have hdrop : Trades InodeRefs {ip} (updateInode ip fun x => { x with ref := x.ref - 1 })
      fun _ => 0 := by
    intro s r h
    have hcount : (s.inode ip).ref = r.count ip + 1 := by
      rw [h.ref]
      simp [add_comm]
    refine h.setRef (by omega) (by rw [hcount, zero_add]; rfl) fun jp hj => ?_
    simp [hj]
  refine trades_get fun s => tradesAt_ite (fun _ => ?_) fun _ => hdrop s
  refine tradesAt_bind (trades_of_keys (lockInode_keys ip) _ s) fun _ => ?_
  refine trades_keys (itrunc_keys ip) fun _ => ?_
  refine trades_keys (updateInode_keys fun _ => by rfl) fun _ => ?_
  refine trades_keys (iupdate_keys ip) fun _ => ?_
  exact trades_keys (updateInode_keys fun _ => by rfl) fun _ => hdrop

theorem iunlockput_trades (ip : Fin ninode) : Trades InodeRefs {ip} (iunlockput ip) fun _ => 0 :=
  trades_keys (iunlock_keys ip) fun _ => iput_trades ip

theorem ialloc_trades (dev : ℕ) (type : BitVec 16) :
    Trades InodeRefs 0 (ialloc dev type) fun r => ofOption r := by
  refine trades_get fun s => ?_
  split
  · exact tradesAt_of_trades (trades_pure rfl)
  · refine tradesAt_of_trades (trades_bind
      (trades_of_keys (setCache_keys fun _ => ⟨_, _, rfl⟩) _) fun _ => ?_)
    exact trades_keys (logWrite_keys _) fun _ =>
      trades_bind (iget_trades _ _) fun ip => trades_pure rfl

/-! ### Directories and paths -/

theorem dirlookup_trades (dp : Fin ninode) (name : List Byte) :
    Trades InodeRefs 0 (dirlookup dp name) fun r => ofOption (r.map Prod.fst) := by
  refine trades_get fun s => tradesAt_of_trades (trades_ite (trades_panic _) ?_)
  refine trades_keys (direntsFrom_keys dp _ _ _ _ _) fun r => ?_
  cases r with
  | none => exact trades_pure rfl
  | some e => exact trades_bind (iget_trades _ _) fun ip => trades_pure rfl

theorem dirlink_trades (dp : Fin ninode) (name : List Byte) (inum : ℕ) :
    Trades InodeRefs 0 (dirlink dp name inum) fun _ => 0 := by
  refine trades_bind (dirlookup_trades dp name) fun r => ?_
  rcases r with _ | ⟨ip, off⟩
  · refine trades_get fun s => tradesAt_of_trades
      (trades_keys (direntsFrom_keys dp _ _ _ _ _) fun off => ?_)
    exact trades_keys (writei_keys dp _ _ _) fun r => trades_pure rfl
  · exact trades_bind (iput_trades ip) fun _ => trades_pure rfl

theorem skipelem_length {path name rest : List Byte} (h : skipelem path = some (name, rest)) :
    rest.length < path.length := by
  have hle : ∀ (p : Byte → Bool) (l : List Byte), (l.dropWhile p).length ≤ l.length := fun p l =>
    (List.dropWhile_suffix p).length_le
  rw [skipelem] at h
  dsimp only at h
  have hpath := hle (· == slash) path
  generalize hskip : path.dropWhile (· == slash) = p at h hpath
  split at h
  · exact absurd h (by simp)
  · rename_i hhead
    simp only [Option.some.injEq, Prod.mk.injEq] at h
    -- the first byte of the element is not skipped with the slashes
    cases p with
    | nil => exact absurd rfl hhead
    | cons c l =>
      have hc : (c == slash) = false := by
        have hne : path.dropWhile (· == slash) ≠ [] := by simp [hskip]
        have hget := List.head_dropWhile_not (p := (· == slash)) hne
        simp only [hskip, List.head_cons] at hget
        exact hget
      have hrest : rest.length ≤ l.length := by
        have hin : (fun c : Byte => c != slash && c != 0) c = true := by
          rw [Bool.and_eq_true, bne, hc]
          exact ⟨rfl, bne_iff_ne.mpr hhead⟩
        rw [← h.2, List.dropWhile_cons_of_pos (p := fun c : Byte => c != slash && c != 0) hin]
        exact (hle _ _).trans (hle _ _)
      rw [List.length_cons] at hpath
      omega

theorem namexFrom_trades (parent : Bool) : ∀ (fuel : ℕ) (ip : Fin ninode) (path name : List Byte),
    path.length < fuel → Trades InodeRefs {ip} (namexFrom parent fuel ip path name)
      fun r => ofOption (r.map Prod.fst) := by
  intro fuel
  induction fuel with
  | zero => exact fun _ _ _ h => absurd h (Nat.not_lt_zero _)
  | succ fuel ih =>
    intro ip path name hlen
    rw [namexFrom]
    cases helem : skipelem path with
    | none =>
      exact trades_ite (trades_bind (iput_trades ip) fun _ => trades_pure rfl) (trades_pure rfl)
    | some e =>
      obtain ⟨name, rest⟩ := e
      have hrest : rest.length < fuel := by
        have := skipelem_length helem
        omega
      refine trades_keys (ilock_keys ip) fun _ => trades_get fun s =>
        tradesAt_of_trades (trades_ite ?_ (trades_ite ?_ ?_))
      · exact trades_bind (iunlockput_trades ip) fun _ => trades_pure rfl
      · exact trades_keys (iunlock_keys ip) fun _ => trades_pure rfl
      · refine trades_call (dirlookup_trades ip name) {ip} (zero_add _).symm fun r => ?_
        rcases r with _ | ⟨next, off⟩
        · exact trades_call (iunlockput_trades ip) 0 (by simp) fun _ => trades_pure rfl
        · exact trades_call (iunlockput_trades ip) {next} (add_comm _ _) fun _ =>
            (ih next rest name hrest).congr (zero_add _) fun _ => rfl

theorem namex_trades (cwd : Option (Fin ninode)) (path : List Byte) (parent : Bool) :
    Trades InodeRefs (ofOption cwd) (namex cwd path parent)
      fun r => ofOption (r.map Prod.fst) + ofOption cwd := by
  have hfrom : ∀ ip, Trades InodeRefs ({ip} + ofOption cwd)
      (namexFrom parent (path.length + 1) ip path []) fun r =>
        ofOption (r.map Prod.fst) + ofOption cwd := fun ip =>
    (namexFrom_trades parent _ ip path [] (Nat.lt_succ_self _)).frame _
  unfold namex
  split
  · exact trades_call (iget_trades _ _) (ofOption cwd) (zero_add _).symm hfrom
  · cases cwd with
    | none => exact trades_panic _
    | some cwd => exact trades_bind (idup_trades cwd) hfrom

theorem namei_trades (cwd : Option (Fin ninode)) (path : List Byte) :
    Trades InodeRefs (ofOption cwd) (namei cwd path) fun r => ofOption r + ofOption cwd :=
  trades_bind (namex_trades cwd path false) fun _ => trades_pure rfl

theorem nameiparent_trades (cwd : Option (Fin ninode)) (path : List Byte) :
    Trades InodeRefs (ofOption cwd) (nameiparent cwd path)
      fun r => ofOption (r.map Prod.fst) + ofOption cwd :=
  namex_trades cwd path true

/-! ### Creating, linking and unlinking -/

theorem linkDots_trades (type : BitVec 16) (ip : Fin ninode) (inum parent : ℕ) :
    Trades InodeRefs 0 (linkDots type ip inum parent) fun _ => 0 :=
  trades_ite (trades_bind (dirlink_trades ip dot inum) fun _ =>
    trades_ite (dirlink_trades ip dotdot parent) (trades_pure rfl)) (trades_pure rfl)

theorem linkNew_trades (dp : Fin ninode) (name : List Byte) (type : BitVec 16) (ip : Fin ninode) :
    Trades InodeRefs 0 (linkNew dp name type ip) fun _ => 0 :=
  trades_get fun _ => tradesAt_of_trades (trades_bind (linkDots_trades type ip _ _) fun _ =>
    trades_ite (dirlink_trades dp name _) (trades_pure rfl))

theorem createIn_trades (dp : Fin ninode) (name : List Byte) (type major minor : BitVec 16) :
    Trades InodeRefs {dp} (createIn dp name type major minor) fun r => ofOption r := by
  refine trades_get fun s => tradesAt_of_trades
    (trades_call (ialloc_trades _ _) {dp} (zero_add _).symm fun r => ?_)
  cases r with
  | none => exact trades_call (iunlockput_trades dp) 0 (by simp) fun _ => trades_pure rfl
  | some ip =>
    have hend : Trades InodeRefs (0 + ({ip} + {dp})) (do
        iunlockput dp
        return some ip) fun r => ofOption r :=
      trades_call (iunlockput_trades dp) {ip} (by abel) fun _ => trades_pure (zero_add _)
    refine trades_keys (ilock_keys ip) fun _ =>
      trades_keys (updateInode_keys fun _ => by rfl) fun _ =>
      trades_keys (iupdate_keys ip) fun _ =>
      trades_call (linkNew_trades dp name type ip) _ (zero_add _).symm fun ok => trades_ite ?_ ?_
    · exact trades_ite (trades_keys (addLink_keys dp _) fun _ => hend) hend
    · exact trades_keys (updateInode_keys fun _ => by rfl) fun _ =>
        trades_keys (iupdate_keys ip) fun _ =>
        trades_call (iunlockput_trades ip) {dp} (zero_add _) fun _ =>
        trades_call (iunlockput_trades dp) 0 (by abel) fun _ => trades_pure rfl

theorem create_trades (cwd : Option (Fin ninode)) (path : List Byte) (type major minor : BitVec 16) :
    Trades InodeRefs (ofOption cwd) (create cwd path type major minor)
      fun r => ofOption r + ofOption cwd := by
  refine trades_bind (nameiparent_trades cwd path) fun r => ?_
  rcases r with _ | ⟨dp, name⟩
  · exact trades_pure rfl
  · refine (Trades.frame ?_ (ofOption cwd)).congr rfl fun _ => rfl
    change Trades InodeRefs {dp} _ _
    refine trades_keys (ilock_keys dp) fun _ =>
      trades_call (dirlookup_trades dp name) {dp} (zero_add _).symm fun r => ?_
    rcases r with _ | ⟨ip, off⟩
    · exact (createIn_trades dp name type major minor).congr (zero_add _) fun _ => rfl
    · refine trades_call (iunlockput_trades dp) {ip} (add_comm _ _) fun _ =>
        trades_keys (ilock_keys ip) fun _ => trades_get fun s =>
        tradesAt_of_trades (trades_ite (trades_pure (zero_add _)) ?_)
      exact trades_call (iunlockput_trades ip) 0 (by simp) fun _ => trades_pure rfl

theorem linkIn_trades (dp : Fin ninode) (name : List Byte) (ip : Fin ninode) :
    Trades InodeRefs 0 (linkIn dp name ip) fun _ => 0 :=
  trades_get fun _ => tradesAt_of_trades (trades_ite (trades_pure rfl) (dirlink_trades dp name _))

theorem linkEntry_trades (cwd : Option (Fin ninode)) (new : List Byte) (ip : Fin ninode) :
    Trades InodeRefs (ofOption cwd) (linkEntry cwd new ip) fun _ => ofOption cwd := by
  refine trades_bind (nameiparent_trades cwd new) fun r => ?_
  rcases r with _ | ⟨dp, name⟩
  · exact trades_pure (zero_add _)
  · refine (Trades.frame (g := fun _ => 0) ?_ (ofOption cwd)).congr rfl fun _ => (zero_add _).symm
    change Trades InodeRefs {dp} _ _
    refine trades_keys (ilock_keys dp) fun _ =>
      trades_call (linkIn_trades dp name ip) {dp} (zero_add _).symm fun ok => ?_
    exact trades_call (iunlockput_trades dp) 0 (by abel) fun _ => trades_pure rfl

theorem link_trades (cwd : Option (Fin ninode)) (old new : List Byte) :
    Trades InodeRefs (ofOption cwd) (link cwd old new) fun _ => ofOption cwd := by
  refine trades_bind (namei_trades cwd old) fun r => ?_
  cases r with
  | none => exact trades_pure (zero_add _)
  | some ip =>
    have hput : ∀ b : Bool, Trades InodeRefs ({ip} + ofOption cwd) (do
        iunlockput ip
        return b) fun _ => ofOption cwd := fun b =>
      trades_call (iunlockput_trades ip) (ofOption cwd) rfl fun _ => trades_pure (zero_add _)
    refine trades_keys (ilock_keys ip) fun _ => trades_get fun s =>
      tradesAt_of_trades (trades_ite (hput false) ?_)
    refine trades_keys (addLink_keys ip _) fun _ =>
      trades_keys (iunlock_keys ip) fun _ =>
      trades_call (linkEntry_trades cwd new ip) {ip} (add_comm _ _) fun ok => trades_ite ?_ ?_
    · exact trades_call (iput_trades ip) (ofOption cwd) (add_comm _ _) fun _ =>
        trades_pure (zero_add _)
    · exact trades_keys (ilock_keys ip) fun _ =>
        trades_keys (addLink_keys ip _) fun _ =>
        (hput false).congr (add_comm _ _) fun _ => rfl

theorem unlinkEntry_trades (dp ip : Fin ninode) (off : ℕ) :
    Trades InodeRefs ({ip} + {dp}) (unlinkEntry dp ip off) fun _ => 0 := by
  have hend : Trades InodeRefs ({ip} + {dp}) (do
      iunlockput dp
      addLink ip (-1)
      iunlockput ip) fun _ => 0 :=
    trades_call (iunlockput_trades dp) {ip} (add_comm _ _) fun _ =>
      trades_keys (addLink_keys ip _) fun _ =>
      (iunlockput_trades ip).congr (zero_add _) fun _ => rfl
  refine trades_keys (writei_keys dp _ _ _) fun r =>
    trades_ite (trades_panic _) (trades_get fun s => tradesAt_of_trades (trades_ite ?_ hend))
  exact trades_keys (addLink_keys dp _) fun _ => hend

theorem unlink_trades (cwd : Option (Fin ninode)) (path : List Byte) :
    Trades InodeRefs (ofOption cwd) (unlink cwd path) fun _ => ofOption cwd := by
  refine trades_bind (nameiparent_trades cwd path) fun r => ?_
  rcases r with _ | ⟨dp, name⟩
  · exact trades_pure (zero_add _)
  · refine (Trades.frame (g := fun _ => 0) ?_ (ofOption cwd)).congr rfl fun _ => (zero_add _).symm
    change Trades InodeRefs {dp} _ _
    have hput : Trades InodeRefs {dp} (do
        iunlockput dp
        return false) fun _ => 0 :=
      trades_bind (iunlockput_trades dp) fun _ => trades_pure rfl
    refine trades_keys (ilock_keys dp) fun _ => trades_ite hput
      (trades_call (dirlookup_trades dp name) {dp} (zero_add _).symm fun r => ?_)
    rcases r with _ | ⟨ip, off⟩
    · exact hput.congr (zero_add _) fun _ => rfl
    · refine trades_keys (ilock_keys ip) fun _ => trades_get fun s =>
        tradesAt_of_trades (trades_ite (trades_panic _)
        (trades_keys (isFullDir_keys ip) fun full => trades_ite ?_ ?_))
      · exact trades_call (iunlockput_trades ip) {dp} rfl fun _ =>
          hput.congr (zero_add _) fun _ => rfl
      · exact trades_bind (unlinkEntry_trades dp ip off) fun _ => trades_pure rfl

end Fs

end Xv6
