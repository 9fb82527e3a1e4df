import Xv6.Bio
import Xv6.Lib.Bytes
import Mathlib.Data.Finset.Card

/-!
# The log

`log.c`: file-system operations of any number of processes, grouped into transactions. An operation
is admitted by `begin_op`, changes cached blocks and passes them to `log_write`, and ends with
`end_op`; the last operation to end commits for all of them.

By what was shown of the buffer cache, `bread` of a block returns the contents that were last put
there, and `bwrite` puts them on the disk. So a block has cached contents and contents on the disk
here, and no buffer (`Journal.view`, `Journal.disk`). Steps are what happens under `log.lock` and
each write to the disk. A machine may stop between any two of them; it then has only its disk, and
starts again with `recover_from_log`, where it may stop as well (`LogMachine`).

What the operations do is up to them, except that they change only blocks outside the log and log a
block they have changed before they end.
-/

namespace Xv6

open Threads Prog Function

/-- `MAXOPBLOCKS`. -/
def maxopblocks : ℕ := 10

/-- `LOGBLOCKS`. -/
def logblocks : ℕ := maxopblocks * 3

/-! ### The header block -/

/-- What `write_head` puts into the header block: the number of blocks and their numbers. What is
behind them stays. -/
def setHead (b : Block) (lh : List ℕ) : Block :=
  Bytes.stores 4 (Bytes.store 4 b 0 lh.length) 4 lh

/-- What `read_head` finds there. The number of blocks is an `int`. -/
def getHead (b : Block) : List ℕ :=
  Bytes.loads 4 b 4 (BitVec.ofNat 32 (Bytes.load 4 b 0)).toInt.toNat

theorem getHead_setHead {b : Block} {lh : List ℕ} (hlen : lh.length ≤ logblocks)
    (hlh : ∀ n ∈ lh, n < 2 ^ 32) : getHead (setHead b lh) = lh := by
  have hbound : lh.length ≤ 30 := hlen
  have hn : Bytes.load 4 (setHead b lh) 0 = lh.length := by
    rw [setHead, Bytes.load_stores_of_disjoint le_rfl, Bytes.load_store_self (by decide)]
    exact Nat.mod_eq_of_lt (by omega)
  have hint : (BitVec.ofNat 32 lh.length).toInt.toNat = lh.length := by
    have hsmall : lh.length % 2 ^ 32 = lh.length := Nat.mod_eq_of_lt (by omega)
    rw [BitVec.toInt_eq_toNat_of_lt (by rw [BitVec.toNat_ofNat, hsmall]; omega), BitVec.toNat_ofNat,
      hsmall, Int.toNat_natCast]
  rw [getHead, hn, hint, setHead]
  exact Bytes.loads_stores_self (by rw [bsize]; omega) hlh

/-! ### Operations and the commit -/

/-- A block outside the log. The header is at `start`, the log blocks are behind it. -/
def Home (start n : ℕ) : Prop := (n < start ∨ start + logblocks < n) ∧ n < 2 ^ 32

/-- The blocks of a commit, with their contents. -/
abbrev Group : Type := List (ℕ × Block)

/-- The contents of all blocks after a group. -/
def Group.install (home : ℕ → Block) (g : Group) : ℕ → Block := fun n =>
  ((g.find? fun p => p.1 == n).map Prod.snd).getD (home n)

/-- The contents of all blocks after some groups. -/
def after (home : ℕ → Block) (gs : List Group) : ℕ → Block := gs.foldl Group.install home

/-- `struct log`, the cache and the disk. `lh` is the header in memory. -/
structure Journal (ι : Type) where
  outstanding : ℤ
  committing : Bool
  lh : List ℕ
  /-- What `bread` returns. -/
  view : ℕ → Block
  disk : ℕ → Block
  /-- The processes in an operation. No code reads this, nor what follows. -/
  ops : Finset ι
  /-- All groups, in the order of their commits. -/
  groups : List Group
  /-- How many of them the disk has. -/
  durable : ℕ
  /-- How many `commit` has returned from. -/
  returned : ℕ

/-- Where the process that commits stands. -/
inductive CommitStage where
  /-- At the test of `log.lh.n`. -/
  | test
  /-- In `write_log`. -/
  | writeLog (tail : ℕ)
  /-- Before the first `write_head`. -/
  | writeHead
  /-- In `install_trans`. -/
  | install (tail : ℕ)
  /-- Before the second `write_head`. -/
  | erase
  /-- `commit` has returned. -/
  | finish

/-- Where a process stands. -/
inductive LogPc where
  | idle
  /-- In the loop of `begin_op`. -/
  | begin
  /-- In an operation. The sets are the blocks passed to `log_write` so far, and those changed since
  then. -/
  | op (logged changed : Finset ℕ)
  | commit (stage : CommitStage)

/-- `bwrite` of a block with new contents. -/
def Journal.bwrite {ι : Type} (s : Journal ι) (n : ℕ) (data : Block) : Journal ι :=
  { s with
    view := update s.view n data
    disk := update s.disk n data }

section Functions

variable {ι : Type} [DecidableEq ι]

/-- One round of the loop of `begin_op`. -/
def beginOp (me : ι) : Prog (Journal ι) LogPc := do
  let s ← Prog.get
  if s.committing then return .begin
  else if (s.lh.length : ℤ) + (s.outstanding + 1) * maxopblocks > logblocks then return .begin
  else do
    Prog.modify fun s => { s with outstanding := s.outstanding + 1, ops := insert me s.ops }
    return .op ∅ ∅

/-- An operation changes a cached block. -/
def changeBlock (n : ℕ) (data : Block) (logged changed : Finset ℕ) : Prog (Journal ι) LogPc := do
  Prog.modify fun s => { s with view := update s.view n data }
  return .op logged (insert n changed)

/-- `log_write`. -/
def logWrite (n : ℕ) : Prog (Journal ι) Unit := do
  let s ← Prog.get
  if s.lh.length ≥ logblocks then Prog.panic "too big a transaction"
  else if s.outstanding < 1 then Prog.panic "log_write outside of trans"
  else Prog.modify fun s => { s with lh := if n ∈ s.lh then s.lh else s.lh ++ [n] }

/-- `end_op` up to the release of `log.lock`. -/
def endOp (me : ι) : Prog (Journal ι) LogPc := do
  Prog.modify fun s => { s with outstanding := s.outstanding - 1, ops := s.ops.erase me }
  let s ← Prog.get
  if s.committing then Prog.panic "log.committing"
  else if s.outstanding = 0 then do
    Prog.modify fun s => { s with
      committing := true
      groups := s.groups ++ [s.lh.map fun n => (n, s.view n)] }
    return .commit .test
  else return .idle

/-- `commit`, one write at a time, and the rest of `end_op`. -/
def commitStep (start : ℕ) : CommitStage → Prog (Journal ι) LogPc
  | .test => do
    let s ← Prog.get
    if s.lh.length > 0 then return .commit (.writeLog 0)
    else do
      Prog.modify fun s => { s with durable := s.groups.length }
      return .commit .finish
  | .writeLog tail => do
    let s ← Prog.get
    match s.lh[tail]? with
    | some n => do
      Prog.modify fun s => s.bwrite (start + tail + 1) (s.view n)
      return .commit (.writeLog (tail + 1))
    | none => return .commit .writeHead
  | .writeHead => do
    Prog.modify fun s => { s.bwrite start (setHead (s.view start) s.lh) with
      durable := s.groups.length }
    return .commit (.install 0)
  | .install tail => do
    let s ← Prog.get
    match s.lh[tail]? with
    | some n => do
      Prog.modify fun s => s.bwrite n (s.view (start + tail + 1))
      return .commit (.install (tail + 1))
    | none => do
      Prog.modify fun s => { s with lh := [] }
      return .commit .erase
  | .erase => do
    Prog.modify fun s => s.bwrite start (setHead (s.view start) s.lh)
    return .commit .finish
  | .finish => do
    Prog.modify fun s => { s with committing := false, returned := s.groups.length }
    return .idle

/-- Processes that perform operations. `Fits` is what is assumed of the set of blocks an operation
logs. -/
inductive logThreads (start : ℕ) (Fits : Finset ℕ → Prop) : Threads ι (Journal ι) LogPc
  | enter (me : ι) : logThreads start Fits me .idle (return .begin)
  | begin (me : ι) : logThreads start Fits me .begin (beginOp me)
  | change (me : ι) (logged changed : Finset ℕ) {n : ℕ} (hn : Home start n) (data : Block) :
      logThreads start Fits me (.op logged changed) (changeBlock n data logged changed)
  | write (me : ι) (logged changed : Finset ℕ) {n : ℕ} (hn : Home start n)
      (hfits : Fits (insert n logged)) : logThreads start Fits me (.op logged changed) (do
        logWrite n
        return .op (insert n logged) (changed.erase n))
  | endOp (me : ι) (logged : Finset ℕ) : logThreads start Fits me (.op logged ∅) (endOp me)
  | commit (me : ι) (stage : CommitStage) :
      logThreads start Fits me (.commit stage) (commitStep start stage)

end Functions

/-! ### Who is in an operation and who commits -/

/-- In an operation. -/
def LogPc.inOp : LogPc → Bool
  | op _ _ => true
  | _ => false

/-- In `commit`. -/
def LogPc.commits : LogPc → Bool
  | commit _ => true
  | _ => false

@[simp] theorem LogPc.inOp_idle : idle.inOp = false := rfl

@[simp] theorem LogPc.inOp_op (logged changed : Finset ℕ) : (op logged changed).inOp = true := rfl

@[simp] theorem LogPc.commits_idle : idle.commits = false := rfl

@[simp] theorem LogPc.commits_op (logged changed : Finset ℕ) :
    (op logged changed).commits = false := rfl

@[simp] theorem LogPc.commits_commit (stage : CommitStage) : (commit stage).commits = true := rfl

section Control

variable {ι : Type} [DecidableEq ι] {start : ℕ} {Fits : Finset ℕ → Prop} {t : ι}
  {c c' : Config ι (Journal ι) LogPc}

/-- **Operations are counted, and a commit excludes them.** -/
structure Control (s : Journal ι) (pc : ι → LogPc) : Prop where
  ops : ∀ t, t ∈ s.ops ↔ (pc t).inOp = true
  outstanding : s.outstanding = s.ops.card
  committing : s.committing = true ↔ ∃ t, (pc t).commits = true
  sole : ∀ t t', (pc t).commits = true → (pc t').commits = true → t = t'
  exclusive : s.committing = true → s.ops = ∅

variable {s s' : Journal ι} {pc : ι → LogPc} {q : LogPc}

section Control

variable (h : Control s pc)
include h

theorem Control.move (hops : s'.ops = s.ops) (hout : s'.outstanding = s.outstanding)
    (hcom : s'.committing = s.committing) (hin : q.inOp = (pc t).inOp)
    (hq : q.commits = (pc t).commits) : Control s' (update pc t q) := by
  have hin' : ∀ t', (update pc t q t').inOp = (pc t').inOp := fun t' => by
    by_cases ht : t' = t
    · rw [ht, update_self, hin]
    · rw [update_of_ne ht]
  have hq' : ∀ t', (update pc t q t').commits = (pc t').commits := fun t' => by
    by_cases ht : t' = t
    · rw [ht, update_self, hq]
    · rw [update_of_ne ht]
  refine ⟨fun t' => by rw [hops, hin', h.ops], by rw [hout, hops, h.outstanding], ?_, ?_, ?_⟩
  · simp only [hcom, hq', h.committing]
  · intro t₁ t₂ h₁ h₂
    rw [hq'] at h₁ h₂
    exact h.sole t₁ t₂ h₁ h₂
  · rw [hcom, hops]
    exact h.exclusive

omit [DecidableEq ι] in
theorem Control.not_commits (hcom : s.committing = false) (t : ι) :
    (pc t).commits = false := by
  rw [← Bool.not_eq_true]
  intro ht
  rw [h.committing.mpr ⟨t, ht⟩] at hcom
  cases hcom

omit [DecidableEq ι] in
theorem Control.not_committing (ht : (pc t).inOp = true) :
    s.committing ≠ true := by
  intro hcom
  have hmem := (h.ops t).mpr ht
  rw [h.exclusive hcom] at hmem
  exact Finset.notMem_empty t hmem

theorem Control.begin (ht : pc t = .begin) :
    wp (beginOp t) (fun q s' => Control s' (update pc t q)) (fun _ => False) s := by
  rw [beginOp, wp_bind, wp_get]
  have hstay : Control s (update pc t .begin) :=
    h.move rfl rfl rfl (by rw [ht]) (by rw [ht])
  split_ifs with hcom hfull
  · exact hstay
  · exact hstay
  · have hcom' : s.committing = false := by simpa using hcom
    have hnot : t ∉ s.ops := by
      rw [h.ops, ht]
      exact Bool.false_ne_true
    refine ⟨fun t' => ?_, ?_, ?_, ?_, ?_⟩
    · by_cases hne : t' = t
      · simp [hne]
      · simpa [hne] using h.ops t'
    · simp [h.outstanding, hnot]
    · simp only [hcom', Bool.false_eq_true, false_iff, not_exists, Bool.not_eq_true]
      intro t'
      by_cases hne : t' = t
      · simp [hne]
      · simpa [hne] using h.not_commits hcom' t'
    · intro t₁ t₂ h₁
      by_cases hne : t₁ = t
      · simp [hne] at h₁
      · rw [update_of_ne hne, h.not_commits hcom' t₁] at h₁
        cases h₁
    · intro hc
      exact absurd hc hcom

theorem Control.endOp {logged changed : Finset ℕ}
    (ht : pc t = .op logged changed) :
    wp (endOp t) (fun q s' => Control s' (update pc t q)) (fun _ => False) s := by
  have hmem : t ∈ s.ops := by
    rw [h.ops, ht]
    rfl
  have hcom : s.committing = false := by
    rw [← Bool.not_eq_true]
    exact h.not_committing (by rw [ht]; rfl)
  have hcard : (s.ops.erase t).card + 1 = s.ops.card := Finset.card_erase_add_one hmem
  have hops : ∀ (q : LogPc), q.inOp = false → ∀ t', t' ∈ s.ops.erase t ↔
      (update pc t q t').inOp = true := fun q hq t' => by
    by_cases hne : t' = t
    · simp [hne, hq]
    · simpa [hne] using h.ops t'
  have hout : s.outstanding - 1 = ((s.ops.erase t).card : ℤ) := by
    rw [h.outstanding]
    omega
  rw [Xv6.endOp, wp_bind, wp_modify, wp_bind, wp_get]
  simp only [hcom, Bool.false_eq_true, if_false]
  split_ifs with hzero
  · have hempty : s.ops.erase t = ∅ := Finset.card_eq_zero.mp (by omega)
    refine ⟨hops _ rfl, hout, ?_, ?_, fun _ => hempty⟩
    · exact ⟨fun _ => ⟨t, by simp⟩, fun _ => rfl⟩
    · intro t₁ t₂ h₁ h₂
      have huniq : ∀ t', (update pc t (.commit .test) t').commits = true → t' = t := by
        intro t' ht'
        by_contra hne
        rw [update_of_ne hne, h.not_commits hcom t'] at ht'
        cases ht'
      rw [huniq t₁ h₁, huniq t₂ h₂]
  · have hnone : ∀ t', (update pc t .idle t').commits = false := fun t' => by
      by_cases hne : t' = t
      · simp [hne]
      · rw [update_of_ne hne, h.not_commits hcom t']
    refine ⟨hops _ rfl, hout, ?_, ?_, fun hc => ?_⟩
    · simp [hnone]
    · intro t₁ t₂ h₁
      rw [hnone] at h₁
      cases h₁
    · nomatch hc

theorem Control.commit {stage : CommitStage} (ht : pc t = .commit stage) :
    wp (commitStep start stage) (fun q s' => Control s' (update pc t q))
      (fun _ => False) s := by
  have hgo : ∀ (s' : Journal ι) (stage' : CommitStage), s'.ops = s.ops →
      s'.outstanding = s.outstanding → s'.committing = s.committing →
      Control s' (update pc t (.commit stage')) := fun s' stage' hops hout hcom =>
    h.move hops hout hcom (by rw [ht]; rfl) (by rw [ht]; rfl)
  cases stage with
  | test =>
    rw [commitStep, wp_bind, wp_get]
    split_ifs <;> exact hgo _ _ rfl rfl rfl
  | writeLog tail | install tail =>
    rw [commitStep, wp_bind, wp_get]
    split <;> exact hgo _ _ rfl rfl rfl
  | writeHead | erase => exact hgo _ _ rfl rfl rfl
  | finish =>
    have hcom : s.committing = true := h.committing.mpr ⟨t, by rw [ht]; rfl⟩
    have hnone : ∀ t', (update pc t .idle t').commits = false := fun t' => by
      by_cases hne : t' = t
      · simp [hne]
      · rw [update_of_ne hne, ← Bool.not_eq_true]
        exact fun h' => hne (h.sole t' t h' (by rw [ht]; rfl))
    refine ⟨fun t' => ?_, h.outstanding, ?_, ?_, nofun⟩
    · by_cases hne : t' = t
      · rw [hne, update_self]
        exact (h.ops t).trans (by rw [ht]; rfl)
      · rw [update_of_ne hne]
        exact h.ops t'
    · simp [hnone]
    · intro t₁ t₂ h₁
      rw [hnone] at h₁
      cases h₁

end Control

omit [DecidableEq ι] in
/-- `log_write` changes the header in memory, unless the log is full. -/
theorem wp_logWrite {n : ℕ} {Q : Unit → Journal ι → Prop} {E : String → Prop}
    (hout : 1 ≤ s.outstanding) (hfull : logblocks ≤ s.lh.length → E "too big a transaction")
    (hdone : s.lh.length < logblocks →
      Q () { s with lh := if n ∈ s.lh then s.lh else s.lh ++ [n] }) :
    wp (logWrite n) Q E s := by
  rw [logWrite, wp_bind, wp_get]
  split_ifs with hlen hless
  · exact hfull hlen
  · omega
  · exact hdone (Nat.lt_of_not_ge hlen)

omit [DecidableEq ι] in
theorem Control.one_le (h : Control s pc) (ht : (pc t).inOp = true) : 1 ≤ s.outstanding := by
  have := Finset.card_pos.mpr ⟨t, (h.ops t).mpr ht⟩
  rw [h.outstanding]
  omega

theorem Control.step (h : Control c.shared c.pc) (hstep : (logThreads start Fits).Step t c c') :
    Control c'.shared c'.pc := by
  refine hstep.maintains fun x hact => ?_
  generalize hpc : c.pc t = pc at hact
  cases hact with
  | enter | change => exact h.move rfl rfl rfl (by rw [hpc]; rfl) (by rw [hpc]; rfl)
  | begin => exact wp_mono (h.begin hpc) (fun _ _ => id) fun _ _ => trivial
  | write =>
    rw [Maintains, wp_bind]
    exact wp_logWrite (h.one_le (by rw [hpc]; rfl)) (fun _ => trivial) fun _ =>
      h.move rfl rfl rfl (by rw [hpc]; rfl) (by rw [hpc]; rfl)
  | endOp => exact wp_mono (h.endOp hpc) (fun _ _ => id) fun _ _ => trivial
  | commit => exact wp_mono (h.commit hpc) (fun _ _ => id) fun _ _ => trivial

end Control

end Xv6
