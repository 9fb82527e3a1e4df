import Xv6.Admission

/-!
# Crashes and recovery

A commit writes the blocks of its group to the log, then the header, then the blocks to their own
places, and then an empty header. Before the header is written the home blocks are as before the
group, and after it the log has everything that the group is about (`Logged`). Both are kept by
every later write, of the commit as well as of a recovery, whether it is the first or not. So what
the header says decides which groups a recovery installs, and it changes only between whole groups.
-/

namespace Xv6

open Threads Prog Function

/-! ### The machine -/

/-- How far `recover_from_log` has got. -/
inductive RecoverStage where
  /-- Before `read_head`. -/
  | head
  /-- In `install_trans`. -/
  | install (lh : List ℕ) (tail : ℕ)
  /-- Before `write_head`. -/
  | erase

/-- A machine in `recover_from_log`. Its cache has what the disk has. -/
structure Halted where
  disk : ℕ → Block
  stage : RecoverStage
  /-- All groups up to the crash. No code reads this, nor what follows. -/
  groups : List Group
  /-- How many of them the disk has. -/
  durable : ℕ
  /-- How many `commit` had returned from. -/
  returned : ℕ

/-- A machine that runs operations, or recovers. -/
inductive LogMachine (ι : Type) where
  | up (c : Config ι (Journal ι) LogPc)
  | down (r : Halted)

/-- One write of `recover_from_log`, or the reading of the header. -/
def recoverStep {ι : Type} (start : ℕ) (r : Halted) : LogMachine ι :=
  match r.stage with
  | .head => .down { r with stage := .install (getHead (r.disk start)) 0 }
  | .install lh tail =>
    match lh[tail]? with
    | some n => .down { r with
        disk := update r.disk n (r.disk (start + tail + 1))
        stage := .install lh (tail + 1) }
    | none => .down { r with stage := .erase }
  | .erase =>
    let disk := update r.disk start (setHead (r.disk start) [])
    let groups := r.groups.take r.durable
    .up ⟨⟨0, false, [], disk, disk, ∅, groups, groups.length, groups.length⟩, fun _ => .idle⟩

/-- A step of the machine. It may crash at any time. -/
inductive LogMachine.Step {ι : Type} [DecidableEq ι] (start : ℕ) :
    LogMachine ι → LogMachine ι → Prop
  | thread {t : ι} {c c' : Config ι (Journal ι) LogPc}
      (h : (logThreads start fun _ => True).Step t c c') : Step start (.up c) (.up c')
  | crash (c : Config ι (Journal ι) LogPc) : Step start (.up c) (.down
      ⟨c.shared.disk, .head, c.shared.groups, c.shared.durable, c.shared.returned⟩)
  | again (r : Halted) : Step start (.down r) (.down { r with stage := .head })
  | recover (r : Halted) : Step start (.down r) (recoverStep start r)

/-! ### What the disk says -/

section Disk

variable {start : ℕ} {base base' disk : ℕ → Block} {xs lh : List ℕ} {n tail : ℕ}

/-- **The disk says that the home blocks are `base`.** Those that the header names are in the log,
and the others are at their places. -/
structure Logged (start : ℕ) (base : ℕ → Block) (xs : List ℕ) (disk : ℕ → Block) : Prop where
  head : getHead (disk start) = xs
  length : xs.length ≤ logblocks
  home : ∀ n ∈ xs, Home start n
  log : ∀ tail n, xs[tail]? = some n → disk (start + tail + 1) = base n
  rest : ∀ n, Home start n → n ∉ xs → disk n = base n

theorem Home.ne_log (h : Home start n) (htail : tail < logblocks) : n ≠ start + tail + 1 := by
  rcases h.1 with hlt | hgt
  · omega
  · omega

theorem Home.ne_start (h : Home start n) : n ≠ start := by
  rcases h.1 with hlt | hgt
  · omega
  · omega

theorem lt_of_getElem? {l : List ℕ} (h : l[tail]? = some n) : tail < l.length :=
  (List.getElem?_eq_some_iff.mp h).1

/-- While the header is empty, the blocks of the log may be written. -/
theorem Logged.writeLog (h : Logged start base [] disk) (htail : tail < logblocks) (d : Block) :
    Logged start base [] (update disk (start + tail + 1) d) where
  head := by
    rw [update_of_ne (by omega)]
    exact h.head
  length := h.length
  home := h.home
  log _ _ hn := absurd hn (by simp)
  rest n hn hmem := by
    rw [update_of_ne (hn.ne_log htail)]
    exact h.rest n hn hmem

/-- **The commit point.** The header makes the blocks in the log count. -/
theorem Logged.commit (h : Logged start base [] disk) (hlen : lh.length ≤ logblocks)
    (hhome : ∀ n ∈ lh, Home start n)
    (hlog : ∀ tail n, lh[tail]? = some n → disk (start + tail + 1) = base' n)
    (hrest : ∀ n, Home start n → n ∉ lh → base' n = base n) (b : Block) :
    Logged start base' lh (update disk start (setHead b lh)) where
  head := by
    rw [update_self]
    exact getHead_setHead hlen fun n hn => (hhome n hn).2
  length := hlen
  home := hhome
  log tail n hn := by
    rw [update_of_ne (by omega)]
    exact hlog tail n hn
  rest n hn hmem := by
    rw [update_of_ne hn.ne_start, hrest n hn hmem]
    exact h.rest n hn List.not_mem_nil

theorem Logged.install (h : Logged start base xs disk) (hn : xs[tail]? = some n) :
    Logged start base xs (update disk n (base n)) where
  head := by
    rw [update_of_ne (h.home n (List.mem_of_getElem? hn)).ne_start.symm]
    exact h.head
  length := h.length
  home := h.home
  log tail' n' hn' := by
    have hlt := (lt_of_getElem? hn').trans_le h.length
    have hne := (h.home n (List.mem_of_getElem? hn)).ne_log hlt
    rw [update_of_ne hne.symm]
    exact h.log tail' n' hn'
  rest n' hn' hmem := by
    have hne : n' ≠ n := by
      rintro rfl
      exact hmem (List.mem_of_getElem? hn)
    rw [update_of_ne hne]
    exact h.rest n' hn' hmem

/-- When everything is installed the header may be emptied. -/
theorem Logged.erase (h : Logged start base xs disk) (hdone : ∀ n ∈ xs, disk n = base n)
    (b : Block) : Logged start base [] (update disk start (setHead b [])) where
  head := by
    rw [update_self]
    exact getHead_setHead (Nat.zero_le _) fun n hn => absurd hn List.not_mem_nil
  length := Nat.zero_le _
  home _ hn := absurd hn List.not_mem_nil
  log _ _ hn := absurd hn (by simp)
  rest n hn _ := by
    rw [update_of_ne hn.ne_start]
    by_cases hmem : n ∈ xs
    · exact hdone n hmem
    · exact h.rest n hn hmem

/-- An empty header says what is at the home places. -/
theorem Logged.eq_base (h : Logged start base [] disk) (hn : Home start n) : disk n = base n :=
  h.rest n hn List.not_mem_nil

end Disk

/-! ### Groups -/

section Groups

variable {home base : ℕ → Block} {gs : List Group} {g : Group} {lh : List ℕ} {n : ℕ}

theorem after_append (home : ℕ → Block) (gs : List Group) (g : Group) :
    after home (gs ++ [g]) = Group.install (after home gs) g := by
  rw [after, List.foldl_append]
  rfl

theorem install_of_mem (f : ℕ → Block) (hn : n ∈ lh) :
    Group.install base (lh.map fun n => (n, f n)) n = f n := by
  obtain ⟨p, hp⟩ : ∃ p, (lh.map fun n => (n, f n)).find? (fun p => p.1 == n) = some p := by
    rw [← Option.isSome_iff_exists, List.find?_isSome]
    exact ⟨(n, f n), List.mem_map_of_mem hn, by simp⟩
  obtain ⟨m, -, rfl⟩ := List.mem_map.mp (List.mem_of_find?_eq_some hp)
  have hm : m = n := by simpa using List.find?_some hp
  rw [Group.install, hp, hm]
  rfl

theorem install_of_notMem (f : ℕ → Block) (hn : n ∉ lh) :
    Group.install base (lh.map fun n => (n, f n)) n = base n := by
  have hnone : (lh.map fun n => (n, f n)).find? (fun p => p.1 == n) = none := by
    rw [List.find?_eq_none]
    intro p hp heq
    obtain ⟨m, hm, rfl⟩ := List.mem_map.mp hp
    have : m = n := by simpa using heq
    exact hn (this ▸ hm)
  rw [Group.install, hnone]
  rfl

end Groups

/-! ### The invariant -/

section Invariant

variable {ι : Type} {start : ℕ} {home : ℕ → Block} {t : ι} {s s' : Journal ι}
  {pc : ι → LogPc} {q : LogPc} {c c' : Config ι (Journal ι) LogPc}

/-- The blocks that the current operation has changed and not logged. -/
def LogPc.changed : LogPc → Finset ℕ
  | op _ changed => changed
  | _ => ∅

/-- The home blocks after the groups that the disk has. -/
def Journal.base (home : ℕ → Block) (s : Journal ι) : ℕ → Block :=
  after home (s.groups.take s.durable)

/-- The commit has not written the header. The log is written up to `tail`. -/
structure Uncommitted (start : ℕ) (home : ℕ → Block) (s : Journal ι) (tail : ℕ) : Prop where
  durable : s.durable + 1 = s.groups.length
  returned : s.returned = s.durable
  logged : Logged start (s.base home) [] s.disk
  last : s.groups.getLast? = some (s.lh.map fun n => (n, s.view n))
  latest : ∀ n, Home start n → s.view n = after home s.groups n
  written : ∀ i n, i < tail → s.lh[i]? = some n →
    s.disk (start + i + 1) = s.view n ∧ s.view (start + i + 1) = s.view n

/-- It has written the header `xs`. -/
structure Committed (start : ℕ) (home : ℕ → Block) (s : Journal ι) (xs : List ℕ) : Prop where
  durable : s.durable = s.groups.length
  returned : s.returned + 1 = s.groups.length
  logged : Logged start (s.base home) xs s.disk
  latest : ∀ n, Home start n → s.view n = s.base home n
  log : ∀ i n, xs[i]? = some n → s.view (start + i + 1) = s.base home n

/-- What a commit relies on. -/
def Journal.StageOk (start : ℕ) (home : ℕ → Block) (s : Journal ι) : CommitStage → Prop
  | .test => Uncommitted start home s 0
  | .writeLog tail => Uncommitted start home s tail
  | .writeHead => Uncommitted start home s s.lh.length
  | .install tail => Committed start home s s.lh ∧
      ∀ i n, i < tail → s.lh[i]? = some n → s.disk n = s.base home n
  | .erase => s.lh = [] ∧ ∃ xs, Committed start home s xs ∧ ∀ n ∈ xs, s.disk n = s.base home n
  | .finish => s.lh = [] ∧ Committed start home s []

/-- Nobody commits. -/
structure Quiet (start : ℕ) (home : ℕ → Block) (s : Journal ι) (pc : ι → LogPc) : Prop where
  durable : s.durable = s.groups.length
  returned : s.returned = s.groups.length
  logged : Logged start (s.base home) [] s.disk
  /-- A block that is neither logged nor changed since then is as on the disk. -/
  latest : ∀ n, Home start n → n ∉ s.lh → (∀ t, n ∉ (pc t).changed) → s.view n = s.base home n

/-- **The invariant of a running machine.** -/
structure JournalOk (start : ℕ) (home : ℕ → Block) (s : Journal ι) (pc : ι → LogPc) : Prop where
  length : s.lh.length ≤ logblocks
  lh : ∀ n ∈ s.lh, Home start n
  quiet : s.committing = false → Quiet start home s pc
  stage : ∀ t stage, pc t = .commit stage → s.StageOk start home stage

/-- **The invariant of a machine that recovers.** -/
structure HaltedOk (start : ℕ) (home : ℕ → Block) (r : Halted) : Prop where
  returned : r.returned ≤ r.durable
  durable : r.durable ≤ r.groups.length
  logged : ∃ xs, Logged start (after home (r.groups.take r.durable)) xs r.disk ∧
    match r.stage with
    | .head => True
    | .install lh tail => lh = xs ∧ ∀ i n, i < tail → xs[i]? = some n →
        r.disk n = after home (r.groups.take r.durable) n
    | .erase => ∀ n ∈ xs, r.disk n = after home (r.groups.take r.durable) n

/-! ### The commit -/

theorem Uncommitted.after_groups {tail : ℕ} (h : Uncommitted start home s tail) :
    after home s.groups = Group.install (s.base home) (s.lh.map fun n => (n, s.view n)) := by
  have hsplit : s.groups = s.groups.take s.durable ++ [s.lh.map fun n => (n, s.view n)] := by
    obtain ⟨gs, hgs⟩ := List.getLast?_eq_some_iff.mp h.last
    have hlen := h.durable
    rw [hgs, List.length_append, List.length_singleton] at hlen
    rw [hgs, List.take_append_of_le_length (by omega), List.take_of_length_le (by omega)]
  conv_lhs => rw [hsplit]
  rw [after_append, Journal.base]

theorem Uncommitted.skip (h : Uncommitted start home s 0) (hlh : s.lh = []) :
    Committed start home { s with durable := s.groups.length } [] := by
  have hbase : Journal.base home { s with durable := s.groups.length } = s.base home := by
    rw [Journal.base, List.take_length, h.after_groups, hlh]
    rfl
  refine ⟨rfl, by rw [← h.durable, h.returned], hbase ▸ h.logged, fun n hn => ?_,
    fun i n hi => absurd hi (by simp)⟩
  rw [Journal.base, List.take_length]
  exact h.latest n hn

theorem Uncommitted.writeLog {tail n : ℕ} (h : Uncommitted start home s tail)
    (hlen : s.lh.length ≤ logblocks) (hlh : ∀ n ∈ s.lh, Home start n) (hn : s.lh[tail]? = some n) :
    Uncommitted start home (s.bwrite (start + tail + 1) (s.view n)) (tail + 1) := by
  have htail : tail < logblocks := (lt_of_getElem? hn).trans_le hlen
  have hview : ∀ m, Home start m →
      update s.view (start + tail + 1) (s.view n) m = s.view m := fun m hm =>
    update_of_ne (hm.ne_log htail) ..
  refine ⟨h.durable, h.returned, h.logged.writeLog htail _, h.last.trans ?_, fun m hm => ?_,
    fun i m hi hm => ?_⟩
  · exact congrArg some (List.map_congr_left fun m hm =>
      congrArg (Prod.mk m) (hview m (hlh m hm)).symm)
  · exact (hview m hm).trans (h.latest m hm)
  · rw [show (s.bwrite (start + tail + 1) (s.view n)).view m = s.view m from
      hview m (hlh m (List.mem_of_getElem? hm))]
    by_cases heq : i = tail
    · have hmn : m = n := Option.some.inj (hm.symm.trans (heq ▸ hn))
      rw [heq, hmn]
      exact ⟨update_self .., update_self ..⟩
    · have hne : start + i + 1 ≠ start + tail + 1 := by omega
      obtain ⟨hdisk, hcache⟩ := h.written i m (by omega) hm
      exact ⟨(update_of_ne hne ..).trans hdisk, (update_of_ne hne ..).trans hcache⟩

theorem Uncommitted.commit (h : Uncommitted start home s s.lh.length)
    (hlen : s.lh.length ≤ logblocks) (hlh : ∀ n ∈ s.lh, Home start n) (b : Block) :
    Committed start home { s.bwrite start (setHead b s.lh) with
      durable := s.groups.length } s.lh := by
  have hbase : Journal.base home { s.bwrite start (setHead b s.lh) with
      durable := s.groups.length } = after home s.groups := by
    rw [Journal.base]
    exact congrArg (after home) (List.take_length ..)
  have hlog : ∀ i n, s.lh[i]? = some n → s.disk (start + i + 1) = after home s.groups n ∧
      s.view (start + i + 1) = after home s.groups n := fun i n hi => by
    rw [← h.latest n (hlh n (List.mem_of_getElem? hi))]
    exact h.written i n (lt_of_getElem? hi) hi
  have hreturned : s.returned + 1 = s.groups.length := by rw [← h.durable, h.returned]
  refine ⟨rfl, hreturned, ?_, fun n hn => ?_, fun i n hi => ?_⟩
  · rw [hbase]
    refine h.logged.commit hlen hlh (fun i n hi => (hlog i n hi).1) (fun n _ hmem => ?_) b
    rw [h.after_groups]
    exact install_of_notMem s.view hmem
  · rw [hbase]
    exact (update_of_ne hn.ne_start ..).trans (h.latest n hn)
  · rw [hbase]
    exact (update_of_ne (by omega) ..).trans (hlog i n hi).2

theorem Committed.install {xs : List ℕ} {tail n : ℕ} (h : Committed start home s xs)
    (hn : xs[tail]? = some n) :
    Committed start home (s.bwrite n (s.view (start + tail + 1))) xs := by
  have hdata := h.log tail n hn
  have hhome := h.logged.home n (List.mem_of_getElem? hn)
  refine ⟨h.durable, h.returned, ?_, fun m hm => ?_, fun i m hi => ?_⟩
  · rw [hdata]
    exact h.logged.install hn
  · by_cases heq : m = n
    · rw [heq]
      exact (update_self ..).trans hdata
    · exact (update_of_ne heq ..).trans (h.latest m hm)
  · have hne := hhome.ne_log ((lt_of_getElem? hi).trans_le h.logged.length)
    exact (update_of_ne hne.symm ..).trans (h.log i m hi)

variable [DecidableEq ι]

/-! ### Operations -/

/-- A process that is in no commit moves; only what is cached and logged changes. -/
theorem JournalOk.work (h : JournalOk start home s pc) (hc : Control s pc)
    (hcom : s'.committing = s.committing) (hq : q.commits = false)
    (hlen : s'.lh.length ≤ logblocks) (hlh : ∀ n ∈ s'.lh, Home start n)
    (hstage : s.committing = true → s' = s)
    (hquiet : Quiet start home s pc → Quiet start home s' (update pc t q)) :
    JournalOk start home s' (update pc t q) where
  length := hlen
  lh := hlh
  quiet hfalse := hquiet (h.quiet (hcom ▸ hfalse))
  stage t' stage ht' := by
    by_cases hne : t' = t
    · rw [hne, update_self] at ht'
      rw [ht'] at hq
      cases hq
    · rw [update_of_ne hne] at ht'
      rw [hstage (hc.committing.mpr ⟨t', by rw [ht']; rfl⟩)]
      exact h.stage t' stage ht'

section Quiet

variable {pc' : ι → LogPc} (h : Quiet start home s pc) (hdurable : s'.durable = s.durable)
  (hreturned : s'.returned = s.returned) (hgroups : s'.groups = s.groups)
  (hdisk : s'.disk = s.disk)
include h hdurable hreturned hgroups hdisk

omit [DecidableEq ι] in
/-- What is said while nobody commits depends on cache, log and disk, and on what is being
changed. -/
theorem Quiet.mono
    (hlatest : ∀ n, Home start n → n ∉ s'.lh → (∀ t, n ∉ (pc' t).changed) →
      n ∉ s.lh ∧ (∀ t, n ∉ (pc t).changed) ∧ s'.view n = s.view n) :
    Quiet start home s' pc' := by
  have hbase : s'.base home = s.base home := by rw [Journal.base, Journal.base, hgroups, hdurable]
  refine ⟨by rw [hdurable, hgroups, h.durable], by rw [hreturned, hgroups, h.returned], ?_,
    fun n hn hmem hchanged => ?_⟩
  · rw [hbase, hdisk]
    exact h.logged
  · obtain ⟨hlh, hc, hview⟩ := hlatest n hn hmem hchanged
    rw [hview, hbase]
    exact h.latest n hn hlh hc

/-- A process moves and has changed what it had changed. -/
theorem Quiet.move (hview : s'.view = s.view) (hlh : s'.lh = s.lh)
    (hq : q.changed = (pc t).changed) : Quiet start home s' (update pc t q) := by
  refine h.mono hdurable hreturned hgroups hdisk fun n _ hmem hc => ⟨hlh ▸ hmem, fun t' => ?_,
    by rw [hview]⟩
  have := hc t'
  by_cases hne : t' = t
  · rw [hne, update_self, hq] at this
    rwa [hne]
  · rwa [update_of_ne hne] at this

end Quiet

theorem Control.proceed (hc : Control s pc) {stage stage' : CommitStage} (ht : pc t = .commit stage)
    (hcom : s'.committing = s.committing) (hlen : s'.lh.length ≤ logblocks)
    (hlh : ∀ n ∈ s'.lh, Home start n) (hstage : s'.StageOk start home stage') :
    JournalOk start home s' (update pc t (.commit stage')) := by
  have htrue : s.committing = true := hc.committing.mpr ⟨t, by rw [ht]; rfl⟩
  refine ⟨hlen, hlh, fun hfalse => ?_, fun t' st ht' => ?_⟩
  · rw [hcom, htrue] at hfalse
    cases hfalse
  · by_cases hne : t' = t
    · rw [hne, update_self] at ht'
      cases ht'
      exact hstage
    · rw [update_of_ne hne] at ht'
      exact absurd (hc.sole t' t (by rw [ht']; rfl) (by rw [ht]; rfl)) hne

section Steps

variable (h : JournalOk start home s pc) (hc : Control s pc)
include h hc

theorem JournalOk.enter (ht : pc t = .idle) :
    JournalOk start home s (update pc t .begin) :=
  h.work hc rfl rfl h.length h.lh (fun _ => rfl) fun hquiet =>
    hquiet.move rfl rfl rfl rfl rfl rfl (by rw [ht]; rfl)

theorem JournalOk.begin (ht : pc t = .begin) :
    Maintains (JournalOk start home) pc t (beginOp t) s := by
  rw [Maintains, beginOp, wp_bind, wp_get]
  have hstay : JournalOk start home s (update pc t .begin) :=
    h.work hc rfl rfl h.length h.lh (fun _ => rfl) fun hquiet =>
      hquiet.move rfl rfl rfl rfl rfl rfl (by rw [ht])
  split_ifs with hcom
  · exact hstay
  · exact hstay
  · exact h.work hc rfl rfl h.length h.lh (fun hcom' => absurd hcom' hcom) fun hquiet =>
      hquiet.move rfl rfl rfl rfl rfl rfl (by rw [ht]; rfl)

theorem JournalOk.change {logged changed : Finset ℕ} (ht : pc t = .op logged changed) {n : ℕ}
    (data : Block) : Maintains (JournalOk start home) pc t (changeBlock n data logged changed) s := by
  have hnot := hc.not_committing (t := t) (by rw [ht]; rfl)
  refine h.work hc rfl rfl h.length h.lh (fun hcom => absurd hcom hnot) fun hquiet =>
    hquiet.mono rfl rfl rfl rfl fun m _ hmem hchanged => ?_
  have hself : m ∉ insert n changed := by simpa [LogPc.changed] using hchanged t
  rw [Finset.mem_insert, not_or] at hself
  refine ⟨hmem, fun t' => ?_, update_of_ne hself.1 ..⟩
  by_cases hne : t' = t
  · rw [hne, ht]
    exact hself.2
  · simpa [hne] using hchanged t'

theorem JournalOk.write {logged changed : Finset ℕ} (ht : pc t = .op logged changed) {n : ℕ}
    (hn : Home start n) : Maintains (JournalOk start home) pc t (do
        logWrite n
        return .op (insert n logged) (changed.erase n)) s := by
  have hin : (pc t).inOp = true := by
    rw [ht]
    rfl
  have hnot := hc.not_committing hin
  rw [Maintains, wp_bind]
  refine wp_logWrite (hc.one_le hin) (fun _ => trivial) fun hlt => ?_
  refine h.work hc rfl rfl ?_ ?_ (fun hcom => absurd hcom hnot) fun hquiet =>
    hquiet.mono rfl rfl rfl rfl fun m _ hmem hchanged => ?_
  · by_cases hmem : n ∈ s.lh
    · simpa [hmem] using h.length
    · simpa [hmem] using Nat.succ_le_of_lt hlt
  · intro m hm
    by_cases hmem : n ∈ s.lh
    · exact h.lh m (by simpa [hmem] using hm)
    · have hm' : m ∈ s.lh ∨ m = n := by simpa [hmem] using hm
      rcases hm' with hm' | rfl
      · exact h.lh m hm'
      · exact hn
  · have hm : m ∉ s.lh ∧ m ≠ n := by
      by_cases hn' : n ∈ s.lh
      · have hm' : m ∉ s.lh := by simpa [hn'] using hmem
        exact ⟨hm', fun heq => hm' (heq ▸ hn')⟩
      · simpa [hn'] using hmem
    refine ⟨hm.1, fun t' => ?_, rfl⟩
    by_cases hne : t' = t
    · have hself : m ∉ changed.erase n := by simpa [LogPc.changed] using hchanged t
      rw [hne, ht]
      exact fun hmem' => hself (Finset.mem_erase.mpr ⟨hm.2, hmem'⟩)
    · simpa [hne] using hchanged t'

/-- The last operation to end makes a group of everything that was logged. -/
theorem JournalOk.endOp {logged : Finset ℕ} (ht : pc t = .op logged ∅) :
    Maintains (JournalOk start home) pc t (endOp t) s := by
  have hin : (pc t).inOp = true := by
    rw [ht]
    rfl
  have hnot := hc.not_committing hin
  have hcom : s.committing = false := by simpa using hnot
  rw [Maintains, Xv6.endOp, wp_bind, wp_modify, wp_bind, wp_get]
  simp only [hcom, Bool.false_eq_true, if_false]
  split_ifs with hzero
  · have hquiet := h.quiet hcom
    have hcard : (s.ops.erase t).card + 1 = s.ops.card :=
      Finset.card_erase_add_one ((hc.ops t).mpr hin)
    have hempty : s.ops.erase t = ∅ := by
      rw [hc.outstanding] at hzero
      exact Finset.card_eq_zero.mp (by omega)
    have hchanged : ∀ t', (pc t').changed = ∅ := by
      intro t'
      by_cases hne : t' = t
      · rw [hne, ht]
        rfl
      · cases hp : pc t' with
        | op logged' changed' =>
          have hmem : t' ∈ s.ops.erase t :=
            Finset.mem_erase.mpr ⟨hne, (hc.ops t').mpr (by rw [hp]; rfl)⟩
          rw [hempty] at hmem
          exact absurd hmem (Finset.notMem_empty t')
        | _ => rfl
    have hbase : ∀ g : Group, after home ((s.groups ++ [g]).take s.durable) = s.base home := by
      intro g
      rw [Journal.base, List.take_append_of_le_length hquiet.durable.le]
    refine ⟨h.length, h.lh, fun hfalse => absurd hfalse (by simp), fun t' stage ht' => ?_⟩
    obtain rfl : stage = .test := by
      by_cases hne : t' = t
      · rw [hne, update_self] at ht'
        cases ht'
        rfl
      · rw [update_of_ne hne] at ht'
        have := hc.not_commits hcom t'
        rw [ht'] at this
        cases this
    refine ⟨?_, ?_, ?_, ?_, fun n hn => ?_, fun i n hi => absurd hi (Nat.not_lt_zero i)⟩
    · simp [hquiet.durable]
    · exact hquiet.returned.trans hquiet.durable.symm
    · rw [Journal.base, hbase]
      exact hquiet.logged
    · simp
    · have hall : s.base home = after home s.groups := by
        rw [Journal.base, hquiet.durable, List.take_length]
      rw [after_append, ← hall]
      by_cases hmem : n ∈ s.lh
      · exact (install_of_mem s.view hmem).symm
      · refine Eq.trans ?_ (install_of_notMem s.view hmem).symm
        exact hquiet.latest n hn hmem fun t' => by rw [hchanged]; exact Finset.notMem_empty n
  · exact h.work hc hcom.symm rfl h.length h.lh (fun hcom' => absurd hcom' hnot) fun hquiet =>
      hquiet.move rfl rfl rfl rfl rfl rfl (by rw [ht]; rfl)

theorem JournalOk.commit {stage : CommitStage} (ht : pc t = .commit stage) :
    Maintains (JournalOk start home) pc t (commitStep start stage) s := by
  have hst := h.stage t stage ht
  cases stage with
  | test =>
    rw [Maintains, commitStep, wp_bind, wp_get]
    split_ifs with hlen
    · exact hc.proceed ht rfl h.length h.lh hst
    · have hlh : s.lh = [] := List.eq_nil_of_length_eq_zero (by omega)
      exact hc.proceed ht rfl h.length h.lh ⟨hlh, hst.skip hlh⟩
  | writeLog tail =>
    rw [Maintains, commitStep, wp_bind, wp_get]
    cases hn : s.lh[tail]? with
    | some n => exact hc.proceed ht rfl h.length h.lh (hst.writeLog h.length h.lh hn)
    | none =>
      have hle : s.lh.length ≤ tail := List.getElem?_eq_none_iff.mp hn
      exact hc.proceed ht rfl h.length h.lh ⟨hst.durable, hst.returned, hst.logged, hst.last,
        hst.latest, fun i m hi => hst.written i m (hi.trans_le hle)⟩
  | writeHead =>
    exact hc.proceed ht rfl h.length h.lh ⟨hst.commit h.length h.lh _, fun i n hi =>
      absurd hi (Nat.not_lt_zero i)⟩
  | install tail =>
    obtain ⟨hcommitted, hdone⟩ := hst
    rw [Maintains, commitStep, wp_bind, wp_get]
    cases hn : s.lh[tail]? with
    | some n =>
      refine hc.proceed ht rfl h.length h.lh ⟨hcommitted.install hn, fun i m hi hm => ?_⟩
      by_cases heq : m = n
      · rw [heq]
        exact (update_self ..).trans (hcommitted.log tail n hn)
      · refine (update_of_ne heq ..).trans (hdone i m ?_ hm)
        refine Nat.lt_of_le_of_ne (Nat.le_of_lt_succ hi) fun hit => heq ?_
        have hm' : s.lh[i]? = some m := hm
        rw [hit, hn] at hm'
        exact (Option.some.inj hm').symm
    | none =>
      have hle : s.lh.length ≤ tail := List.getElem?_eq_none_iff.mp hn
      refine hc.proceed ht rfl (Nat.zero_le _) (fun n hn => absurd hn List.not_mem_nil) ⟨rfl, s.lh,
        ⟨hcommitted.durable, hcommitted.returned, hcommitted.logged, hcommitted.latest,
        hcommitted.log⟩, fun n hn => ?_⟩
      obtain ⟨i, hi⟩ := List.getElem?_of_mem hn
      exact hdone i n ((lt_of_getElem? hi).trans_le hle) hi
  | erase =>
    obtain ⟨hlh, xs, hcommitted, hdone⟩ := hst
    refine hc.proceed ht rfl h.length h.lh ⟨hlh, hcommitted.durable, hcommitted.returned, ?_,
      fun n hn => ?_, fun i n hi => absurd hi (by simp)⟩
    · show Logged start (s.base home) [] (update s.disk start (setHead (s.view start) s.lh))
      rw [hlh]
      exact hcommitted.logged.erase hdone (s.view start)
    · exact (update_of_ne hn.ne_start ..).trans (hcommitted.latest n hn)
  | finish =>
    obtain ⟨hlh, hcommitted⟩ := hst
    refine ⟨h.length, h.lh, fun _ => ⟨hcommitted.durable, rfl, hcommitted.logged, fun n hn _ _ =>
      hcommitted.latest n hn⟩, fun t' st ht' => ?_⟩
    by_cases hne : t' = t
    · rw [hne, update_self] at ht'
      cases ht'
    · rw [update_of_ne hne] at ht'
      exact absurd (hc.sole t' t (by rw [ht']; rfl) (by rw [ht]; rfl)) hne

end Steps

/-- **Every step of a process keeps the invariant.** -/
theorem JournalOk.step (h : JournalOk start home c.shared c.pc) (hc : Control c.shared c.pc)
    (hstep : (logThreads start fun _ => True).Step t c c') :
    JournalOk start home c'.shared c'.pc := by
  refine hstep.maintains fun x hact => ?_
  generalize hpc : c.pc t = pc at hact
  cases hact with
  | enter => exact h.enter hc hpc
  | begin => exact h.begin hc hpc
  | change => exact h.change hc hpc _
  | @write _ _ _ n hn => exact h.write hc hpc hn
  | endOp => exact h.endOp hc hpc
  | commit => exact h.commit hc hpc

/-! ### Crash and recovery -/

omit [DecidableEq ι] in
/-- At every stage of a commit the disk says what it has. -/
theorem Journal.StageOk.halted {stage : CommitStage} (h : s.StageOk start home stage) :
    s.returned ≤ s.durable ∧ s.durable ≤ s.groups.length ∧
      ∃ xs, Logged start (s.base home) xs s.disk := by
  have hun : ∀ {tail}, Uncommitted start home s tail → s.returned ≤ s.durable ∧
      s.durable ≤ s.groups.length ∧ ∃ xs, Logged start (s.base home) xs s.disk := fun hu =>
    ⟨hu.returned.le, by have := hu.durable; omega, [], hu.logged⟩
  have hco : ∀ {xs}, Committed start home s xs → s.returned ≤ s.durable ∧
      s.durable ≤ s.groups.length ∧ ∃ xs, Logged start (s.base home) xs s.disk := fun hu =>
    ⟨by have := hu.returned; have := hu.durable; omega, hu.durable.le, _, hu.logged⟩
  cases stage with
  | test => exact hun h
  | writeLog => exact hun h
  | writeHead => exact hun h
  | install => exact hco h.1
  | erase =>
    obtain ⟨-, xs, hcommitted, -⟩ := h
    exact hco hcommitted
  | finish => exact hco h.2

omit [DecidableEq ι] in
/-- **A crash.** -/
theorem JournalOk.crash (h : JournalOk start home s pc) (hc : Control s pc) :
    HaltedOk start home ⟨s.disk, .head, s.groups, s.durable, s.returned⟩ := by
  have hdisk : s.returned ≤ s.durable ∧ s.durable ≤ s.groups.length ∧
      ∃ xs, Logged start (s.base home) xs s.disk := by
    cases hcom : s.committing with
    | false =>
      have hquiet := h.quiet hcom
      exact ⟨by rw [hquiet.returned, hquiet.durable], hquiet.durable.le, [], hquiet.logged⟩
    | true =>
      obtain ⟨t, ht⟩ := hc.committing.mp hcom
      cases hp : pc t with
      | commit stage => exact (h.stage t stage hp).halted
      | _ => simp [hp, LogPc.commits] at ht
  obtain ⟨hreturned, hdurable, xs, hlogged⟩ := hdisk
  exact ⟨hreturned, hdurable, xs, hlogged, trivial⟩

/-- The invariant of the machine. -/
def LogMachine.Ok (start : ℕ) (home : ℕ → Block) : LogMachine ι → Prop
  | up c => Control c.shared c.pc ∧ JournalOk start home c.shared c.pc
  | down r => HaltedOk start home r

omit [DecidableEq ι] in
/-- **A step of the recovery.** -/
theorem HaltedOk.recover {r : Halted} (h : HaltedOk start home r) :
    (recoverStep start r : LogMachine ι).Ok start home := by
  obtain ⟨hreturned, hdurable, xs, hlogged, hstage⟩ := h
  rw [recoverStep]
  cases hs : r.stage with
  | head =>
    exact ⟨hreturned, hdurable, xs, hlogged, hlogged.head, fun i n hi =>
      absurd hi (Nat.not_lt_zero i)⟩
  | install lh tail =>
    rw [hs] at hstage
    obtain ⟨rfl, hdone⟩ := hstage
    dsimp only
    cases hn : lh[tail]? with
    | some n =>
      have hdata := hlogged.log tail n hn
      refine ⟨hreturned, hdurable, lh, ?_, rfl, fun i m hi hm => ?_⟩
      · show Logged start _ lh (update r.disk n (r.disk (start + tail + 1)))
        rw [hdata]
        exact hlogged.install hn
      · by_cases heq : m = n
        · rw [heq]
          exact (update_self ..).trans hdata
        · refine (update_of_ne heq ..).trans (hdone i m ?_ hm)
          refine Nat.lt_of_le_of_ne (Nat.le_of_lt_succ hi) fun hit => heq ?_
          rw [hit, hn] at hm
          exact (Option.some.inj hm).symm
    | none =>
      have hle : lh.length ≤ tail := List.getElem?_eq_none_iff.mp hn
      refine ⟨hreturned, hdurable, lh, hlogged, fun n hn => ?_⟩
      obtain ⟨i, hi⟩ := List.getElem?_of_mem hn
      exact hdone i n ((lt_of_getElem? hi).trans_le hle) hi
  | erase =>
    rw [hs] at hstage
    have hempty := hlogged.erase hstage (r.disk start)
    have hbase : ∀ k, k = (r.groups.take r.durable).length →
        after home ((r.groups.take r.durable).take k) = after home (r.groups.take r.durable) := by
      rintro k rfl
      rw [List.take_length]
    refine ⟨⟨fun t => by simp, rfl, by simp, fun _ _ h => absurd h Bool.false_ne_true, fun _ => rfl⟩,
      Nat.zero_le _, fun n hn => absurd hn List.not_mem_nil, fun _ =>
      ⟨rfl, rfl, ?_, fun n hn _ _ => ?_⟩, fun t stage ht => by cases ht⟩
    · rw [Journal.base, hbase _ rfl]
      exact hempty
    · rw [Journal.base, hbase _ rfl]
      exact hempty.eq_base hn

theorem LogMachine.Ok.step {m m' : LogMachine ι} (h : m.Ok start home)
    (hstep : LogMachine.Step start m m') : m'.Ok start home := by
  cases hstep with
  | thread hs => exact ⟨h.1.step hs, h.2.step h.1 hs⟩
  | crash c => exact h.2.crash h.1
  | again r =>
    obtain ⟨hreturned, hdurable, xs, hlogged, -⟩ := h
    exact ⟨hreturned, hdurable, xs, hlogged, trivial⟩
  | recover r => exact HaltedOk.recover h

end Invariant

/-! ### Whole runs -/

section Runs

variable {ι : Type} {start : ℕ}

/-- Steps of the recovery only. -/
def Recovers (start : ℕ) : LogMachine ι → LogMachine ι → Prop :=
  Relation.ReflTransGen fun m m' => ∃ r, m = .down r ∧ m' = recoverStep start r

theorem recovers (start : ℕ) (r : Halted) :
    ∃ c : Config ι (Journal ι) LogPc, Recovers start (.down r) (.up c) := by
  have herase : ∀ r : Halted, r.stage = .erase →
      ∃ c : Config ι (Journal ι) LogPc, Recovers start (.down r) (.up c) := fun r hr =>
    ⟨_, .single ⟨r, rfl, by rw [recoverStep, hr]⟩⟩
  have hinstall : ∀ (left : ℕ) (r : Halted) (lh : List ℕ) (tail : ℕ), r.stage = .install lh tail →
      lh.length - tail ≤ left →
      ∃ c : Config ι (Journal ι) LogPc, Recovers start (.down r) (.up c) := by
    intro left
    induction left with
    | zero =>
      intro r lh tail hr hleft
      have hnone : lh[tail]? = none := List.getElem?_eq_none_iff.mpr (by omega)
      obtain ⟨c, hc⟩ := herase { r with stage := .erase } rfl
      exact ⟨c, .head ⟨r, rfl, by rw [recoverStep, hr]; simp only [hnone]⟩ hc⟩
    | succ left ih =>
      intro r lh tail hr hleft
      cases hn : lh[tail]? with
      | none =>
        obtain ⟨c, hc⟩ := herase { r with stage := .erase } rfl
        exact ⟨c, .head ⟨r, rfl, by rw [recoverStep, hr]; simp only [hn]⟩ hc⟩
      | some n =>
        have hlt := lt_of_getElem? hn
        obtain ⟨c, hc⟩ := ih { r with
          disk := update r.disk n (r.disk (start + tail + 1))
          stage := .install lh (tail + 1) } lh (tail + 1) rfl (by omega)
        exact ⟨c, .head ⟨r, rfl, by rw [recoverStep, hr]; simp only [hn]⟩ hc⟩
  cases hs : r.stage with
  | head =>
    obtain ⟨c, hc⟩ := hinstall _ { r with stage := .install (getHead (r.disk start)) 0 } _ 0 rfl
      le_rfl
    exact ⟨c, .head ⟨r, rfl, by rw [recoverStep, hs]⟩ hc⟩
  | install lh tail => exact hinstall _ r lh tail hs le_rfl
  | erase => exact herase r hs

theorem of_recoverStep_eq_up {r : Halted} {c : Config ι (Journal ι) LogPc}
    (h : recoverStep start r = .up c) : r.stage = .erase ∧
      c.shared.disk = update r.disk start (setHead (r.disk start) []) ∧
      c.shared.view = update r.disk start (setHead (r.disk start) []) := by
  rw [recoverStep] at h
  cases hs : r.stage with
  | head =>
    rw [hs] at h
    cases h
  | install lh tail =>
    rw [hs] at h
    dsimp only at h
    split at h <;> cases h
  | erase =>
    rw [hs] at h
    cases h
    exact ⟨rfl, rfl, rfl⟩

variable [DecidableEq ι] {disk : ℕ → Block} {m : LogMachine ι}

/-- **Crash atomicity.** A machine starts on a disk whose log is empty and runs operations, and it
may crash at any time, also while it recovers. When a recovery completes, the home blocks are as
after a prefix of the groups that has at least those whose commit returned; and it completes if it
is not interrupted. A group is all that was logged when no operation was in progress, with the
contents of then, and there were no other changes. -/
theorem log_crash_atomic (hhead : getHead (disk start) = [])
    (hrun : Relation.ReflTransGen (LogMachine.Step start) (.down ⟨disk, .head, [], 0, 0⟩) m) :
    (∀ r (c : Config ι (Journal ι) LogPc), m = .down r → recoverStep start r = .up c →
      ∃ k, r.returned ≤ k ∧ k ≤ r.groups.length ∧ ∀ n, Home start n →
        c.shared.disk n = after disk (r.groups.take k) n ∧
        c.shared.view n = after disk (r.groups.take k) n) ∧
    (∀ r, m = .down r →
      ∃ c : Config ι (Journal ι) LogPc, Recovers start (.down r) (.up c)) ∧
    ∀ c t, m = .up c → c.pc t = .commit .test → (∀ t', (c.pc t').inOp = false) ∧
      c.shared.groups.getLast? = some (c.shared.lh.map fun n => (n, c.shared.view n)) ∧
      ∀ n, Home start n → c.shared.view n = after disk c.shared.groups n := by
  have hok : m.Ok start disk := by
    induction hrun with
    | refl =>
      exact ⟨le_rfl, le_rfl, [], ⟨hhead, Nat.zero_le _, fun n hn => absurd hn List.not_mem_nil,
        fun _ _ hn => absurd hn (by simp), fun _ _ _ => rfl⟩, trivial⟩
    | tail _ hstep ih => exact ih.step hstep
  refine ⟨fun r c hm hup => ?_, fun r _ => recovers start r, fun c t hm ht => ?_⟩
  · subst hm
    obtain ⟨hreturned, hdurable, xs, hlogged, hstage⟩ := hok
    obtain ⟨hs, hdisk, hview⟩ := of_recoverStep_eq_up hup
    rw [hs] at hstage
    have hempty := hlogged.erase hstage (r.disk start)
    refine ⟨r.durable, hreturned, hdurable, fun n hn => ?_⟩
    rw [hdisk, hview]
    exact ⟨hempty.eq_base hn, hempty.eq_base hn⟩
  · subst hm
    obtain ⟨hc, hj⟩ := hok
    have hst := hj.stage t .test ht
    refine ⟨fun t' => ?_, hst.last, hst.latest⟩
    have hnone := hc.exclusive (hc.committing.mpr ⟨t, by rw [ht]; rfl⟩)
    rw [← Bool.not_eq_true]
    intro hin
    have := (hc.ops t').mpr hin
    rw [hnone] at this
    exact Finset.notMem_empty t' this

/-- A recovery that finds one block in the log, up to its last write. -/
theorem recovers_one {n : ℕ} (hhead : getHead (disk start) = [n]) (gs : List Group)
    (durable returned : ℕ) :
    Relation.ReflTransGen (LogMachine.Step start)
      (.down ⟨disk, .head, gs, durable, returned⟩ : LogMachine ι)
      (.down ⟨update disk n (disk (start + 0 + 1)), .erase, gs, durable, returned⟩) := by
  have hread : LogMachine.Step start (.down ⟨disk, .head, gs, durable, returned⟩ : LogMachine ι)
      (.down ⟨disk, .install [n] 0, gs, durable, returned⟩) := by
    rw [← hhead]
    exact .recover _
  exact ((Relation.ReflTransGen.single hread).tail (.recover _)).tail (.recover _)

/-- The contents of the disk on which the first recovery has found nothing. -/
def blankDisk : ℕ → Block := update (fun _ _ => 0) 2 (setHead (fun _ => 0) [])

/-- A process has logged block 100 with new contents, and its commit has written the header. -/
theorem runs_to_header : ∃ c : Config Unit (Journal Unit) LogPc,
    Relation.ReflTransGen (LogMachine.Step 2) (.down ⟨fun _ _ => 0, .head, [], 0, 0⟩) (.up c) ∧
    getHead (c.shared.disk 2) = [100] ∧ (c.shared.disk 3 = fun _ => 1) ∧
    c.shared.groups = [[(100, fun _ => 1)]] ∧ c.shared.returned = 0 := by
  have hhome : Home 2 100 := by
    rw [Home, logblocks, maxopblocks]
    omega
  have hboot : Relation.ReflTransGen (LogMachine.Step 2)
      (.down ⟨fun _ _ => 0, .head, [], 0, 0⟩ : LogMachine Unit)
      (.up ⟨⟨0, false, [], blankDisk, blankDisk, ∅, [], 0, 0⟩, fun _ => .idle⟩) :=
    ((Relation.ReflTransGen.refl.tail (.recover _)).tail (.recover _)).tail (.recover _)
  have hrun := (((((((((hboot.tail (.thread (t := ()) (.mk (.enter ()) rfl))).tail
    (.thread (t := ()) (.mk (.begin ()) rfl))).tail
    (.thread (t := ()) (.mk (.change () ∅ ∅ hhome fun _ => 1) rfl))).tail
    (.thread (t := ()) (.mk (.write () ∅ {100} hhome trivial) rfl))).tail
    (.thread (t := ()) (.mk (.endOp () {100}) rfl))).tail
    (.thread (t := ()) (.mk (.commit () .test) rfl))).tail
    (.thread (t := ()) (.mk (.commit () (.writeLog 0)) rfl))).tail
    (.thread (t := ()) (.mk (.commit () (.writeLog 1)) rfl))).tail
    (.thread (t := ()) (.mk (.commit () .writeHead) rfl)))
  exact ⟨_, hrun, getHead_setHead (by decide) (by decide), rfl, rfl, rfl⟩

/-- The machine stops before the block is installed, and the recovery installs it. -/
theorem log_crash_atomic_one : ∃ (r : Halted) (c : Config Unit (Journal Unit) LogPc),
    Relation.ReflTransGen (LogMachine.Step 2) (.down ⟨fun _ _ => 0, .head, [], 0, 0⟩)
      (.down r : LogMachine Unit) ∧ r.groups = [[(100, fun _ => 1)]] ∧ r.returned = 0 ∧
    recoverStep 2 r = .up c ∧ (c.shared.disk 100 = fun _ => 1) ∧
    ∃ k, r.returned ≤ k ∧ k ≤ r.groups.length ∧ ∀ n, Home 2 n →
      c.shared.disk n = after (fun _ _ => 0) (r.groups.take k) n ∧
      c.shared.view n = after (fun _ _ => 0) (r.groups.take k) n := by
  obtain ⟨c, hruns, hhead, hlog, hgroups, hreturned⟩ := runs_to_header
  have hrun := (hruns.tail (.crash c)).trans (recovers_one hhead _ _ _)
  have hdisk : ∀ b, update (update c.shared.disk 100 (c.shared.disk 3)) 2 b 100 = fun _ => 1 := by
    intro b
    rw [update_of_ne (by decide), update_self, hlog]
  exact ⟨_, _, hrun, hgroups, hreturned, rfl,
    hdisk (setHead (update c.shared.disk 100 (c.shared.disk 3) 2) []),
    (log_crash_atomic (by decide) hrun).1 _ _ rfl rfl⟩

end Runs

end Xv6
