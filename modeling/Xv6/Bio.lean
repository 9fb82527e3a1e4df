import Xv6.Lib.Circle
import Xv6.Lib.Interleave
import Xv6.Riscv
import Mathlib.Data.List.FinRange
import Mathlib.Data.Multiset.Count

/-!
# The buffer cache

`bio.c`: `NBUF` buffers in an LRU list, each with a sleep-lock and a count of references. Any number
of processes call `bread`, `bwrite`, `brelse`, `bpin` and `bunpin`, and change the contents of the
buffers they hold. Steps are what happens under `bcache.lock`, the acquisition of a sleep-lock, its
release, and each transfer of a block from or to the disk.

A holder that changed a buffer must not lose the change: when it gives the buffer back, the contents
are on the disk or the buffer is pinned; and a pin is taken away only when the contents are on the
disk. This is the use `log.c` makes of the cache, and it is a condition on the steps of a run
(`Bcache.Disciplined`), not on the code. `refcnt` is a 32-bit number; the results need that fewer
than `2 ^ 32` references exist at a time, and `pins_overflow` is a run where that fails.
-/

namespace Xv6

open Threads Prog Function Multiset

/-- `BSIZE`. -/
def bsize : ℕ := 1024

/-- The contents of a disk block. -/
abbrev Block : Type := Fin bsize → Byte

/-- `NBUF`. -/
def nbuf : ℕ := 30

instance : NeZero nbuf := ⟨by decide⟩

/-- `struct buf` without its list pointers. `lock` is the process that has the sleep-lock. -/
structure Buf (ι : Type) where
  valid : Bool
  dev : ℕ
  blockno : ℕ
  lock : Option ι
  refcnt : BitVec 32
  data : Block

/-- `bcache` and the disk. -/
structure Bcache (ι : Type) where
  buf : Fin nbuf → Buf ι
  links : Circle (Fin nbuf)
  disk : ℕ → Block
  /-- Whose references to a buffer `refcnt` counts. No code reads this. -/
  users : Fin nbuf → Multiset ι
  /-- How many pins it counts. No code reads this. -/
  pins : Fin nbuf → ℕ
  /-- The last contents written to every block. No code reads this. -/
  store : ℕ → Block

/-- What a process does with the cache. -/
inductive BufOp where
  | bread (blockno : ℕ)
  /-- Change the contents of a buffer. -/
  | change (b : Fin nbuf) (data : Block)
  | bwrite (b : Fin nbuf)
  | brelse (b : Fin nbuf)
  | bpin (b : Fin nbuf)
  | bunpin (b : Fin nbuf)

/-- How far a process has got with a buffer. -/
inductive BufStage where
  /-- In `bget`, before `acquiresleep`. -/
  | acquire (blockno : ℕ)
  /-- In `bread`, at the test of `valid`. -/
  | locked (blockno : ℕ)
  /-- In `bread`, before the block is read. -/
  | missed (blockno : ℕ)
  /-- In `bread`, before `valid = 1`. -/
  | filled (blockno : ℕ)
  /-- `bread` has returned. -/
  | returned (blockno : ℕ)
  /-- In `brelse`, after `releasesleep`. -/
  | release

/-- Where a process stands. -/
inductive BufPc where
  | idle
  | call (op : BufOp)
  | busy (stage : BufStage) (b : Fin nbuf)

/-- A process outside the cache. -/
def BufPc.Outside : BufPc → Prop
  | idle | busy (.returned _) _ => True
  | _ => False

namespace Bcache

variable {ι : Type}

/-- The references to a buffer. -/
def refs (s : Bcache ι) (b : Fin nbuf) : ℕ := Multiset.card (s.users b) + s.pins b

/-- Change one buffer. -/
def setBuf (s : Bcache ι) (b : Fin nbuf) (x : Buf ι) : Bcache ι :=
  { s with buf := update s.buf b x }

section

variable (s : Bcache ι) {b b' : Fin nbuf} (x : Buf ι)

@[simp] theorem setBuf_buf_self : (s.setBuf b x).buf b = x := update_self ..

theorem setBuf_buf_of_ne (h : b' ≠ b) : (s.setBuf b x).buf b' = s.buf b' := update_of_ne h ..

@[simp] theorem setBuf_disk : (s.setBuf b x).disk = s.disk := rfl

@[simp] theorem setBuf_store : (s.setBuf b x).store = s.store := rfl

end

/-- The cache as the loader leaves it. -/
def zero (disk : ℕ → Block) : Bcache ι where
  buf _ := ⟨false, 0, 0, none, 0#32, fun _ => 0⟩
  links := ⟨fun _ => none, fun _ => none⟩
  disk := disk
  users _ := 0
  pins _ := 0
  store := disk

/-- `binit`. -/
def binit (s : Bcache ι) : Bcache ι :=
  { s with
    links := (List.finRange nbuf).foldl Circle.push
      ((s.links.setPrev none none).setNext none none) }

end Bcache

/-! ### The functions -/

section Functions

variable {ι : Type} [DecidableEq ι]

/-- `bget` while it has `bcache.lock`. A loop over a list that is no circle never ends, so it is no
step. -/
def bgetStep (dev blockno : ℕ) (me : ι) : Prog (Bcache ι) BufPc := do
  let s ← Prog.get
  match Circle.find s.links.next
      (fun b => (s.buf b).dev == dev && (s.buf b).blockno == blockno) nbuf (s.links.next none) with
  | none => Prog.panic "bget: endless"
  | some (some b) => do
    Prog.modify fun s => { s.setBuf b { s.buf b with refcnt := (s.buf b).refcnt + 1#32 } with
      users := update s.users b (me ::ₘ s.users b) }
    return .busy (.acquire blockno) b
  | some none =>
    match Circle.find s.links.prev (fun b => (s.buf b).refcnt == 0#32) nbuf
        (s.links.prev none) with
    | none => Prog.panic "bget: endless"
    | some none => Prog.panic "bget: no buffers"
    | some (some b) => do
      Prog.modify fun s => { s.setBuf b { s.buf b with
          dev := dev, blockno := blockno, valid := false, refcnt := 1#32 } with
        users := update s.users b (me ::ₘ s.users b) }
      return .busy (.acquire blockno) b

/-- `acquiresleep`: a process sleeps until the lock is free. -/
def acquireStep (blockno : ℕ) (b : Fin nbuf) (me : ι) : Prog (Bcache ι) BufPc := do
  let s ← Prog.get
  match (s.buf b).lock with
  | some _ => return .busy (.acquire blockno) b
  | none => do
    Prog.modify fun s => s.setBuf b { s.buf b with lock := some me }
    return .busy (.locked blockno) b

/-- The test in `bread`. -/
def validStep (blockno : ℕ) (b : Fin nbuf) : Prog (Bcache ι) BufPc := do
  let s ← Prog.get
  if (s.buf b).valid then return .busy (.returned blockno) b
  else return .busy (.missed blockno) b

/-- `virtio_disk_rw(b, 0)`. -/
def readStep (blockno : ℕ) (b : Fin nbuf) : Prog (Bcache ι) BufPc := do
  Prog.modify fun s => s.setBuf b { s.buf b with data := s.disk (s.buf b).blockno }
  return .busy (.filled blockno) b

/-- `b->valid = 1`. -/
def fillStep (blockno : ℕ) (b : Fin nbuf) : Prog (Bcache ι) BufPc := do
  Prog.modify fun s => s.setBuf b { s.buf b with valid := true }
  return .busy (.returned blockno) b

/-- A holder changes the contents of its buffer. -/
def changeStep (b : Fin nbuf) (data : Block) : Prog (Bcache ι) BufPc := do
  Prog.modify fun s => { s.setBuf b { s.buf b with data := data } with
    store := update s.store (s.buf b).blockno data }
  return .idle

/-- `bwrite`. -/
def bwriteStep (b : Fin nbuf) (me : ι) : Prog (Bcache ι) BufPc := do
  let s ← Prog.get
  if (s.buf b).lock = some me then do
    Prog.modify fun s =>
      { s with disk := update s.disk (s.buf b).blockno (s.buf b).data }
    return .idle
  else Prog.panic "bwrite"

/-- `brelse` up to `releasesleep`. -/
def brelseStep (b : Fin nbuf) (me : ι) : Prog (Bcache ι) BufPc := do
  let s ← Prog.get
  if (s.buf b).lock = some me then do
    Prog.modify fun s => s.setBuf b { s.buf b with lock := none }
    return .busy .release b
  else Prog.panic "brelse"

/-- The rest of `brelse`. -/
def releaseStep (b : Fin nbuf) (me : ι) : Prog (Bcache ι) BufPc := do
  Prog.modify fun s => { s.setBuf b { s.buf b with refcnt := (s.buf b).refcnt - 1#32 } with
    users := update s.users b ((s.users b).erase me) }
  let s ← Prog.get
  if (s.buf b).refcnt = 0#32 then do
    Prog.modify fun s => { s with links := (s.links.unlink b).push b }
    return .idle
  else return .idle

/-- `bpin`. -/
def bpinStep (b : Fin nbuf) : Prog (Bcache ι) BufPc := do
  Prog.modify fun s => { s.setBuf b { s.buf b with refcnt := (s.buf b).refcnt + 1#32 } with
    pins := update s.pins b (s.pins b + 1) }
  return .idle

/-- `bunpin`. -/
def bunpinStep (b : Fin nbuf) : Prog (Bcache ι) BufPc := do
  Prog.modify fun s => { s.setBuf b { s.buf b with refcnt := (s.buf b).refcnt - 1#32 } with
    pins := update s.pins b (s.pins b - 1) }
  return .idle

/-- Processes that use the blocks of one device. -/
inductive bufThreads (dev : ℕ) : Threads ι (Bcache ι) BufPc
  | call {me : ι} {pc : BufPc} (hpc : pc.Outside) (op : BufOp) :
      bufThreads dev me pc (return .call op)
  | bget (me : ι) (n : ℕ) : bufThreads dev me (.call (.bread n)) (bgetStep dev n me)
  | acquire (me : ι) (n : ℕ) (b : Fin nbuf) :
      bufThreads dev me (.busy (.acquire n) b) (acquireStep n b me)
  | valid (me : ι) (n : ℕ) (b : Fin nbuf) : bufThreads dev me (.busy (.locked n) b) (validStep n b)
  | read (me : ι) (n : ℕ) (b : Fin nbuf) : bufThreads dev me (.busy (.missed n) b) (readStep n b)
  | fill (me : ι) (n : ℕ) (b : Fin nbuf) : bufThreads dev me (.busy (.filled n) b) (fillStep n b)
  | change (me : ι) (b : Fin nbuf) (data : Block) :
      bufThreads dev me (.call (.change b data)) (changeStep b data)
  | bwrite (me : ι) (b : Fin nbuf) : bufThreads dev me (.call (.bwrite b)) (bwriteStep b me)
  | brelse (me : ι) (b : Fin nbuf) : bufThreads dev me (.call (.brelse b)) (brelseStep b me)
  | release (me : ι) (b : Fin nbuf) : bufThreads dev me (.busy .release b) (releaseStep b me)
  | bpin (me : ι) (b : Fin nbuf) : bufThreads dev me (.call (.bpin b)) (bpinStep b)
  | bunpin (me : ι) (b : Fin nbuf) : bufThreads dev me (.call (.bunpin b)) (bunpinStep b)

/-- **How the cache is used.** Only a holder changes a buffer; one that gives a buffer back has
written its contents to the disk, or the buffer is pinned; and the contents of a buffer that loses a
pin are on the disk. -/
def Bcache.Disciplined (s : Bcache ι) (me : ι) : BufPc → Prop
  | .call (.change b _) => (s.buf b).lock = some me
  | .call (.brelse b) => (s.buf b).data = s.disk (s.buf b).blockno ∨ 0 < s.pins b
  | .call (.bunpin b) => (s.buf b).data = s.disk (s.buf b).blockno ∧ 0 < s.pins b
  | _ => True

/-- No count of references is about to overflow. -/
def Bcache.Countable (s : Bcache ι) : Prop := ∀ b, s.refs b + 1 < 2 ^ 32

/-- After `binit`, when nothing is going on. -/
def Bcache.boot (disk : ℕ → Block) : Config ι (Bcache ι) BufPc where
  shared := (Bcache.zero disk).binit
  pc _ := .idle

end Functions

/-! ### The invariant -/

/-- How far a process has got with the buffer `b`. -/
def BufPc.about (b : Fin nbuf) : BufPc → Option BufStage
  | busy stage b' => if b' = b then some stage else none
  | _ => none

/-- The process has a reference, but not the lock. -/
@[simp] def BufStage.waits : BufStage → Bool
  | acquire _ | release => true
  | _ => false

/-- The process has the lock, and the contents may not be there yet. -/
@[simp] def BufStage.loads : BufStage → Bool
  | locked _ | missed _ | filled _ => true
  | _ => false

section Invariant

variable {ι : Type} [DecidableEq ι] {dev : ℕ} {s s' : Bcache ι} {pc pc' : ι → BufPc}
  {b b' : Fin nbuf} {t : ι} {q : BufPc} {n : ℕ}

/-- What a process that has got to some stage can rely on. -/
def Bcache.StageOk (s : Bcache ι) (b : Fin nbuf) (t : ι) : BufStage → Prop
  | .acquire n => (s.buf b).blockno = n
  | .locked n => (s.buf b).blockno = n ∧ (s.buf b).lock = some t
  | .missed n => (s.buf b).blockno = n ∧ (s.buf b).lock = some t ∧ (s.buf b).valid = false
  | .filled n => (s.buf b).blockno = n ∧ (s.buf b).lock = some t ∧ (s.buf b).data = s.store n
  | .returned n => (s.buf b).blockno = n ∧ (s.buf b).lock = some t ∧ (s.buf b).valid = true
  | .release => True

/-- The processes that have a reference to a buffer: its holder and those that wait. -/
def Bcache.usersOf (s : Bcache ι) (pc : ι → BufPc) (b : Fin nbuf) (t : ι) : ℕ :=
  (if (s.buf b).lock = some t then 1 else 0) + if ((pc t).about b).any BufStage.waits then 1 else 0

/-- **What holds of a buffer.** -/
structure BufOk (dev : ℕ) (s : Bcache ι) (pc : ι → BufPc) (b : Fin nbuf) : Prop where
  refcnt : (s.buf b).refcnt = BitVec.ofNat 32 (s.refs b)
  bounded : s.refs b < 2 ^ 32
  users : ∀ t, (s.users b).count t = s.usersOf pc b t
  assigned : s.users b ≠ 0 → (s.buf b).dev = dev
  validDev : (s.buf b).valid = true → (s.buf b).dev = dev
  stage : ∀ t st, (pc t).about b = some st → s.StageOk b t st
  holder : ∀ t, (s.buf b).lock = some t →
    (s.buf b).valid = true ∨ ((pc t).about b).any BufStage.loads = true
  contents : (s.buf b).valid = true → (s.buf b).data = s.store (s.buf b).blockno
  clean : (s.buf b).valid = true → (s.buf b).lock = none → s.pins b = 0 →
    s.disk (s.buf b).blockno = (s.buf b).data

/-- **The invariant.** -/
structure Coherent (dev : ℕ) (s : Bcache ι) (pc : ι → BufPc) : Prop where
  order : ∃ xs, s.links.Order xs ∧ xs.Perm (List.finRange nbuf)
  unique : ∀ b b', (s.buf b).dev = dev → (s.buf b').dev = dev →
    (s.buf b).blockno = (s.buf b').blockno → b = b'
  each : ∀ b, BufOk dev s pc b
  /-- A block that is not in the cache is on the disk. -/
  uncached : ∀ n, (∀ b, (s.buf b).dev = dev → (s.buf b).blockno = n → (s.buf b).valid = false) →
    s.disk n = s.store n

theorem BufOk.mem_users_of_lock (h : BufOk dev s pc b) (ht : (s.buf b).lock = some t) :
    s.users b ≠ 0 := by
  intro h0
  have := h.users t
  rw [h0, Bcache.usersOf, if_pos ht] at this
  simp at this
  omega

theorem BufOk.mem_users_of_waits (h : BufOk dev s pc b)
    (ht : ((pc t).about b).any BufStage.waits = true) : s.users b ≠ 0 := by
  intro h0
  have := h.users t
  rw [h0, Bcache.usersOf, if_pos ht] at this
  simp at this

theorem BufOk.mem_users_of_stage (h : BufOk dev s pc b) {st : BufStage}
    (ht : (pc t).about b = some st) : s.users b ≠ 0 := by
  have hst := h.stage t st ht
  cases st with
  | acquire n | release => exact h.mem_users_of_waits (by rw [ht]; rfl)
  | locked n => exact h.mem_users_of_lock hst.2
  | missed n | filled n | returned n => exact h.mem_users_of_lock hst.2.1

theorem BufOk.dev_of_stage (h : BufOk dev s pc b) {st : BufStage} (ht : (pc t).about b = some st) :
    (s.buf b).dev = dev := h.assigned (h.mem_users_of_stage ht)

theorem BufOk.frame (h : BufOk dev s pc b) (hbuf : s'.buf b = s.buf b)
    (husers : s'.users b = s.users b) (hpins : s'.pins b = s.pins b)
    (hdisk : (s.buf b).dev = dev → s'.disk (s.buf b).blockno = s.disk (s.buf b).blockno)
    (hstore : (s.buf b).dev = dev → s'.store (s.buf b).blockno = s.store (s.buf b).blockno)
    (hpc : ∀ t, (pc' t).about b = (pc t).about b) : BufOk dev s' pc' b where
  refcnt := by rw [hbuf, Bcache.refs, husers, hpins]; exact h.refcnt
  bounded := by rw [Bcache.refs, husers, hpins]; exact h.bounded
  users t := by rw [husers, Bcache.usersOf, hbuf, hpc]; exact h.users t
  assigned := by rw [husers, hbuf]; exact h.assigned
  validDev := by rw [hbuf]; exact h.validDev
  stage t st ht := by
    rw [hpc] at ht
    have hst := h.stage t st ht
    have hdev := h.dev_of_stage ht
    cases st with
    | filled n =>
      obtain ⟨hn, hlock, hdata⟩ := hst
      rw [← hn] at hdata
      refine ⟨by rw [hbuf, hn], by rw [hbuf, hlock], ?_⟩
      rw [hbuf, ← hn, hstore hdev, hdata]
    | release => trivial
    | _ => simpa only [Bcache.StageOk, hbuf] using hst
  holder t ht := by
    rw [hbuf] at ht ⊢
    rw [hpc]
    exact h.holder t ht
  contents hv := by
    rw [hbuf] at hv ⊢
    rw [hstore (h.validDev hv)]
    exact h.contents hv
  clean hv hlock hpin := by
    rw [hbuf] at hv hlock ⊢
    rw [hdisk (h.validDev hv)]
    rw [hpins] at hpin
    exact h.clean hv hlock hpin

/-! ### One step -/

section Only

variable (h : Coherent dev s pc) (b : Fin nbuf) (hbuf : ∀ b', b' ≠ b → s'.buf b' = s.buf b')
  (husers : ∀ b', b' ≠ b → s'.users b' = s.users b')
  (hpins : ∀ b', b' ≠ b → s'.pins b' = s.pins b')
  (horder : ∃ xs, s'.links.Order xs ∧ xs.Perm (List.finRange nbuf))
  (hpc : ∀ b', b' ≠ b → q.about b' = (pc t).about b') (hok : BufOk dev s' (update pc t q) b)
include h hbuf husers hpins horder hpc hok

/-- A process moves, and only the buffer `b` and its block change. -/
theorem Coherent.only
    (hblock : ∀ b', b' ≠ b → (s.buf b').dev = dev →
      ((s'.buf b).dev = dev → (s.buf b').blockno ≠ (s'.buf b).blockno) ∧
      s'.disk (s.buf b').blockno = s.disk (s.buf b').blockno ∧
      s'.store (s.buf b').blockno = s.store (s.buf b').blockno)
    (huncached : ∀ n, (∀ b, (s'.buf b).dev = dev → (s'.buf b).blockno = n →
      (s'.buf b).valid = false) → s'.disk n = s'.store n) :
    Coherent dev s' (update pc t q) where
  order := horder
  unique b₁ b₂ h₁ h₂ heq := by
    by_cases hb₁ : b₁ = b <;> by_cases hb₂ : b₂ = b
    · rw [hb₁, hb₂]
    · rw [hbuf b₂ hb₂] at h₂ heq
      rw [hb₁] at h₁ heq
      exact absurd heq.symm ((hblock b₂ hb₂ h₂).1 h₁)
    · rw [hbuf b₁ hb₁] at h₁ heq
      rw [hb₂] at h₂ heq
      exact absurd heq ((hblock b₁ hb₁ h₁).1 h₂)
    · rw [hbuf b₁ hb₁] at h₁ heq
      rw [hbuf b₂ hb₂] at h₂ heq
      exact h.unique b₁ b₂ h₁ h₂ heq
  each b' := by
    by_cases hb' : b' = b
    · rw [hb']
      exact hok
    · refine (h.each b').frame (hbuf b' hb') (husers b' hb') (hpins b' hb')
        (fun hd => (hblock b' hb' hd).2.1) (fun hd => (hblock b' hb' hd).2.2) fun t' => ?_
      by_cases ht : t' = t
      · rw [ht, update_self, hpc b' hb']
      · rw [update_of_ne ht]
  uncached := huncached

/-- A process moves, and the buffer `b` keeps its block. -/
theorem Coherent.touch (hdisk : s'.disk = s.disk) (hstore : s'.store = s.store)
    (hdev : (s'.buf b).dev = (s.buf b).dev) (hblockno : (s'.buf b).blockno = (s.buf b).blockno)
    (hvalid : (s.buf b).valid = true → (s'.buf b).valid = true) :
    Coherent dev s' (update pc t q) := by
  refine h.only b hbuf husers hpins horder hpc hok (fun b' hb' hd => ⟨fun hd' heq => hb' ?_,
    by rw [hdisk], by rw [hstore]⟩) fun n hn => ?_
  · rw [hdev] at hd'
    rw [hblockno] at heq
    exact h.unique b' b hd hd' heq
  · rw [hdisk, hstore]
    refine h.uncached n fun b' hd hblk => ?_
    by_cases hb' : b' = b
    · subst hb'
      have hx := hn b' (hdev.trans hd) (hblockno.trans hblk)
      by_contra hv
      rw [hvalid (by simpa using hv)] at hx
      exact absurd hx (by decide)
    · have hx := hn b'
      rw [hbuf b' hb'] at hx
      exact hx hd hblk

end Only

/-- A process moves, and changes the buffer `b` but not its block. -/
theorem Coherent.setBuf (h : Coherent dev s pc) {b : Fin nbuf} {x : Buf ι}
    (hdev : x.dev = (s.buf b).dev) (hblockno : x.blockno = (s.buf b).blockno)
    (hvalid : (s.buf b).valid = true → x.valid = true)
    (hpc : ∀ b', b' ≠ b → q.about b' = (pc t).about b')
    (hok : BufOk dev (s.setBuf b x) (update pc t q) b) :
    Coherent dev (s.setBuf b x) (update pc t q) :=
  h.touch b (fun _ hb' => Bcache.setBuf_buf_of_ne _ _ hb') (fun _ _ => rfl) (fun _ _ => rfl) h.order
    hpc hok rfl rfl (by simpa using hdev) (by simpa using hblockno) (by simpa using hvalid)

/-- A process is not at any stage of any other buffer. -/
theorem BufPc.about_of_ne (st : BufStage) (hb : b' ≠ b) : (busy st b).about b' = none :=
  if_neg hb.symm

@[simp] theorem BufPc.about_self (st : BufStage) (b : Fin nbuf) :
    (busy st b).about b = some st := if_pos rfl

@[simp] theorem BufPc.about_call (op : BufOp) (b : Fin nbuf) : (call op).about b = none := rfl

@[simp] theorem BufPc.about_idle (b : Fin nbuf) : idle.about b = none := rfl

/-- A process that does not come to a buffer or leave it. -/
theorem Bcache.usersOf_update (t' : ι)
    (hq : (q.about b).any BufStage.waits = ((pc t).about b).any BufStage.waits) :
    s.usersOf (update pc t q) b t' = s.usersOf pc b t' := by
  rw [Bcache.usersOf, Bcache.usersOf]
  by_cases ht : t' = t
  · rw [ht, update_self, hq]
  · rw [update_of_ne ht]

/-- A process that enters a function takes no step yet. -/
theorem Coherent.call (h : Coherent dev s pc) (hpc : (pc t).Outside) (op : BufOp) :
    Coherent dev s (update pc t (.call op)) where
  order := h.order
  unique := h.unique
  uncached := h.uncached
  each b := by
    have hb := h.each b
    have hwaits : ((pc t).about b).any BufStage.waits = false ∧
        ((pc t).about b).any BufStage.loads = false := by
      cases hp : pc t with
      | idle => simp
      | call op => simp
      | busy st b' =>
        rw [hp] at hpc
        by_cases heq : b' = b
        · cases st <;> simp_all [BufPc.Outside, BufPc.about]
        · simp [BufPc.about, heq]
    refine ⟨hb.refcnt, hb.bounded, fun t' => ?_, hb.assigned, hb.validDev, fun t' st hst => ?_,
      fun t' hlock => ?_, hb.contents, hb.clean⟩
    · rw [hb.users t', Bcache.usersOf_update (q := .call op) t' hwaits.1.symm]
    · by_cases ht : t' = t
      · rw [ht, update_self] at hst
        exact absurd hst (by simp)
      · rw [update_of_ne ht] at hst
        exact hb.stage t' st hst
    · by_cases ht : t' = t
      · have := hb.holder t' hlock
        rw [ht, hwaits.2] at this
        exact Or.inl (by simpa using this)
      · rw [update_of_ne ht]
        exact hb.holder t' hlock

/-- A process moves to `q`, and the buffer `b` keeps its references. -/
structure BufMove (s s' : Bcache ι) (pc : ι → BufPc) (b : Fin nbuf) (t : ι) (q : BufPc) : Prop where
  refcnt : (s'.buf b).refcnt = (s.buf b).refcnt
  users : s'.users b = s.users b
  pins : s'.pins b = s.pins b
  dev : (s'.buf b).dev = (s.buf b).dev
  self : s'.usersOf (update pc t q) b t = s.usersOf pc b t
  stage : ∀ st, q.about b = some st → s'.StageOk b t st
  holder : (s'.buf b).lock = some t →
    (s'.buf b).valid = true ∨ (q.about b).any BufStage.loads = true
  valid : (s.buf b).valid = true → (s'.buf b).valid = true

/-- A process that moves from one stage of a buffer to another. -/
theorem BufOk.move (h : BufOk dev s pc b) (hq : BufMove s s' pc b t q)
    (hlock : ∀ t', t' ≠ t → ((s'.buf b).lock = some t' ↔ (s.buf b).lock = some t'))
    (hstages : ∀ t' st, t' ≠ t → (pc t').about b = some st → s'.StageOk b t' st)
    (hcontents : (s'.buf b).valid = true → (s'.buf b).dev = dev ∧
      (s'.buf b).data = s'.store (s'.buf b).blockno ∧
      ((s'.buf b).lock = none → s'.pins b = 0 → s'.disk (s'.buf b).blockno = (s'.buf b).data)) :
    BufOk dev s' (update pc t q) b where
  refcnt := by rw [hq.refcnt, Bcache.refs, hq.users, hq.pins]; exact h.refcnt
  bounded := by rw [Bcache.refs, hq.users, hq.pins]; exact h.bounded
  users t' := by
    rw [hq.users, h.users t']
    by_cases ht : t' = t
    · rw [ht, hq.self]
    · simp only [Bcache.usersOf, hlock t' ht, update_of_ne ht]
  assigned := by rw [hq.users, hq.dev]; exact h.assigned
  validDev hv := (hcontents hv).1
  stage t' st hst := by
    by_cases ht : t' = t
    · rw [ht, update_self] at hst
      rw [ht]
      exact hq.stage st hst
    · rw [update_of_ne ht] at hst
      exact hstages t' st ht hst
  holder t' hl := by
    by_cases ht : t' = t
    · rw [ht, update_self]
      exact hq.holder (ht ▸ hl)
    · rw [update_of_ne ht]
      exact (h.holder t' ((hlock t' ht).mp hl)).imp_left hq.valid
  contents hv := (hcontents hv).2.1
  clean hv := (hcontents hv).2.2

/-- A process that has the lock moves. The others there wait, and they ask for this block. -/
theorem BufOk.move_holder (h : BufOk dev s pc b) (ht : (s.buf b).lock = some t)
    (hq : BufMove s s' pc b t q) (hblockno : (s'.buf b).blockno = (s.buf b).blockno)
    (hlock : ∀ t', t' ≠ t → (s'.buf b).lock ≠ some t')
    (hcontents : (s'.buf b).valid = true →
      (s'.buf b).data = s'.store (s'.buf b).blockno ∧
      ((s'.buf b).lock = none → s'.pins b = 0 → s'.disk (s'.buf b).blockno = (s'.buf b).data)) :
    BufOk dev s' (update pc t q) b := by
  have hother : ∀ t', t' ≠ t → (s.buf b).lock ≠ some t' := fun t' hne hl =>
    hne (Option.some.inj (hl.symm.trans ht))
  refine h.move hq
    (fun t' hne => ⟨fun hl => absurd hl (hlock t' hne), fun hl => absurd hl (hother t' hne)⟩)
    (fun t' st hne hst => ?_)
    fun hv => ⟨hq.dev.trans (h.assigned (h.mem_users_of_lock ht)), hcontents hv⟩
  have hok := h.stage t' st hst
  cases st with
  | acquire n => exact hblockno.trans hok
  | release => trivial
  | locked n => exact absurd hok.2 (hother t' hne)
  | missed n | filled n | returned n => exact absurd hok.2.1 (hother t' hne)

theorem BufOk.refcnt_succ (h : BufOk dev s pc b) :
    (s.buf b).refcnt + 1#32 = BitVec.ofNat 32 (s.refs b + 1) := by
  rw [h.refcnt, BitVec.ofNat_add]

theorem BufOk.refcnt_pred (h : BufOk dev s pc b) (hn : n + 1 = s.refs b) :
    (s.buf b).refcnt - 1#32 = BitVec.ofNat 32 n := by
  rw [h.refcnt, ← hn, BitVec.ofNat_add, BitVec.add_sub_cancel]

/-- A process moves, and only the references to the buffer `b` change. -/
theorem Coherent.recount (h : Coherent dev s pc) {r : BitVec 32} {u : Multiset ι}
    (hbuf : s'.buf = update s.buf b { s.buf b with refcnt := r })
    (husers : s'.users = update s.users b u) (hpins : s'.pins = update s.pins b n)
    (hdisk : s'.disk = s.disk) (hstore : s'.store = s.store)
    (horder : ∃ xs, s'.links.Order xs ∧ xs.Perm (List.finRange nbuf))
    (hpc : ∀ b', b' ≠ b → q.about b' = (pc t).about b')
    (hrefcnt : r = BitVec.ofNat 32 (u.card + n)) (hbounded : u.card + n < 2 ^ 32)
    (hcount : ∀ t', u.count t' = s.usersOf (update pc t q) b t')
    (hassigned : u ≠ 0 → (s.buf b).dev = dev)
    (hstage : ∀ st, q.about b = some st → s.StageOk b t st)
    (hloads : ((pc t).about b).any BufStage.loads = false)
    (hclean : (s.buf b).valid = true → (s.buf b).lock = none → n = 0 →
      s.disk (s.buf b).blockno = (s.buf b).data) :
    Coherent dev s' (update pc t q) := by
  have hself : s'.buf b = { s.buf b with refcnt := r } := by rw [hbuf, update_self]
  have hu : s'.users b = u := by rw [husers, update_self]
  have hn : s'.pins b = n := by rw [hpins, update_self]
  have hok := h.each b
  have hstages : ∀ t' st, s.StageOk b t' st → s'.StageOk b t' st := by
    intro t' st hst
    cases st with
    | release => trivial
    | _ => simpa [Bcache.StageOk, hself, hstore] using hst
  refine h.touch b (fun b' hb' => by rw [hbuf, update_of_ne hb'])
    (fun b' hb' => by rw [husers, update_of_ne hb'])
    (fun b' hb' => by rw [hpins, update_of_ne hb']) horder hpc ⟨?_, ?_, fun t' => ?_, ?_, ?_,
    fun t' st hst => ?_, fun t' hl => ?_, ?_, ?_⟩ hdisk hstore (by rw [hself]) (by rw [hself])
    (by rw [hself]; exact id)
  · rw [hself, Bcache.refs, hu, hn]
    exact hrefcnt
  · rw [Bcache.refs, hu, hn]
    exact hbounded
  · rw [hu, hcount, Bcache.usersOf, Bcache.usersOf, hself]
  · rw [hu, hself]
    exact hassigned
  · rw [hself]
    exact hok.validDev
  · by_cases ht : t' = t
    · rw [ht, update_self] at hst
      rw [ht]
      exact hstages t st (hstage st hst)
    · rw [update_of_ne ht] at hst
      exact hstages t' st (hok.stage t' st hst)
  · rw [hself] at hl ⊢
    have hv := hok.holder t' hl
    by_cases ht : t' = t
    · rw [ht, hloads] at hv
      exact Or.inl (by simpa using hv)
    · rwa [update_of_ne ht]
  · rw [hself, hstore]
    exact hok.contents
  · rw [hself, hdisk, hn]
    exact hclean

/-- A buffer that is moved to the front of the list. -/
theorem Bcache.order_front {l : Circle (Fin nbuf)} {xs : List (Fin nbuf)} (h : l.Order xs)
    (hperm : xs.Perm (List.finRange nbuf)) (b : Fin nbuf) :
    ∃ ys, ((l.unlink b).push b).Order ys ∧ ys.Perm (List.finRange nbuf) := by
  obtain ⟨left, right, rfl⟩ := List.append_of_mem (hperm.mem_iff.mpr (List.mem_finRange b))
  refine ⟨b :: (left ++ right), h.unlink.push ?_, List.perm_middle.symm.trans hperm⟩
  exact (List.nodup_cons.mp (List.perm_middle.nodup_iff.mp h.nodup)).1

section Moves

variable (h : Coherent dev s pc)
include h

theorem Coherent.acquire (ht : pc t = .busy (.acquire n) b) :
    Maintains (Coherent dev) pc t (acquireStep n b t) s := by
  rw [Maintains, acquireStep, wp_bind, wp_get]
  have hb := h.each b
  have habout : (pc t).about b = some (.acquire n) := by rw [ht, BufPc.about_self]
  have hn : (s.buf b).blockno = n := hb.stage t _ habout
  cases hlock : (s.buf b).lock with
  | some t' =>
    have hsame : update pc t (.busy (.acquire n) b) = pc := by
      rw [← ht, update_eq_self]
    change Coherent dev s (update pc t (.busy (.acquire n) b))
    rwa [hsame]
  | none =>
    change Coherent dev (s.setBuf b { s.buf b with lock := some t })
      (update pc t (.busy (.locked n) b))
    refine h.setBuf rfl rfl (by simp)
      (fun b' hb' => by rw [ht, BufPc.about_of_ne _ hb', BufPc.about_of_ne _ hb']) ?_
    refine hb.move ⟨by simp, rfl, rfl, by simp, ?_, ?_, ?_, by simp⟩ (fun t' hne => ?_) ?_ ?_
    · simp [Bcache.usersOf, habout, hlock]
    · intro st hst
      obtain rfl : BufStage.locked n = st := by simpa using hst
      simp [Bcache.StageOk, hn]
    · intro _
      exact Or.inr (by simp)
    · simp [hlock, hne.symm]
    · intro t' st hne hst
      have hok := hb.stage t' st hst
      cases st with
      | release => trivial
      | acquire n' => simpa [Bcache.StageOk] using hok
      | locked n' => exact absurd hok.2 (by simp [hlock])
      | missed n' | filled n' | returned n' => exact absurd hok.2.1 (by simp [hlock])
    · intro hv
      have hv' : (s.buf b).valid = true := by simpa using hv
      exact ⟨by simpa using hb.validDev hv', by simpa using hb.contents hv', by simp⟩

/-- The holder of a buffer goes on with `bread`. -/
theorem Coherent.advance {st : BufStage} (st' : BufStage) (data : Block) (valid : Bool)
    (ht : pc t = .busy st b) (hlock : (s.buf b).lock = some t)
    (hwaits : st.waits = false ∧ st'.waits = false)
    (hst : (s.setBuf b { s.buf b with data := data, valid := valid }).StageOk b t st')
    (hvalid : (s.buf b).valid = true → valid = true)
    (hload : valid = true ∨ st'.loads = true)
    (hdata : valid = true → data = s.store (s.buf b).blockno) :
    Coherent dev (s.setBuf b { s.buf b with data := data, valid := valid })
      (update pc t (.busy st' b)) := by
  refine h.setBuf rfl rfl hvalid
    (fun b' hb' => by rw [ht, BufPc.about_of_ne _ hb', BufPc.about_of_ne _ hb']) ?_
  refine (h.each b).move_holder hlock ⟨by simp, rfl, rfl, by simp, ?_, ?_, ?_, by simpa using hvalid⟩
    (by simp) (fun t' hne => by simpa [hlock] using hne.symm) ?_
  · simp [Bcache.usersOf, ht, hlock, hwaits.1, hwaits.2, -BufStage.waits]
  · intro st₁ hst₁
    obtain rfl : st' = st₁ := by simpa using hst₁
    exact hst
  · intro _
    simpa using hload
  · intro hv
    exact ⟨by simpa using hdata (by simpa using hv), by simp [hlock]⟩

/-- A buffer that is valid has the last contents of its block. -/
theorem Coherent.valid (ht : pc t = .busy (.locked n) b) :
    Maintains (Coherent dev) pc t (validStep n b) s := by
  rw [Maintains, validStep, wp_bind, wp_get]
  have hb := h.each b
  obtain ⟨hn, hlock⟩ := hb.stage t _ (by rw [ht, BufPc.about_self])
  have hself : s.setBuf b { s.buf b with
      data := (s.buf b).data, valid := (s.buf b).valid } = s := by
    simp [Bcache.setBuf]
  split_ifs with hv
  · have hnext := h.advance (.returned n) _ _ ht hlock ⟨rfl, rfl⟩
      (hself.symm ▸ ⟨hn, hlock, hv⟩) id (Or.inl hv) hb.contents
    rwa [hself] at hnext
  · have hnext := h.advance (.missed n) _ _ ht hlock ⟨rfl, rfl⟩
      (hself.symm ▸ ⟨hn, hlock, by simpa using hv⟩) id (Or.inr rfl) hb.contents
    rwa [hself] at hnext

/-- A block that is read from the disk is not in another buffer, so the disk has its last
contents. -/
theorem Coherent.read (ht : pc t = .busy (.missed n) b) :
    Maintains (Coherent dev) pc t (readStep n b) s := by
  have hb := h.each b
  have habout : (pc t).about b = some (.missed n) := by rw [ht, BufPc.about_self]
  obtain ⟨hn, hlock, hv⟩ := hb.stage t _ habout
  have hdev := hb.dev_of_stage habout
  have hdisk : s.disk n = s.store n := h.uncached n fun b' hd' hn' => by
    rw [h.unique b' b hd' hdev (hn'.trans hn.symm), hv]
  exact h.advance (.filled n) (s.disk (s.buf b).blockno) _ ht hlock ⟨rfl, rfl⟩
    (by simp [Bcache.StageOk, hn, hlock, hdisk]) id (Or.inr rfl) fun hv' => absurd hv' (by simp [hv])

theorem Coherent.fill (ht : pc t = .busy (.filled n) b) :
    Maintains (Coherent dev) pc t (fillStep n b) s := by
  obtain ⟨hn, hlock, hdata⟩ := (h.each b).stage t _ (by rw [ht, BufPc.about_self])
  exact h.advance (.returned n) _ true ht hlock ⟨rfl, rfl⟩ (by simp [Bcache.StageOk, hn, hlock])
    (fun _ => rfl) (Or.inl rfl) fun _ => hn.symm ▸ hdata

/-- The holder of a buffer changes its contents, or what the disk has of its block. -/
theorem Coherent.write {op : BufOp} (ht : pc t = .call op) (hlock : (s.buf b).lock = some t)
    (data x : Block) :
    Coherent dev { s.setBuf b { s.buf b with data := data } with
      disk := update s.disk (s.buf b).blockno x
      store := update s.store (s.buf b).blockno data } (update pc t .idle) := by
  have hb := h.each b
  have habout : (pc t).about b = none := by rw [ht]; rfl
  have hdev := hb.assigned (hb.mem_users_of_lock hlock)
  have hv : (s.buf b).valid = true := by simpa [habout] using hb.holder t hlock
  refine h.only b (fun b' hb' => Bcache.setBuf_buf_of_ne _ _ hb') (fun _ _ => rfl)
    (fun _ _ => rfl) h.order (fun b' _ => by rw [ht]; rfl) ?_ (fun b' hb' hd => ?_) fun n hn => ?_
  · refine hb.move_holder hlock ⟨by simp, rfl, rfl, by simp, ?_, ?_, ?_, by simp⟩ (by simp)
      (fun t' hne => by simpa [hlock] using hne.symm) ?_
    · simp [Bcache.usersOf, habout]
    · intro st hst
      simp at hst
    · intro _
      exact Or.inl (by simpa using hv)
    · intro _
      exact ⟨by simp, by simp [hlock]⟩
  · have hne : (s.buf b').blockno ≠ (s.buf b).blockno := fun heq =>
      hb' (h.unique b' b hd hdev heq)
    exact ⟨fun _ => by simpa using hne, update_of_ne hne .., update_of_ne hne ..⟩
  · have hne : n ≠ (s.buf b).blockno := by
      rintro rfl
      have := hn b (by simpa using hdev) (by simp)
      simp [hv] at this
    change update s.disk _ x n = update s.store _ data n
    rw [update_of_ne hne, update_of_ne hne]
    refine h.uncached n fun b' hd hblk => ?_
    have hb' : b' ≠ b := by
      rintro rfl
      exact hne hblk.symm
    have := hn b'
    simp only [Bcache.setBuf_buf_of_ne s _ hb'] at this
    exact this hd hblk

/-- A change by the holder is a write to the block. -/
theorem Coherent.change {data : Block} (ht : pc t = .call (.change b data))
    (hlock : (s.buf b).lock = some t) :
    Maintains (Coherent dev) pc t (changeStep b data) s := by
  have hw := h.write ht hlock data (s.disk (s.buf b).blockno)
  rwa [update_eq_self] at hw

theorem Coherent.bwrite (ht : pc t = .call (.bwrite b)) :
    Maintains (Coherent dev) pc t (bwriteStep b t) s := by
  rw [Maintains, bwriteStep, wp_bind, wp_get]
  split_ifs with hlock
  · have hb := h.each b
    have hv : (s.buf b).valid = true := by simpa [ht] using hb.holder t hlock
    have hstore : update s.store (s.buf b).blockno (s.buf b).data = s.store := by
      rw [hb.contents hv, update_eq_self]
    have hw := h.write ht hlock (s.buf b).data (s.buf b).data
    simp only [Bcache.setBuf, hstore, update_eq_self] at hw
    exact hw
  · trivial

theorem Coherent.brelse (ht : pc t = .call (.brelse b))
    (hclean : (s.buf b).data = s.disk (s.buf b).blockno ∨ 0 < s.pins b) :
    Maintains (Coherent dev) pc t (brelseStep b t) s := by
  rw [Maintains, brelseStep, wp_bind, wp_get]
  have hb := h.each b
  have habout : (pc t).about b = none := by rw [ht]; rfl
  split_ifs with hlock
  · have hv : (s.buf b).valid = true := by simpa [habout] using hb.holder t hlock
    change Coherent dev (s.setBuf b { s.buf b with lock := none })
      (update pc t (.busy .release b))
    refine h.setBuf rfl rfl (by simp)
      (fun b' hb' => by rw [ht, BufPc.about_of_ne _ hb', BufPc.about_call]) ?_
    refine hb.move_holder hlock ⟨by simp, rfl, rfl, by simp, ?_, ?_, ?_, by simp⟩ (by simp)
      (fun t' hne => by simp) ?_
    · simp [Bcache.usersOf, habout, hlock]
    · intro st hst
      obtain rfl : BufStage.release = st := by simpa using hst
      trivial
    · intro hl
      simp at hl
    · intro _
      refine ⟨by simpa using hb.contents hv, fun _ hpins => ?_⟩
      rcases hclean with hd | hp
      · simpa using hd.symm
      · exact absurd hpins hp.ne'
  · trivial

theorem Coherent.bpin (ht : pc t = .call (.bpin b)) (hcount : s.Countable) :
    Maintains (Coherent dev) pc t (bpinStep b) s := by
  have hb := h.each b
  have habout : (pc t).about b = none := by rw [ht]; rfl
  change Coherent dev { s.setBuf b { s.buf b with refcnt := (s.buf b).refcnt + 1#32 } with
    pins := update s.pins b (s.pins b + 1) } (update pc t .idle)
  refine h.recount rfl (update_eq_self b s.users).symm rfl rfl rfl h.order
    (fun b' _ => by rw [ht]; rfl) hb.refcnt_succ (hcount b) (fun t' => ?_) hb.assigned (by simp)
    (by rw [habout]; rfl) (by simp)
  rw [hb.users t', Bcache.usersOf_update t' (by rw [habout]; rfl)]

theorem Coherent.bunpin (ht : pc t = .call (.bunpin b))
    (hclean : (s.buf b).data = s.disk (s.buf b).blockno) (hpins : 0 < s.pins b) :
    Maintains (Coherent dev) pc t (bunpinStep b) s := by
  have hb := h.each b
  have habout : (pc t).about b = none := by rw [ht]; rfl
  have hrefs : (s.users b).card + (s.pins b - 1) + 1 = s.refs b := by
    rw [Bcache.refs]
    omega
  change Coherent dev { s.setBuf b { s.buf b with refcnt := (s.buf b).refcnt - 1#32 } with
    pins := update s.pins b (s.pins b - 1) } (update pc t .idle)
  refine h.recount rfl (update_eq_self b s.users).symm rfl rfl rfl h.order
    (fun b' _ => by rw [ht]; rfl) (hb.refcnt_pred hrefs) (by have := hb.bounded; omega)
    (fun t' => ?_) hb.assigned (by simp)
    (by rw [habout]; rfl) fun _ _ _ => hclean.symm
  rw [hb.users t', Bcache.usersOf_update t' (by rw [habout]; rfl)]

theorem Coherent.release (ht : pc t = .busy .release b) :
    Maintains (Coherent dev) pc t (releaseStep b t) s := by
  have hb := h.each b
  have habout : (pc t).about b = some .release := by rw [ht, BufPc.about_self]
  have hmem : t ∈ s.users b := by
    rw [← Multiset.count_pos, hb.users t, Bcache.usersOf, habout]
    simp
  have hrefs : ((s.users b).erase t).card + s.pins b + 1 = s.refs b := by
    have := Multiset.card_erase_add_one hmem
    rw [Bcache.refs]
    omega
  have hdone : ∀ l : Circle (Fin nbuf), (∃ xs, l.Order xs ∧ xs.Perm (List.finRange nbuf)) →
      Coherent dev { s.setBuf b { s.buf b with refcnt := (s.buf b).refcnt - 1#32 } with
        users := update s.users b ((s.users b).erase t), links := l }
        (update pc t .idle) := by
    intro l hl
    refine h.recount rfl rfl (update_eq_self b s.pins).symm rfl rfl hl
      (fun b' hb' => by rw [ht, BufPc.about_of_ne _ hb', BufPc.about_idle]) (hb.refcnt_pred hrefs)
      (by have := hb.bounded; omega) (fun t' => ?_) (fun _ => hb.dev_of_stage habout) (by simp)
      (by rw [habout]; rfl) hb.clean
    have hcount := hb.users t'
    by_cases hne : t' = t
    · rw [hne, Multiset.count_erase_self, ← hne, hcount]
      simp [Bcache.usersOf, hne, habout]
    · rw [Multiset.count_erase_of_ne hne, hcount]
      simp [Bcache.usersOf, hne]
  obtain ⟨xs, hxs, hperm⟩ := h.order
  rw [Maintains, releaseStep, wp_bind, wp_modify, wp_bind, wp_get]
  split_ifs with hzero
  · exact hdone _ (Bcache.order_front hxs hperm b)
  · exact hdone _ ⟨xs, hxs, hperm⟩

/-- A block that is in the cache gets one more reference. -/
theorem Coherent.hit (ht : pc t = .call (.bread n)) (hcount : s.Countable)
    (hdev : (s.buf b).dev = dev) (hn : (s.buf b).blockno = n) :
    Coherent dev { s.setBuf b { s.buf b with refcnt := (s.buf b).refcnt + 1#32 } with
      users := update s.users b (t ::ₘ s.users b) }
      (update pc t (.busy (.acquire n) b)) := by
  have hb := h.each b
  have habout : (pc t).about b = none := by rw [ht]; rfl
  have hrefs : (t ::ₘ s.users b).card + s.pins b = s.refs b + 1 := by
    rw [Multiset.card_cons, Bcache.refs]
    omega
  refine h.recount rfl rfl (update_eq_self b s.pins).symm rfl rfl h.order
    (fun b' hb' => by rw [ht, BufPc.about_of_ne _ hb', BufPc.about_call])
    (by rw [hrefs]; exact hb.refcnt_succ) (by rw [hrefs]; exact hcount b) (fun t' => ?_)
    (fun _ => hdev) (fun st hst => ?_) (by rw [habout]; rfl) hb.clean
  · have hc := hb.users t'
    by_cases hne : t' = t
    · rw [hne, count_cons_self, ← hne, hc]
      simp [Bcache.usersOf, hne, habout]
    · rw [count_cons_of_ne hne, hc]
      simp [Bcache.usersOf, hne]
  · obtain rfl : BufStage.acquire n = st := by simpa using hst
    exact hn

/-- A buffer without references gets another block. -/
theorem Coherent.recycle (ht : pc t = .call (.bread n))
    (hmiss : ∀ b', (s.buf b').dev = dev → (s.buf b').blockno ≠ n)
    (hzero : (s.buf b).refcnt = 0#32) :
    Coherent dev { s.setBuf b { s.buf b with
        dev := dev, blockno := n, valid := false, refcnt := 1#32 } with
      users := update s.users b (t ::ₘ s.users b) }
      (update pc t (.busy (.acquire n) b)) := by
  have hb := h.each b
  have habout : (pc t).about b = none := by rw [ht]; rfl
  -- no reference is left: nobody holds the buffer, waits for it or has pinned it
  have hrefs : s.refs b = 0 := by
    have hnat := congrArg BitVec.toNat (hb.refcnt.symm.trans hzero)
    rw [BitVec.toNat_ofNat, Nat.mod_eq_of_lt hb.bounded] at hnat
    exact hnat
  have husers : s.users b = 0 := by
    rw [Bcache.refs] at hrefs
    exact card_eq_zero.mp (by omega)
  have hpins : s.pins b = 0 := by
    rw [Bcache.refs] at hrefs
    omega
  have hlock : (s.buf b).lock = none := by
    cases hl : (s.buf b).lock with
    | none => rfl
    | some t' => exact absurd husers (hb.mem_users_of_lock hl)
  have hstages : ∀ t', (pc t').about b = none := by
    intro t'
    cases hst : (pc t').about b with
    | none => rfl
    | some st => exact absurd husers (hb.mem_users_of_stage hst)
  refine h.only b (fun b' hb' => Bcache.setBuf_buf_of_ne _ _ hb')
    (fun b' hb' => update_of_ne hb' ..) (fun _ _ => rfl) h.order
    (fun b' hb' => by rw [ht, BufPc.about_of_ne _ hb', BufPc.about_call]) ?_
    (fun b' hb' hd => ⟨fun _ => by simpa using hmiss b' hd, rfl, rfl⟩) fun n' hn' => ?_
  · refine ⟨?_, ?_, fun t' => ?_, fun _ => by simp, by simp, fun t' st hst => ?_, fun t' hl => ?_,
      by simp, by simp⟩
    · simp [Bcache.refs, Bcache.setBuf, husers, hpins]
    · simp [Bcache.refs, Bcache.setBuf, husers, hpins]
    · simp only [update_self, husers, Bcache.usersOf]
      by_cases hne : t' = t
      · simp [hne, hlock]
      · simp [hne, hlock, hstages]
    · by_cases hne : t' = t
      · rw [hne, update_self] at hst
        obtain rfl : BufStage.acquire n = st := by simpa using hst
        simp [Bcache.StageOk]
      · rw [update_of_ne hne, hstages] at hst
        cases hst
    · simp [hlock] at hl
  · change s.disk n' = s.store n'
    by_cases hold : (s.buf b).blockno = n' ∧ (s.buf b).valid = true
    · rw [← hold.1, hb.clean hold.2 hlock hpins]
      exact hb.contents hold.2
    · refine h.uncached n' fun b' hd hblk => ?_
      by_cases hb' : b' = b
      · rw [hb'] at hblk ⊢
        simpa [hblk] using hold
      · have := hn' b'
        simp only [Bcache.setBuf_buf_of_ne s _ hb'] at this
        exact this hd hblk

/-- `bget` finds the block, or takes a buffer without references. -/
theorem Coherent.bget (ht : pc t = .call (.bread n)) (hcount : s.Countable) :
    wp (bgetStep dev n t) (fun q s' => Coherent dev s' (update pc t q))
      (fun e => e = "bget: no buffers") s := by
  obtain ⟨xs, hxs, hperm⟩ := h.order
  have hlen : xs.length ≤ nbuf := by rw [hperm.length_eq, List.length_finRange]
  rw [bgetStep, wp_bind, wp_get, hxs.find_next _ hlen]
  cases hfound : xs.find? fun b => (s.buf b).dev == dev && (s.buf b).blockno == n with
  | some b =>
    obtain ⟨hdev, hn⟩ : (s.buf b).dev = dev ∧ (s.buf b).blockno = n := by
      simpa using List.find?_some hfound
    exact h.hit ht hcount hdev hn
  | none =>
    have hmiss : ∀ b', (s.buf b').dev = dev → (s.buf b').blockno ≠ n := by
      intro b' hd hn
      have := List.find?_eq_none.mp hfound b' (hperm.mem_iff.mpr (List.mem_finRange b'))
      simp [hd, hn] at this
    dsimp only
    rw [hxs.find_prev _ hlen]
    cases hfree : xs.reverse.find? fun b => (s.buf b).refcnt == 0#32 with
    | none => exact rfl
    | some b => exact h.recycle ht hmiss (by simpa using List.find?_some hfree)

end Moves

theorem Coherent.step {c c' : Config ι (Bcache ι) BufPc} (h : Coherent dev c.shared c.pc)
    (hdisc : c.shared.Disciplined t (c.pc t)) (hcount : c.shared.Countable)
    (hstep : (bufThreads dev).Step t c c') : Coherent dev c'.shared c'.pc := by
  refine hstep.maintains fun x hact => ?_
  generalize hpc : c.pc t = pc at hact hdisc
  cases hact with
  | call hout op => exact h.call (hpc ▸ hout) op
  | bget n => exact wp_mono (h.bget hpc hcount) (fun _ _ => id) fun _ _ => trivial
  | acquire => exact h.acquire hpc
  | valid => exact h.valid hpc
  | read => exact h.read hpc
  | fill => exact h.fill hpc
  | change => exact h.change hpc hdisc
  | bwrite => exact h.bwrite hpc
  | brelse => exact h.brelse hpc hdisc
  | release => exact h.release hpc
  | bpin => exact h.bpin hpc hcount
  | bunpin => exact h.bunpin hpc hdisc.1 hdisc.2

end Invariant

/-! ### Whole runs -/

section Runs

variable {ι : Type} [DecidableEq ι] {dev : ℕ} {disk : ℕ → Block}
  {c c' : Config ι (Bcache ι) BufPc} {t : ι}

omit [DecidableEq ι] in
theorem Bcache.binit_order (disk : ℕ → Block) :
    ((Bcache.zero disk).binit : Bcache ι).links.Order (List.finRange nbuf).reverse := by
  have hempty : ((⟨fun _ => none, fun _ => none⟩ : Circle (Fin nbuf)).setPrev none none).setNext
      none none |>.Order [] := ⟨List.nodup_nil, by simp [Circle.Path, Circle.setNext, Circle.setPrev]⟩
  have := hempty.foldl_push (List.nodup_finRange nbuf) fun _ _ => List.not_mem_nil
  rwa [List.append_nil] at this

theorem Bcache.coherent_boot (hdev : dev ≠ 0) (disk : ℕ → Block) :
    Coherent dev (Bcache.boot disk : Config ι (Bcache ι) BufPc).shared fun _ => .idle where
  order := ⟨_, Bcache.binit_order disk, List.reverse_perm _⟩
  unique _ _ h := absurd h hdev.symm
  uncached _ _ := rfl
  each b := by
    refine ⟨rfl, (Nat.two_pow_pos 32 : 0 < 2 ^ 32), fun t => rfl, fun h => absurd rfl h,
      nofun, fun t st h => absurd h (by simp), fun t h => ?_,
      nofun, nofun⟩
    nomatch h

/-- The block of a buffer. -/
def Bcache.block (s : Bcache ι) (b : Fin nbuf) : ℕ × ℕ := ((s.buf b).dev, (s.buf b).blockno)

omit [DecidableEq ι] in
theorem Bcache.setBuf_block (s : Bcache ι) {b : Fin nbuf} {x : Buf ι}
    (h : (x.dev, x.blockno) = s.block b) : (s.setBuf b x).block = s.block := by
  funext b'
  by_cases hb : b' = b
  · rw [hb, Bcache.block, setBuf_buf_self, h]
  · rw [Bcache.block, setBuf_buf_of_ne s x hb, Bcache.block]

/-- A buffer is given another block only when its count is 0. -/
theorem bufThreads.keeps_block (hstep : (bufThreads dev).Step t c c') {b : Fin nbuf}
    (hb : (c.shared.buf b).refcnt ≠ 0#32) : c'.shared.block b = c.shared.block b := by
  cases hstep with
  | @mk x q s' hact hrun =>
    suffices hw : wp x (fun _ s' => s'.block b = c.shared.block b) (fun _ => True) c.shared
      from (wp_of_ok hrun).mp hw
    have hset : ∀ (b' : Fin nbuf) (x : Buf ι), (x.dev, x.blockno) = c.shared.block b' →
        (c.shared.setBuf b' x).block b = c.shared.block b := fun b' x h =>
      congrFun (Bcache.setBuf_block _ h) b
    generalize c.pc t = pc at hact
    cases hact with
    | call => exact rfl
    | bget n =>
      rw [bgetStep, wp_bind, wp_get]
      split
      · trivial
      · exact hset _ _ rfl
      · split
        · trivial
        · trivial
        · next b' hfree =>
          have hne : b ≠ b' := by
            rintro rfl
            exact hb (by simpa using Circle.find_some hfree)
          change (_, _) = (_, _)
          rw [Bcache.setBuf_buf_of_ne _ _ hne]
    | acquire =>
      rw [acquireStep, wp_bind, wp_get]
      split
      · exact rfl
      · exact hset _ _ rfl
    | valid =>
      rw [validStep, wp_bind, wp_get]
      split_ifs <;> exact rfl
    | read | fill | change | bpin | bunpin => exact hset _ _ rfl
    | bwrite =>
      rw [bwriteStep, wp_bind, wp_get]
      split_ifs
      · exact rfl
      · trivial
    | brelse =>
      rw [brelseStep, wp_bind, wp_get]
      split_ifs
      · exact hset _ _ rfl
      · trivial
    | release =>
      rw [releaseStep, wp_bind, wp_modify, wp_bind, wp_get]
      split_ifs <;> exact hset _ _ rfl

theorem coherent_of_runs (hdev : dev ≠ 0) (hrun : (bufThreads dev).Runs (fun t c =>
    c.shared.Disciplined t (c.pc t) ∧ c.shared.Countable) (Bcache.boot disk) c) :
    Coherent dev c.shared c.pc :=
  hrun.invariant (I := fun c => Coherent dev c.shared c.pc) (Bcache.coherent_boot hdev disk)
    fun _ _ _ h hP hstep => h.step hP.1 hP.2 hstep

/-- A buffer that is held, waited for or pinned is counted. -/
theorem BufOk.counted {s : Bcache ι} {pc : ι → BufPc} {b : Fin nbuf} (h : BufOk dev s pc b)
    (href : (∃ t, (s.buf b).lock = some t) ∨ (∃ t n, pc t = .busy (.acquire n) b) ∨ 0 < s.pins b) :
    (s.buf b).refcnt ≠ 0#32 := by
  have hpos : s.refs b ≠ 0 := by
    rw [Bcache.refs]
    rcases href with ⟨t, ht⟩ | ⟨t, n, ht⟩ | hp
    · have := card_eq_zero.not.mpr (h.mem_users_of_lock ht)
      omega
    · have := card_eq_zero.not.mpr
        (h.mem_users_of_stage (t := t) (by rw [ht, BufPc.about_self]))
      omega
    · omega
  intro hzero
  have hnat := congrArg BitVec.toNat (h.refcnt.symm.trans hzero)
  rw [BitVec.toNat_ofNat, Nat.mod_eq_of_lt h.bounded] at hnat
  exact hpos hnat

omit [DecidableEq ι] in
/-- A miss takes the buffer at the end of the list. -/
theorem bgetStep_last {s : Bcache ι} {n : ℕ} (hxs : s.links.Order (List.finRange nbuf).reverse)
    (hmiss : ∀ b, (s.buf b).dev = dev → (s.buf b).blockno ≠ n)
    (hzero : (s.buf 0).refcnt = 0#32) :
    bgetStep dev n t s = .ok (.busy (.acquire n) 0, { s.setBuf 0 { s.buf 0 with
        dev := dev, blockno := n, valid := false, refcnt := 1#32 } with
      users := update s.users 0 (t ::ₘ s.users 0) }) := by
  have hlen : (List.finRange nbuf).reverse.length ≤ nbuf := by simp
  have hnone : (List.finRange nbuf).reverse.find?
      (fun b => (s.buf b).dev == dev && (s.buf b).blockno == n) = none := by
    rw [List.find?_eq_none]
    intro b _ hb
    obtain ⟨hd, hn⟩ : (s.buf b).dev = dev ∧ (s.buf b).blockno = n := by simpa using hb
    exact hmiss b hd hn
  have hlast : (List.finRange nbuf).reverse.reverse.find? (fun b => (s.buf b).refcnt == 0#32) =
      some 0 := by
    obtain ⟨xs, hcons⟩ : ∃ xs, List.finRange nbuf = 0 :: xs := List.head?_eq_some_iff.mp rfl
    rw [List.reverse_reverse, hcons, List.find?_cons_of_pos]
    simpa using hzero
  refine bind_ok_iff.mpr ⟨s, s, rfl, ?_⟩
  rw [hxs.find_next _ hlen, hnone]
  dsimp only
  rw [hxs.find_prev _ hlen, hlast]
  rfl

/-- **The buffer cache refines a block store.** In every interleaving the list is a circle through
all buffers; no two buffers have the same block of the device; a buffer that is held, waited for or
pinned has a positive count, and one with a positive count keeps its block; and a process to which
`bread` returned a buffer holds it and sees the last contents written to the block. -/
theorem bcache_refines_store (hdev : dev ≠ 0) (hrun : (bufThreads dev).Runs (fun t c =>
    c.shared.Disciplined t (c.pc t) ∧ c.shared.Countable) (Bcache.boot disk) c) :
    (∃ xs, c.shared.links.Order xs ∧ xs.Perm (List.finRange nbuf)) ∧
    (∀ b b', (c.shared.buf b).dev = dev → (c.shared.buf b').dev = dev →
      (c.shared.buf b).blockno = (c.shared.buf b').blockno → b = b') ∧
    (∀ b, ((∃ t, (c.shared.buf b).lock = some t) ∨ (∃ t n, c.pc t = .busy (.acquire n) b) ∨
        0 < c.shared.pins b → (c.shared.buf b).refcnt ≠ 0#32) ∧
      ((c.shared.buf b).refcnt ≠ 0#32 → ∀ t c', (bufThreads dev).Step t c c' →
        c'.shared.block b = c.shared.block b)) ∧
    ∀ t n b, c.pc t = .busy (.returned n) b → (c.shared.buf b).lock = some t ∧
      c.shared.block b = (dev, n) ∧ (c.shared.buf b).data = c.shared.store n := by
  have h := coherent_of_runs hdev hrun
  refine ⟨h.order, h.unique, fun b => ⟨(h.each b).counted, fun hb t c' hstep =>
    bufThreads.keeps_block hstep hb⟩, fun t n b ht => ?_⟩
  have hb := h.each b
  obtain ⟨hn, hlock, hv⟩ := hb.stage t (.returned n) (by rw [ht, BufPc.about_self])
  refine ⟨hlock, by rw [Bcache.block, hb.validDev hv, hn], ?_⟩
  rw [hb.contents hv, hn]

theorem bcache_refines_store_read : ∃ c : Config Bool (Bcache Bool) BufPc,
    (bufThreads 1).Runs (fun t c => c.shared.Disciplined t (c.pc t) ∧ c.shared.Countable)
      (Bcache.boot fun _ _ => 0) c ∧
    c.pc true = .busy (.returned 1) 0 ∧ (c.shared.buf 0).data = c.shared.store 1 := by
  let disk : ℕ → Block := fun _ _ => 0
  have hout : BufPc.idle.Outside := trivial
  have hact : bufThreads 1 true .idle _ := .call hout (.bread 1)
  have hzero : (Bcache.boot disk : Config Bool (Bcache Bool) BufPc).shared.Countable :=
    fun b => (by decide : 0 + 1 < 2 ^ 32)
  have hcall := Runs.snoc (P := fun t c => c.shared.Disciplined t (c.pc t) ∧
    c.shared.Countable) (c := Bcache.boot disk) .refl rfl hact ⟨trivial, hzero⟩ rfl
  have hget : bgetStep 1 1 true (Bcache.boot disk).shared = _ :=
    bgetStep_last (Bcache.binit_order disk) (fun b hb => absurd hb Nat.zero_ne_one) rfl
  have hgot := Runs.snoc hcall rfl (.bget true 1) ⟨trivial, hzero⟩ hget
  have hone : ∀ b, Multiset.card (update (fun _ : Fin nbuf => (0 : Multiset Bool)) 0 {true}
      b) + 0 + 1 < 2 ^ 32 := by
    intro b
    by_cases hb : b = 0
    · simp [hb]
    · simp [hb]
  have hlock := Runs.snoc hgot rfl (.acquire true 1 0) ⟨trivial, hone⟩ rfl
  have hmiss := Runs.snoc hlock rfl (.valid true 1 0) ⟨trivial, hone⟩ rfl
  have hread := Runs.snoc hmiss rfl (.read true 1 0) ⟨trivial, hone⟩ rfl
  have hdone := Runs.snoc hread rfl (.fill true 1 0) ⟨trivial, hone⟩ rfl
  exact ⟨_, hdone, rfl, ((bcache_refines_store (by decide) hdone).2.2.2 true 1 0 rfl).2.2⟩

/-! ### Too many pins -/

/-- Process `true` waits for block 1, and `false` has pinned its buffer `n` times. -/
structure Pinned (disk : ℕ → Block) (n : ℕ) (c : Config Bool (Bcache Bool) BufPc) :
    Prop where
  runs : (bufThreads 1).Runs (fun t c => c.shared.Disciplined t (c.pc t)) (Bcache.boot disk) c
  waits : c.pc true = .busy (.acquire 1) 0
  idle : c.pc false = .idle
  order : c.shared.links.Order (List.finRange nbuf).reverse
  block : c.shared.block 0 = (1, 1)
  others : ∀ b, b ≠ 0 → (c.shared.buf b).dev = 0
  refcnt : (c.shared.buf 0).refcnt = BitVec.ofNat 32 (n + 1)

theorem Pinned.zero (disk : ℕ → Block) : ∃ c, Pinned disk 0 c := by
  have hout : BufPc.idle.Outside := trivial
  have hact : bufThreads 1 true .idle _ := .call hout (.bread 1)
  have hcall := Runs.snoc (P := fun t c => c.shared.Disciplined t (c.pc t))
    (c := Bcache.boot disk) .refl rfl hact trivial rfl
  have hget : bgetStep 1 1 true (Bcache.boot disk).shared = _ :=
    bgetStep_last (Bcache.binit_order disk) (fun b hb => absurd hb Nat.zero_ne_one) rfl
  exact ⟨_, Runs.snoc hcall (Config.move_pc_self ..) (.bget true 1) trivial hget,
    Config.move_pc_self .., rfl, Bcache.binit_order disk, rfl, fun b hb =>
    congrArg Buf.dev (Bcache.setBuf_buf_of_ne _ _ hb), rfl⟩

theorem Pinned.succ {n : ℕ} {c : Config Bool (Bcache Bool) BufPc} (h : Pinned disk n c) :
    ∃ c', Pinned disk (n + 1) c' := by
  have hout : BufPc.idle.Outside := trivial
  have hcall := Runs.snoc h.runs h.idle (.call hout (.bpin 0)) (by rw [h.idle]; trivial) rfl
  refine ⟨_, Runs.snoc hcall (Config.move_pc_self ..) (.bpin false 0) trivial rfl,
    h.waits, Config.move_pc_self .., h.order, h.block, fun b hb => ?_, ?_⟩
  · exact (congrArg Buf.dev (Bcache.setBuf_buf_of_ne _ _ hb)).trans (h.others b hb)
  · refine (congrArg Buf.refcnt (Bcache.setBuf_buf_self ..)).trans ?_
    change (c.shared.buf 0).refcnt + 1#32 = _
    rw [h.refcnt, ← BitVec.ofNat_add]

/-- **Too many pins.** `2 ^ 32 - 1` pins of a buffer that a process waits for bring its count back
to 0, and the next miss takes it. -/
theorem pins_overflow : ¬∀ (ι : Type) (_ : DecidableEq ι) (dev : ℕ) (disk : ℕ → Block)
    (c c' : Config ι (Bcache ι) BufPc) (t t' : ι) (n : ℕ) (b : Fin nbuf), dev ≠ 0 →
    (bufThreads dev).Runs (fun t c => c.shared.Disciplined t (c.pc t)) (Bcache.boot disk) c →
    c.pc t = .busy (.acquire n) b → (bufThreads dev).Step t' c c' →
    c'.shared.block b = c.shared.block b := by
  intro hclaim
  have hpinned : ∀ n, ∃ c, Pinned (fun _ _ => 0) n c := by
    intro n
    induction n with
    | zero => exact Pinned.zero _
    | succ n ih =>
      obtain ⟨c, hc⟩ := ih
      exact hc.succ
  obtain ⟨c, hc⟩ := hpinned (2 ^ 32 - 1)
  have hout : BufPc.idle.Outside := trivial
  have hcall := Runs.snoc hc.runs hc.idle (.call hout (.bread 2)) (by rw [hc.idle]; trivial)
    rfl
  have hmiss : ∀ b, (c.shared.buf b).dev = 1 → (c.shared.buf b).blockno ≠ 2 := by
    intro b hb
    by_cases h0 : b = 0
    · have := congrArg Prod.snd hc.block
      rw [h0]
      exact fun heq => absurd (heq.symm.trans this) (by decide)
    · rw [hc.others b h0] at hb
      exact absurd hb (by decide)
  have hget := bgetStep_last (t := false) hc.order hmiss (hc.refcnt.trans rfl)
  have hstep : (bufThreads 1).Step false (c.move false (.call (.bread 2)) c.shared) _ :=
    .mk (Config.move_pc_self c false _ _ ▸ .bget false 2) hget
  have hsame := hclaim Bool inferInstance 1 _ _ _ true false 1 0 (by decide) hcall hc.waits hstep
  exact (by decide : (2 : ℕ) ≠ 1) (congrArg Prod.snd (hsame.trans hc.block))

end Runs

end Xv6
