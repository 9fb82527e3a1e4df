import Xv6.Lib.Ledger
import Xv6.Log
import Mathlib.Algebra.Order.BigOperators.Group.Finset
import Mathlib.Tactic.FinCases

/-!
# Admission to the log

`begin_op` admits an operation while `lh.n + (outstanding + 1) * MAXOPBLOCKS` is at most
`LOGBLOCKS`. So an operation that logs at most `MAXOPBLOCKS` different blocks always finds room for
a block that is not in the log yet: what the operations in progress may still add and what is there
already fit together (`Admitted`).

At the full log this is not enough. `log_write` compares `lh.n` with `LOGBLOCKS` before it looks
whether the block is there already, so it stops the machine when it would only have to absorb the
block. And the commit of a full log pins `LOGBLOCKS` buffers, which are all there are, so that no
buffer is left for the blocks of the log. Below `LOGBLOCKS` blocks neither happens.
-/

namespace Xv6

open Threads Prog Function

section Admitted

variable {ι : Type} [DecidableEq ι] {start : ℕ} {t : ι} {s s' : Journal ι} {pc : ι → LogPc}
  {q : LogPc} {c c' : Config ι (Journal ι) LogPc}

/-- An operation logs at most `MAXOPBLOCKS` different blocks. -/
def Modest (logged : Finset ℕ) : Prop := logged.card ≤ maxopblocks

/-- The blocks that the current operation has logged. -/
def LogPc.logged : LogPc → Finset ℕ
  | op logged _ => logged
  | _ => ∅

/-- **What is in the log and what may still come fits.** -/
structure Admitted (s : Journal ι) (pc : ι → LogPc) : Prop where
  nodup : s.lh.Nodup
  room : s.lh.length + maxopblocks * s.ops.card ≤ logblocks + ∑ t ∈ s.ops, (pc t).logged.card
  modest : ∀ t, (pc t).logged.card ≤ maxopblocks
  logged : ∀ t, ∀ n ∈ (pc t).logged, n ∈ s.lh

section

variable (h : Admitted s pc)
include h

omit [DecidableEq ι] in
theorem Admitted.length_le : s.lh.length ≤ logblocks := by
  have hroom := h.room
  have hsum : ∑ t ∈ s.ops, (pc t).logged.card ≤ s.ops.card * maxopblocks :=
    Finset.sum_le_card_nsmul _ _ _ fun t _ => h.modest t
  rw [mul_comm] at hsum
  omega

omit [DecidableEq ι] in
/-- It is not full when an operation logs a block that is not in it. -/
theorem Admitted.length_lt (ht : t ∈ s.ops) {n : ℕ} (hn : n ∉ s.lh)
    (hmodest : Modest (insert n (pc t).logged)) : s.lh.length < logblocks := by
  have hroom := h.room
  have hnew : n ∉ (pc t).logged := fun hmem => hn (h.logged t n hmem)
  rw [Modest, Finset.card_insert_of_notMem hnew] at hmodest
  have hsum : ∑ t ∈ s.ops, (pc t).logged.card < ∑ _t ∈ s.ops, maxopblocks :=
    Finset.sum_lt_sum (fun t _ => h.modest t) ⟨t, ht, hmodest⟩
  rw [Finset.sum_const, smul_eq_mul, mul_comm] at hsum
  omega

theorem Admitted.move (hops : s'.ops = s.ops) (hlh : s'.lh = s.lh)
    (hq : q.logged = (pc t).logged) : Admitted s' (update pc t q) := by
  have hsame : ∀ t', (update pc t q t').logged = (pc t').logged := fun t' => by
    by_cases hne : t' = t
    · rw [hne, update_self, hq]
    · rw [update_of_ne hne]
  refine ⟨hlh ▸ h.nodup, ?_, fun t' => ?_, fun t' n hn => ?_⟩
  · simp only [hlh, hops, hsame]
    exact h.room
  · rw [hsame]
    exact h.modest t'
  · rw [hsame] at hn
    rw [hlh]
    exact h.logged t' n hn

theorem Admitted.write (ht : t ∈ s.ops) {n : ℕ}
    (hmodest : Modest (insert n (pc t).logged)) (hq : q.logged = insert n (pc t).logged) :
    Admitted { s with lh := if n ∈ s.lh then s.lh else s.lh ++ [n] } (update pc t q) := by
  have hmem : ∀ m, m ∈ s.lh → m ∈ if n ∈ s.lh then s.lh else s.lh ++ [n] := fun m hm => by
    split_ifs
    · exact hm
    · exact List.mem_append_left _ hm
  have hself : n ∈ if n ∈ s.lh then s.lh else s.lh ++ [n] := by
    split_ifs with hn
    · exact hn
    · simp
  have hsum : ∑ t' ∈ s.ops, (update pc t q t').logged.card + (pc t).logged.card =
      ∑ t' ∈ s.ops, (pc t').logged.card + (insert n (pc t).logged).card := by
    have := Ledger.sum_add_eq_of_agree (f := fun t' => (update pc t q t').logged.card)
      (g := fun t' => (pc t').logged.card) ht fun t' _ hne => by rw [update_of_ne hne]
    rwa [update_self, hq] at this
  refine ⟨?_, ?_, fun t' => ?_, fun t' m hm => ?_⟩
  · by_cases hn : n ∈ s.lh
    · simpa [hn] using h.nodup
    · simpa [hn, List.nodup_append] using ⟨h.nodup, fun a ha heq => hn (heq ▸ ha)⟩
  · have hroom := h.room
    by_cases hn : n ∈ s.lh
    · have := Finset.card_le_card (Finset.subset_insert n (pc t).logged)
      simp only [hn, if_true]
      omega
    · have hnew : n ∉ (pc t).logged := fun hmem => hn (h.logged t n hmem)
      rw [Finset.card_insert_of_notMem hnew] at hsum
      simp only [hn, if_false, List.length_append, List.length_singleton]
      omega
  · by_cases hne : t' = t
    · rw [hne, update_self, hq]
      exact hmodest
    · rw [update_of_ne hne]
      exact h.modest t'
  · by_cases hne : t' = t
    · rw [hne, update_self, hq, Finset.mem_insert] at hm
      rcases hm with rfl | hm
      · exact hself
      · exact hmem m (h.logged t m hm)
    · rw [update_of_ne hne] at hm
      exact hmem m (h.logged t' m hm)

/-- `begin_op` reserves room for a whole operation. -/
theorem Admitted.begin (hc : Control s pc) (ht : pc t = .begin) :
    wp (beginOp t) (fun q s' => Admitted s' (update pc t q)) (fun _ => False) s := by
  rw [beginOp, wp_bind, wp_get]
  have hstay : Admitted s (update pc t .begin) := h.move rfl rfl (by rw [ht])
  split_ifs with hcom hfull
  · exact hstay
  · exact hstay
  · have hnot : t ∉ s.ops := by
      rw [hc.ops, ht]
      exact Bool.false_ne_true
    have hopen : Admitted s (update pc t (.op ∅ ∅)) :=
      h.move rfl rfl (by rw [ht]; rfl)
    refine ⟨h.nodup, ?_, hopen.modest, hopen.logged⟩
    rw [hc.outstanding, not_lt] at hfull
    have hroom : s.lh.length + (s.ops.card + 1) * maxopblocks ≤ logblocks := by
      exact_mod_cast hfull
    rw [mul_comm] at hroom
    simp only [Finset.card_insert_of_notMem hnot]
    omega

/-- An operation that ends gives back what it did not use. -/
theorem Admitted.endOp (hc : Control s pc) (ht : (pc t).inOp = true) :
    wp (endOp t) (fun q s' => Admitted s' (update pc t q)) (fun _ => True) s := by
  have hmem : t ∈ s.ops := (hc.ops t).mpr ht
  have hcard : (s.ops.erase t).card + 1 = s.ops.card := Finset.card_erase_add_one hmem
  have hdone : ∀ (q : LogPc) (s' : Journal ι), q.logged = ∅ → s'.lh = s.lh →
      s'.ops = s.ops.erase t → Admitted s' (update pc t q) := by
    intro q s' hq hlh hops
    refine ⟨hlh ▸ h.nodup, ?_, fun t' => ?_, fun t' n hn => ?_⟩
    · have hroom := h.room
      have hmodest := h.modest t
      rw [← Finset.add_sum_erase _ _ hmem] at hroom
      have hsum : ∑ t' ∈ s.ops.erase t, (update pc t q t').logged.card =
          ∑ t' ∈ s.ops.erase t, (pc t').logged.card := Finset.sum_congr rfl fun t' ht' => by
        rw [update_of_ne (Finset.ne_of_mem_erase ht')]
      rw [hlh, hops, hsum]
      rw [← hcard, Nat.mul_succ] at hroom
      omega
    · by_cases hne : t' = t
      · simp [hne, hq]
      · rw [update_of_ne hne]
        exact h.modest t'
    · by_cases hne : t' = t
      · simp [hne, hq] at hn
      · rw [update_of_ne hne] at hn
        rw [hlh]
        exact h.logged t' n hn
  rw [Xv6.endOp, wp_bind, wp_modify, wp_bind, wp_get]
  split_ifs
  · trivial
  · exact hdone _ _ rfl rfl rfl
  · exact hdone _ _ rfl rfl rfl

/-- A commit empties the log while nobody is in an operation. -/
theorem Admitted.commit (hc : Control s pc) {stage : CommitStage}
    (ht : pc t = .commit stage) :
    wp (commitStep start stage) (fun q s' => Admitted s' (update pc t q))
      (fun _ => True) s := by
  have hnone : s.ops = ∅ := hc.exclusive (hc.committing.mpr ⟨t, by rw [ht]; rfl⟩)
  have hgo : ∀ (s' : Journal ι) (q : LogPc), q.logged = ∅ → s'.ops = s.ops → s'.lh = s.lh →
      Admitted s' (update pc t q) := fun s' q hq hops hlh =>
    h.move hops hlh (by rw [hq, ht]; rfl)
  have hidle : ∀ t', (pc t').logged = ∅ := fun t' => by
    have hnot : (pc t').inOp ≠ true := fun hin => by
      have := (hc.ops t').mpr hin
      rw [hnone] at this
      exact Finset.notMem_empty t' this
    cases hp : pc t' with
    | op logged changed => simp [hp] at hnot
    | _ => rfl
  cases stage with
  | test =>
    rw [commitStep, wp_bind, wp_get]
    split_ifs <;> exact hgo _ _ rfl rfl rfl
  | writeLog tail =>
    rw [commitStep, wp_bind, wp_get]
    split <;> exact hgo _ _ rfl rfl rfl
  | install tail =>
    rw [commitStep, wp_bind, wp_get]
    split
    · exact hgo _ _ rfl rfl rfl
    · have hmove := hgo s (.commit .erase) rfl rfl rfl
      refine ⟨List.nodup_nil, ?_, hmove.modest, fun t' n hn => ?_⟩
      · simp [hnone]
      · by_cases hne : t' = t
        · rw [hne, update_self] at hn
          exact absurd hn (Finset.notMem_empty n)
        · rw [update_of_ne hne, hidle] at hn
          exact absurd hn (Finset.notMem_empty n)
  | writeHead | erase | finish => exact hgo _ _ rfl rfl rfl

end

theorem Admitted.step (h : Admitted c.shared c.pc) (hc : Control c.shared c.pc)
    (hstep : (logThreads start Modest).Step t c c') : Admitted c'.shared c'.pc := by
  refine hstep.maintains fun x hact => ?_
  generalize hpc : c.pc t = pc at hact
  cases hact with
  | enter | change => exact h.move rfl rfl (by rw [hpc]; rfl)
  | begin => exact wp_mono (h.begin hc hpc) (fun _ _ => id) fun _ _ => trivial
  | @write _ _ _ n hn hfits =>
    have hin : (c.pc t).inOp = true := by
      rw [hpc]
      rfl
    rw [Maintains, wp_bind]
    refine wp_logWrite (hc.one_le hin) (fun _ => trivial) fun _ => ?_
    exact h.write ((hc.ops t).mpr hin) (by rw [hpc]; exact hfits) (by rw [hpc]; rfl)
  | endOp => exact h.endOp hc (by rw [hpc]; rfl)
  | commit => exact h.commit hc hpc

end Admitted

/-! ### Buffers for a commit -/

section Buffers

variable {κ : Type} {dev : ℕ} {b : Bcache κ} {pcs : κ → BufPc} {lh : List ℕ}

/-- Every block of the log is in the cache, and only the buffers of these blocks are referenced. -/
structure OnlyPinned (dev : ℕ) (b : Bcache κ) (lh : List ℕ) : Prop where
  pinned : ∀ n ∈ lh, ∃ i, (b.buf i).dev = dev ∧ (b.buf i).blockno = n ∧ (b.buf i).refcnt ≠ 0#32
  only : ∀ i, (b.buf i).refcnt ≠ 0#32 → (b.buf i).dev = dev ∧ (b.buf i).blockno ∈ lh

/-- As many buffers are referenced as there are blocks in the log. -/
theorem OnlyPinned.card_eq (h : OnlyPinned dev b lh) (hnodup : lh.Nodup)
    (hunique : ∀ i j, (b.buf i).dev = dev → (b.buf j).dev = dev →
      (b.buf i).blockno = (b.buf j).blockno → i = j) :
    (Finset.univ.filter fun i => (b.buf i).refcnt ≠ 0#32).card = lh.length := by
  rw [← List.toFinset_card_of_nodup hnodup]
  refine Finset.card_bij (fun i _ => (b.buf i).blockno) (fun i hi => ?_) (fun i hi j hj heq => ?_)
    fun n hn => ?_
  · rw [List.mem_toFinset]
    exact (h.only i (Finset.mem_filter.mp hi).2).2
  · exact hunique i j (h.only i (Finset.mem_filter.mp hi).2).1
      (h.only j (Finset.mem_filter.mp hj).2).1 heq
  · obtain ⟨i, -, hblk, hi⟩ := h.pinned n (List.mem_toFinset.mp hn)
    exact ⟨i, Finset.mem_filter.mpr ⟨Finset.mem_univ i, hi⟩, hblk⟩

variable [DecidableEq κ]

/-- `bget` fails exactly when the block is not cached and every buffer is referenced. -/
theorem bget_ok_iff (h : Coherent dev b pcs) (n : ℕ) (me : κ) :
    (∃ r, bgetStep dev n me b = .ok r) ↔
      (∃ i, (b.buf i).dev = dev ∧ (b.buf i).blockno = n) ∨ ∃ i, (b.buf i).refcnt = 0#32 := by
  obtain ⟨xs, hxs, hperm⟩ := h.order
  have hlen : xs.length ≤ nbuf := by rw [hperm.length_eq, List.length_finRange]
  have hmem : ∀ i, i ∈ xs := fun i => hperm.mem_iff.mpr (List.mem_finRange i)
  have hspec : wp (bgetStep dev n me)
      (fun _ _ => (∃ i, (b.buf i).dev = dev ∧ (b.buf i).blockno = n) ∨
        ∃ i, (b.buf i).refcnt = 0#32)
      (fun _ => ¬((∃ i, (b.buf i).dev = dev ∧ (b.buf i).blockno = n) ∨
        ∃ i, (b.buf i).refcnt = 0#32)) b := by
    rw [bgetStep, wp_bind, wp_get, hxs.find_next _ hlen]
    cases hfound : xs.find? fun i => (b.buf i).dev == dev && (b.buf i).blockno == n with
    | some i => exact Or.inl ⟨i, by simpa using List.find?_some hfound⟩
    | none =>
      dsimp only
      rw [hxs.find_prev _ hlen]
      cases hfree : xs.reverse.find? fun i => (b.buf i).refcnt == 0#32 with
      | some i => exact Or.inr ⟨i, by simpa using List.find?_some hfree⟩
      | none =>
        rintro (⟨i, hd, hn⟩ | ⟨i, hi⟩)
        · have := List.find?_eq_none.mp hfound i (hmem i)
          simp [hd, hn] at this
        · have := List.find?_eq_none.mp hfree i (List.mem_reverse.mpr (hmem i))
          simp [hi] at this
  constructor
  · rintro ⟨⟨q, b'⟩, hrun⟩
    exact (wp_of_ok hrun).mp hspec
  · intro hfree
    obtain ⟨q, b', hrun, -⟩ := exists_of_wp
      (wp_mono hspec (fun _ _ => id) fun _ hno => hno hfree)
    exact ⟨_, hrun⟩

/-- **A buffer for a block of the log.** If only the blocks of the log are referenced, `bget` of
another block finds a buffer unless there are as many of them as buffers. -/
theorem bget_of_pinned (h : Coherent dev b pcs) (hpin : OnlyPinned dev b lh) (hnodup : lh.Nodup)
    {n : ℕ} (hn : n ∉ lh) (me : κ) :
    (∃ r, bgetStep dev n me b = .ok r) ↔ lh.length < nbuf := by
  have hcard := hpin.card_eq hnodup h.unique
  have hall : (Finset.univ : Finset (Fin nbuf)).card = nbuf := Finset.card_fin nbuf
  rw [bget_ok_iff h, ← hcard]
  constructor
  · intro hfree
    refine lt_of_lt_of_eq (Finset.card_lt_card (Finset.filter_ssubset.mpr ?_)) hall
    rcases hfree with ⟨i, hd, hblk⟩ | ⟨i, hi⟩
    · refine ⟨i, Finset.mem_univ i, fun hi => hn ?_⟩
      rw [← hblk]
      exact (hpin.only i hi).2
    · exact ⟨i, Finset.mem_univ i, fun hne => hne hi⟩
  · intro hlt
    by_contra hnone
    have hfull : (Finset.univ.filter fun i => (b.buf i).refcnt ≠ 0#32) = Finset.univ := by
      rw [Finset.filter_eq_self]
      exact fun i _ hi => hnone (Or.inr ⟨i, hi⟩)
    rw [hfull, hall] at hlt
    exact lt_irrefl _ hlt

end Buffers

/-! ### Whole runs -/

section Runs

variable {ι : Type} [DecidableEq ι] {start : ℕ} {disk : ℕ → Block}
  {c : Config ι (Journal ι) LogPc}

/-- The log after recovery, before the first operation. -/
def Journal.fresh (disk : ℕ → Block) : Config ι (Journal ι) LogPc where
  shared := ⟨0, false, [], disk, disk, ∅, [], 0, 0⟩
  pc _ := .idle

omit [DecidableEq ι] in
theorem Journal.control_fresh (disk : ℕ → Block) :
    Control (Journal.fresh disk : Config ι (Journal ι) LogPc).shared fun _ => .idle where
  ops t := by simp [Journal.fresh]
  outstanding := rfl
  committing := by simp [Journal.fresh]
  sole _ _ h := nomatch h
  exclusive _ := rfl

theorem admitted_of_runs
    (hrun : (logThreads start Modest).Runs (fun _ _ => True) (Journal.fresh disk) c) :
    Control c.shared c.pc ∧ Admitted c.shared c.pc := by
  refine hrun.invariant (I := fun c => Control c.shared c.pc ∧ Admitted c.shared c.pc)
    ⟨Journal.control_fresh disk, ?_⟩ fun _ _ _ h _ hstep => ⟨h.1.step hstep, h.2.step h.1 hstep⟩
  exact ⟨List.nodup_nil, Nat.zero_le _, fun _ => Nat.zero_le _, fun _ n hn =>
    absurd hn (Finset.notMem_empty n)⟩

theorem runs_beginOp {c₀ : Config ι (Journal ι) LogPc} {t : ι}
    (hruns : (logThreads start Modest).Runs (fun _ _ => True) c₀ c) (hpc : c.pc t = .idle)
    (hcom : c.shared.committing = false)
    (hroom : ¬(c.shared.lh.length : ℤ) + (c.shared.outstanding + 1) * maxopblocks > logblocks) :
    (logThreads start Modest).Runs (fun _ _ => True) c₀ (c.move t (.op ∅ ∅)
      { c.shared with outstanding := c.shared.outstanding + 1, ops := insert t c.shared.ops }) := by
  have henter := Runs.snoc hruns hpc (.enter t) trivial rfl
  have hbegin := Runs.snoc henter (c.move_pc_self ..) (.begin t) trivial
    (bind_ok_iff.mpr ⟨_, _, rfl, by
      rw [Config.move_shared, hcom, if_neg Bool.false_ne_true, if_neg hroom]
      rfl⟩)
  rwa [Config.move_move] at hbegin

/-- A process in an operation logs some blocks that are not in the log. -/
theorem runs_logWrite {c₀ : Config ι (Journal ι) LogPc} {t : ι} (ns : List ℕ) :
    ∀ {c : Config ι (Journal ι) LogPc} {logged : Finset ℕ},
    (logThreads start Modest).Runs (fun _ _ => True) c₀ c → c.pc t = .op logged ∅ →
    1 ≤ c.shared.outstanding → (∀ n ∈ ns, Home start n) → (c.shared.lh ++ ns).Nodup →
    (c.shared.lh ++ ns).length ≤ logblocks → logged.card + ns.length ≤ maxopblocks →
    ∃ c' logged', (logThreads start Modest).Runs (fun _ _ => True) c₀ c' ∧
      c'.shared.lh = c.shared.lh ++ ns ∧ c'.shared.outstanding = c.shared.outstanding ∧
      c'.pc t = .op logged' ∅ ∧ (∀ t', t' ≠ t → c'.pc t' = c.pc t') ∧
      logged ⊆ logged' ∧ ∀ n ∈ ns, n ∈ logged' := by
  induction ns with
  | nil =>
    intro c logged hruns hpc _ _ _ _ _
    exact ⟨c, logged, hruns, (List.append_nil _).symm, rfl, hpc, fun _ _ => rfl, subset_rfl,
      fun n hn => absurd hn List.not_mem_nil⟩
  | cons n ns ih =>
    intro c logged hruns hpc hout hhome hnodup hlen hcard
    have hn : n ∉ c.shared.lh := fun hmem =>
      (List.nodup_append.mp hnodup).2.2 n hmem n List.mem_cons_self rfl
    have hgrow := Finset.card_insert_le n logged
    rw [List.length_cons] at hcard
    have hmodest : Modest (insert n logged) := by
      rw [Modest]
      omega
    have hlt : ¬c.shared.lh.length ≥ logblocks := by
      rw [List.length_append, List.length_cons] at hlen
      omega
    have hwrite := Runs.snoc hruns hpc
      (.write t logged ∅ (hhome n List.mem_cons_self) hmodest) trivial
      (bind_ok_iff.mpr ⟨(), { c.shared with lh := c.shared.lh ++ [n] },
        bind_ok_iff.mpr ⟨_, _, rfl, by
          rw [if_neg hlt, if_neg (not_lt.mpr hout)]
          change Except.ok _ = _
          simp only [if_neg hn]⟩, rfl⟩)
    obtain ⟨c', logged', hdone, hlh, hout', hpc', hother, hsub, hmem⟩ := ih hwrite
      (c.move_pc_self ..) hout (fun m hm => hhome m (List.mem_cons_of_mem _ hm))
      (by simpa using hnodup) (by simpa using hlen) (by omega)
    refine ⟨c', logged', hdone, by simpa using hlh, hout', hpc', fun t' ht' => ?_,
      (Finset.subset_insert n logged).trans hsub, fun m hm => ?_⟩
    · rw [hother t' ht', c.move_pc_of_ne _ _ ht']
    · rcases List.mem_cons.mp hm with rfl | hm
      · exact hsub (Finset.mem_insert_self m logged)
      · exact hmem m hm

/-- **What admission guarantees.** In every interleaving of operations that log at most
`MAXOPBLOCKS` different blocks each, `log_write` succeeds exactly when the log is not full, and for
a block that is not in the log it always does; `end_op` never fails; a commit excludes operations;
the log has at most `LOGBLOCKS` different blocks; and with those of them pinned that have not been
installed yet, and nothing else referenced, a commit finds a buffer for any other block exactly when
they are fewer than `LOGBLOCKS`. -/
theorem log_admission
    (hrun : (logThreads start Modest).Runs (fun _ _ => True) (Journal.fresh disk) c) :
    (∀ t logged changed n, c.pc t = .op logged changed → Modest (insert n logged) →
      ((∃ s', logWrite n c.shared = .ok ((), s')) ↔ c.shared.lh.length < logblocks) ∧
      (n ∉ c.shared.lh → c.shared.lh.length < logblocks)) ∧
    (∀ t logged changed, c.pc t = .op logged changed → ∃ r, endOp t c.shared = .ok r) ∧
    (c.shared.committing = true → c.shared.outstanding = 0) ∧
    (c.shared.lh.length ≤ logblocks ∧ c.shared.lh.Nodup) ∧
    ∀ (κ : Type) [DecidableEq κ] (dev : ℕ) (b : Bcache κ) (pcs : κ → BufPc) (me : κ) (n : ℕ),
      Coherent dev b pcs →
      (∀ pinned, pinned.Sublist c.shared.lh → n ∉ pinned → OnlyPinned dev b pinned →
        ((∃ r, bgetStep dev n me b = .ok r) ↔ pinned.length < logblocks)) ∧
      ((∃ i, (b.buf i).dev = dev ∧ (b.buf i).blockno = n) → ∃ r, bgetStep dev n me b = .ok r) := by
  obtain ⟨hc, h⟩ := admitted_of_runs hrun
  refine ⟨fun t logged changed n ht hmodest => ⟨?_, fun hn => ?_⟩, fun t logged changed ht => ?_,
    fun hcom => ?_, ⟨h.length_le, h.nodup⟩, fun κ _ dev b pcs me n hb =>
    ⟨fun pinned hsub hn hpin => ?_, fun hcached => (bget_ok_iff hb n me).mpr (Or.inl hcached)⟩⟩
  · have hone : 1 ≤ c.shared.outstanding := hc.one_le (by rw [ht]; rfl)
    have hspec : wp (logWrite n) (fun _ _ => c.shared.lh.length < logblocks)
        (fun _ => logblocks ≤ c.shared.lh.length) c.shared := wp_logWrite hone id id
    constructor
    · rintro ⟨s', hs'⟩
      exact (wp_of_ok hs').mp hspec
    · intro hlt
      obtain ⟨_, s', hs', -⟩ := exists_of_wp
        (wp_mono hspec (fun _ _ => id) fun _ hge => absurd hlt (Nat.not_lt.mpr hge))
      exact ⟨s', hs'⟩
  · have hin : t ∈ c.shared.ops := (hc.ops t).mpr (by rw [ht]; rfl)
    exact h.length_lt hin hn (by rw [ht]; exact hmodest)
  · obtain ⟨q, s', hs', -⟩ := exists_of_wp (hc.endOp ht)
    exact ⟨_, hs'⟩
  · rw [hc.outstanding, hc.exclusive hcom]
    rfl
  · exact bget_of_pinned hb hpin (h.nodup.sublist hsub) hn me

/-- Ten blocks for each of three operations. -/
def tenBlocks (k : ℕ) : List ℕ := (List.range 10).map (100 + 10 * k + ·)

theorem home_tenBlocks {k : ℕ} (hk : k < 3) : ∀ n ∈ tenBlocks k, Home 2 n := by
  intro n hn
  obtain ⟨i, hi, rfl⟩ := List.mem_map.mp hn
  rw [List.mem_range] at hi
  rw [Home, logblocks, maxopblocks]
  omega

theorem log_admission_ten : ∃ (c : Config Unit (Journal Unit) LogPc) (logged : Finset ℕ),
    (logThreads 2 Modest).Runs (fun _ _ => True) (Journal.fresh fun _ _ => 0) c ∧
    c.pc () = .op logged ∅ ∧ c.shared.lh = tenBlocks 0 ∧
    (∃ s', logWrite 100 c.shared = .ok ((), s')) ∧
    (c.shared.lh.length ≤ logblocks ∧ c.shared.lh.Nodup) := by
  have hstart : (logThreads 2 Modest).Runs (fun _ _ => True) (Journal.fresh fun _ _ => 0)
      (Journal.fresh fun _ _ => 0 : Config Unit (Journal Unit) LogPc) := .refl
  have hbegin := runs_beginOp (t := ()) hstart rfl rfl (by decide)
  obtain ⟨c, logged, hruns, hlh, -, hpc, -, -, hmem⟩ := runs_logWrite (tenBlocks 0) hbegin
    (Config.move_pc_self ..) (by decide) (home_tenBlocks (by decide)) (by decide) (by decide)
    (by decide)
  have hmodest : Modest (insert 100 logged) := by
    have hsame : (c.pc ()).logged = logged := by rw [hpc]; rfl
    rw [Finset.insert_eq_of_mem (hmem 100 (by decide)), ← hsame]
    exact (admitted_of_runs hruns).2.modest ()
  obtain ⟨hwrite, -, -, hsize, -⟩ := log_admission hruns
  have hlh' : c.shared.lh = tenBlocks 0 := hlh
  refine ⟨c, logged, hruns, hpc, hlh', (hwrite () logged ∅ 100 hpc hmodest).1.mpr ?_, hsize⟩
  rw [hlh']
  decide

/-- **A full log stops the machine.** Three operations may log ten blocks each. When one of them
then logs a block that it has logged already, `log_write` panics. -/
theorem full_log_panics : ¬∀ (ι : Type) (_ : DecidableEq ι) (start : ℕ) (disk : ℕ → Block)
    (c : Config ι (Journal ι) LogPc) (t : ι) (logged changed : Finset ℕ) (n : ℕ),
    (logThreads start Modest).Runs (fun _ _ => True) (Journal.fresh disk) c →
    c.pc t = .op logged changed → Home start n → Modest (insert n logged) →
    ∃ s', logWrite n c.shared = .ok ((), s') := by
  intro hclaim
  obtain ⟨c₃, h₃, hlh₃, hout₃, hpc₃⟩ : ∃ c : Config (Fin 3) (Journal (Fin 3)) LogPc,
      (logThreads 2 Modest).Runs (fun _ _ => True) (Journal.fresh fun _ _ => 0) c ∧
      c.shared.lh = [] ∧ c.shared.outstanding = 3 ∧ ∀ t, c.pc t = .op ∅ ∅ := by
    have h₀ : (logThreads 2 Modest).Runs (fun _ _ => True) (Journal.fresh fun _ _ => 0)
        (Journal.fresh fun _ _ => 0 : Config (Fin 3) (Journal (Fin 3)) LogPc) := .refl
    have h₁ := runs_beginOp (t := 0) h₀ rfl rfl (by decide)
    have h₂ := runs_beginOp (t := 1) h₁ rfl rfl (by decide)
    have h₃ := runs_beginOp (t := 2) h₂ rfl rfl (by decide)
    refine ⟨_, h₃, rfl, rfl, fun t => ?_⟩
    fin_cases t <;> rfl
  obtain ⟨c₄, l₀, h₄, hlh₄, hout₄, -, hother₄, -, -⟩ := runs_logWrite (tenBlocks 0) h₃ (hpc₃ 0)
    (by rw [hout₃]; decide) (home_tenBlocks (by decide)) (by rw [hlh₃]; decide)
    (by rw [hlh₃]; decide) (by decide)
  obtain ⟨c₅, l₁, h₅, hlh₅, hout₅, -, hother₅, -, -⟩ := runs_logWrite (tenBlocks 1) h₄
    ((hother₄ 1 (by decide)).trans (hpc₃ 1)) (by rw [hout₄, hout₃]; decide)
    (home_tenBlocks (by decide)) (by rw [hlh₄, hlh₃]; decide) (by rw [hlh₄, hlh₃]; decide)
    (by decide)
  obtain ⟨c₆, l₂, h₆, hlh₆, -, hpc₆, -, -, hmem⟩ := runs_logWrite (tenBlocks 2) h₅
    ((hother₅ 2 (by decide)).trans ((hother₄ 2 (by decide)).trans (hpc₃ 2)))
    (by rw [hout₅, hout₄, hout₃]; decide) (home_tenBlocks (by decide))
    (by rw [hlh₅, hlh₄, hlh₃]; decide) (by rw [hlh₅, hlh₄, hlh₃]; decide) (by decide)
  have hold : 120 ∈ tenBlocks 2 := by decide
  have hmodest : Modest (insert 120 l₂) := by
    have hsame : (c₆.pc 2).logged = l₂ := by rw [hpc₆]; rfl
    rw [Finset.insert_eq_of_mem (hmem 120 hold), ← hsame]
    exact (admitted_of_runs h₆).2.modest 2
  have hhome : Home 2 120 := home_tenBlocks (by decide) 120 hold
  have hfull := (admitted_of_runs h₆).1.one_le (t := 2) (by rw [hpc₆]; rfl)
  obtain ⟨s', hs'⟩ := hclaim (Fin 3) inferInstance 2 _ c₆ 2 l₂ ∅ 120 h₆ hpc₆ hhome hmodest
  have hspec : wp (logWrite 120) (fun _ _ => c₆.shared.lh.length < logblocks) (fun _ => True)
      c₆.shared := wp_logWrite hfull (fun _ => trivial) id
  have hlt := (wp_of_ok hs').mp hspec
  rw [hlh₆, hlh₅, hlh₄, hlh₃] at hlt
  exact absurd hlt (by decide)

end Runs

end Xv6
