import CowPaging.Log

/-!
# Crash atomicity of the log

A crash may fall between any two sector writes, in a commit or in a recovery. The
disk is then *sealed* by some header: the header block lists blocks outside the log,
the log holds what these blocks should contain, and every other block outside the log
contains it already. With an empty header nothing is left to do. Writing log blocks
under an empty header, writing the header over a complete log, and installing blocks
keep the disk sealed, so that recovery ends with the contents after the committed
groups, however often it is interrupted.

All of this needs the log copies to lie inside the log. `log_write` tests the length
of the header before it takes `log.lock`; when two calls pass the test together, the
second writes past the last log block.
-/

namespace CowPaging

open Bytes SlotTable
open Function (update_of_ne update_self update_eq_self update)

/-! ### Histories -/

/-- The contents after the updates, oldest first. -/
def applyUpdates (disk : Nat → Page) (us : List LogUpdate) : Nat → Page :=
  us.foldl (fun d u => update d u.block u.data) disk

/-- The updates that the operations `ops` made. -/
def updatesOf (ops : List Nat) (history : List LogUpdate) : List LogUpdate :=
  history.filter fun u => ops.contains u.op

/-- The contents after exactly the committed operations. -/
def LogState.content (disk : Nat → Page) (s : LogState) : Nat → Page :=
  applyUpdates disk (updatesOf s.committed s.history)

/-- The contents after the group that is being built as well. -/
def LogState.pending (disk : Nat → Page) (s : LogState) : Nat → Page :=
  applyUpdates (s.content disk) (updatesOf s.group s.history)

/-- The call of `log_write` is for a block outside the log. -/
def homeEvent (r : LogRegion) : LogEvent → Bool
  | .test _ b _ => !decide (r.Has b) && decide (b < 2 ^ 32)
  | _ => true

/-- When `log_write` takes the lock, the header still has the length it tested. -/
def undisturbed (s : LogState) : LogEvent → Bool
  | .record p =>
    match s.proc p with
    | .tested _ _ _ seen => s.lh.n == seen
    | _ => true
  | _ => true

theorem applyUpdates_append (disk : Nat → Page) (us vs : List LogUpdate) :
    applyUpdates disk (us ++ vs) = applyUpdates (applyUpdates disk us) vs :=
  List.foldl_append

theorem updatesOf_append (ops : List Nat) (history : List LogUpdate) (u : LogUpdate) :
    updatesOf ops (history ++ [u]) =
      updatesOf ops history ++ if u.op ∈ ops then [u] else [] := by
  grind [updatesOf]

theorem updatesOf_congr {ops ops' : List Nat} {history : List LogUpdate}
    (h : ∀ u ∈ history, u.op ∈ ops ↔ u.op ∈ ops') :
    updatesOf ops history = updatesOf ops' history := by
  refine List.filter_congr fun u hu => ?_
  simp only [List.contains_eq_mem, h u hu]

/-! ### Sealed disks -/

/-- Entries of a header name different blocks outside the log, and their copies fit. -/
structure HeaderOk (r : LogRegion) (lh : LogHeader) : Prop where
  size : lh.n ≤ LOGSIZE
  fits : ∀ i, i < lh.n → r.Has (r.start + i + 1)
  home : ∀ i, i < lh.n → ¬ r.Has (lh.block i) ∧ lh.block i < 2 ^ 32
  inj : ∀ i j, i < lh.n → j < lh.n → lh.block i = lh.block j → i = j

structure Sealed (r : LogRegion) (lh : LogHeader) (disk base : Nat → Page) : Prop where
  ok : HeaderOk r lh
  length : ldw (disk r.start) 0 = BitVec.ofNat 32 lh.n
  entries : ∀ i, i < lh.n → ldw (disk r.start) (i + 1) = BitVec.ofNat 32 (lh.block i)
  copies : ∀ i, i < lh.n → disk (r.start + i + 1) = base (lh.block i)
  rest : ∀ b, ¬ r.Has b → (∀ i, i < lh.n → lh.block i ≠ b) → disk b = base b

/-- Nothing is left to install. -/
structure Settled (r : LogRegion) (disk base : Nat → Page) : Prop where
  length : ldw (disk r.start) 0 = 0
  blocks : ∀ b, ¬ r.Has b → disk b = base b

variable {r : LogRegion} {lh lh' : LogHeader} {disk disk' base base' : Nat → Page}
  {s s' : LogState}

theorem LogRegion.Has.ne {b c : Nat} (hc : r.Has c) (hb : ¬ r.Has b) : b ≠ c := by
  rintro rfl
  exact hb hc

theorem headerOk_zero (h : lh.n = 0) : HeaderOk r lh := by
  constructor <;> simp [h]

theorem Settled.sealed (h : Settled r disk base) (hn : lh.n = 0) : Sealed r lh disk base where
  ok := headerOk_zero hn
  length := by rw [h.length, hn]; rfl
  entries i hi := by omega
  copies i hi := by omega
  rest b hb _ := h.blocks b hb

theorem ldw_store (lh : LogHeader) (page : Page) :
    ldw (lh.store page) 0 = BitVec.ofNat 32 lh.n ∧
      ∀ i, i < lh.n → ldw (lh.store page) (i + 1) = BitVec.ofNat 32 (lh.block i) := by
  have hfold : ∀ (n : Nat) (page : Page),
      let page' := (List.range n).foldl
        (fun pg i => stw pg (i + 1) (BitVec.ofNat 32 (lh.block i))) page
      ldw page' 0 = ldw page 0 ∧ ∀ i, i < n → ldw page' (i + 1) = BitVec.ofNat 32 (lh.block i) := by
    intro n page
    induction n with
    | zero => exact ⟨rfl, fun i hi => by omega⟩
    | succ n ih =>
      simp only [List.range_succ, List.foldl_append, List.foldl_cons, List.foldl_nil]
      refine ⟨?_, fun i hi => ?_⟩
      · rw [ldw_stw_ne _ _ (by omega)]
        exact ih.1
      · grind [ldw_stw]
  obtain ⟨hzero, hentries⟩ := hfold lh.n (stw page 0 (BitVec.ofNat 32 lh.n))
  exact ⟨by rw [LogHeader.store, hzero, ldw_stw_self], hentries⟩

/-- `read_head` reads back the header that seals the disk. -/
theorem Sealed.load (h : Sealed r lh' disk base) (lh : LogHeader) :
    Sealed r (lh.load (disk r.start)) disk base := by
  have hn : (lh.load (disk r.start)).n = lh'.n := by
    have hsize := h.ok.size
    simp only [LOGSIZE, MAXOPBLOCKS] at hsize
    have hint : (BitVec.ofNat 32 lh'.n).toInt = lh'.n := by
      rw [BitVec.toInt_ofNat', Int.bmod_eq_of_le (by omega) (by omega)]
    simp only [LogHeader.load, h.length, hint, Int.toNat_natCast]
  have hblock : ∀ i, i < lh'.n → (lh.load (disk r.start)).block i = lh'.block i := by
    intro i hi
    have hlt : i < (ldw (disk r.start) 0).toInt.toNat := by
      have hn' : (ldw (disk r.start) 0).toInt.toNat = lh'.n := hn
      omega
    simp only [LogHeader.load, if_pos hlt, h.entries i hi, BitVec.toNat_ofNat]
    exact Nat.mod_eq_of_lt (h.ok.home i hi).2
  refine ⟨⟨hn ▸ h.ok.size, ?_, ?_, ?_⟩, hn ▸ h.length, ?_, ?_, ?_⟩ <;> rw [hn]
  · exact h.ok.fits
  · intro i hi
    rw [hblock i hi]
    exact h.ok.home i hi
  · intro i j hi hj heq
    rw [hblock i hi, hblock j hj] at heq
    exact h.ok.inj i j hi hj heq
  · intro i hi
    rw [hblock i hi]
    exact h.entries i hi
  · intro i hi
    rw [hblock i hi]
    exact h.copies i hi
  · grind [h.rest]

theorem Settled.of_log (h : Settled r disk base) {c : Nat} {page : Page} (hc : r.Has c)
    (hne : c ≠ r.start) : Settled r (update disk c page) base where
  length := by rw [update_of_ne (Ne.symm hne), h.length]
  blocks b hb := by
    rw [update_of_ne (hc.ne hb), h.blocks b hb]

theorem Sealed.install (h : Sealed r lh disk base) {tail : Nat} (hr : r.Has r.start)
    (htail : tail < lh.n) :
    Sealed r lh (update disk (lh.block tail) (base (lh.block tail))) base := by
  have hhome := (h.ok.home tail htail).1
  have hlog : ∀ c, r.Has c → c ≠ lh.block tail := fun c hc => (hc.ne hhome).symm
  refine ⟨h.ok, ?_, fun i hi => ?_, fun i hi => ?_, fun b hb hno => ?_⟩
  · rw [update_of_ne (hlog _ hr), h.length]
  · rw [update_of_ne (hlog _ hr), h.entries i hi]
  · rw [update_of_ne (hlog _ (h.ok.fits i hi)), h.copies i hi]
  · rw [update_of_ne (Ne.symm (hno tail htail)), h.rest b hb hno]

theorem Sealed.clear (h : Sealed r lh disk base) (hr : r.Has r.start)
    (hall : ∀ i, i < lh.n → disk (lh.block i) = base (lh.block i)) {page : Page}
    (hpage : ldw page 0 = 0) : Settled r (update disk r.start page) base where
  length := by rw [update_self, hpage]
  blocks b hb := by
    rw [update_of_ne (hr.ne hb)]
    by_cases hin : ∃ i, i < lh.n ∧ lh.block i = b
    · obtain ⟨i, hi, rfl⟩ := hin
      exact hall i hi
    · exact h.rest b hb fun i hi heq => hin ⟨i, hi, heq⟩

/-! ### The invariant -/

/-- Exactly the blocks of the header are modified in the cache, and hold the
    contents after the group. -/
structure Buffered (lh : LogHeader) (dirty : Nat → Option Page) (base pend : Nat → Page) :
    Prop where
  logged : ∀ i, i < lh.n → dirty (lh.block i) = some (pend (lh.block i))
  clean : ∀ b, (∀ i, i < lh.n → lh.block i ≠ b) → dirty b = none ∧ pend b = base b

/-- The first `tail` entries are installed and no longer dirty. -/
structure Installing (r : LogRegion) (disk : Nat → Page) (tail : Nat) (s : LogState) : Prop where
  header : Sealed r s.lh s.disk (s.content disk)
  le : tail ≤ s.lh.n
  done : ∀ i, i < tail → s.disk (s.lh.block i) = s.content disk (s.lh.block i)
  clean : ∀ b, (∀ i, tail ≤ i → i < s.lh.n → s.lh.block i ≠ b) → s.dirty b = none
  group : s.group = []

def Stage (r : LogRegion) (disk : Nat → Page) (s : LogState) : Prop :=
  match s.phase with
  | .running => HeaderOk r s.lh ∧ Settled r s.disk (s.content disk) ∧
      Buffered s.lh s.dirty (s.content disk) (s.pending disk)
  | .writeLog tail => HeaderOk r s.lh ∧ Settled r s.disk (s.content disk) ∧
      Buffered s.lh s.dirty (s.content disk) (s.pending disk) ∧ tail ≤ s.lh.n ∧
      s.closer ∈ s.group ∧
      ∀ i, i < tail → s.disk (r.start + i + 1) = s.pending disk (s.lh.block i)
  | .install tail => Installing r disk tail s ∧ s.closer ∈ s.committed
  | .finish => s.lh.n = 0 ∧ Settled r s.disk (s.content disk) ∧
      Buffered s.lh s.dirty (s.content disk) (s.pending disk) ∧
      (s.closer ∈ s.group ∨ s.closer ∈ s.committed)
  | .down => (∃ lh, Sealed r lh s.disk (s.content disk)) ∧ (∀ b, s.dirty b = none) ∧ s.group = []
  | .recover tail => Installing r disk tail s ∧ ∀ b, s.dirty b = none
  | .panicked _ => ∃ lh, Sealed r lh s.disk (s.content disk)

structure LogInv (r : LogRegion) (disk : Nat → Page) (s : LogState) : Prop where
  census : ∃ P, Census P s
  logged : ∀ u ∈ s.history, u.op < s.nextOp
  begun : ∀ op, op ∈ s.committed ∨ op ∈ s.group → op < s.nextOp
  disjoint : ∀ op, op ∈ s.group → op ∉ s.committed
  split : updatesOf (s.committed ++ s.group) s.history =
    updatesOf s.committed s.history ++ updatesOf s.group s.history
  member : ∀ p op, (s.proc p).op? = some op → op ∈ s.group
  tested : ∀ p op b data seen, s.proc p = .tested op b data seen →
    (¬ r.Has b ∧ b < 2 ^ 32) ∧ seen < LOGSIZE ∧ seen < r.size - 1
  returned : ∀ op, op ∈ s.returned → op ∈ s.committed
  stage : Stage r disk s

theorem Stage.durable (h : Stage r disk s) : ∃ lh, Sealed r lh s.disk (s.content disk) := by
  unfold Stage at h
  cases hphase : s.phase <;> rw [hphase] at h <;> dsimp only at h
  case running => exact ⟨⟨0, fun _ => 0⟩, h.2.1.sealed rfl⟩
  case writeLog => exact ⟨⟨0, fun _ => 0⟩, h.2.1.sealed rfl⟩
  case install => exact ⟨_, h.1.header⟩
  case finish => exact ⟨⟨0, fun _ => 0⟩, h.2.1.sealed rfl⟩
  case down => exact h.1
  case recover => exact ⟨_, h.1.header⟩
  case panicked => exact h

theorem Buffered.bread (h : Buffered s.lh s.dirty base base') {i : Nat} (hi : i < s.lh.n) :
    s.bread (s.lh.block i) = base' (s.lh.block i) := by
  rw [LogState.bread, h.logged i hi, Option.getD_some]

theorem HeaderOk.add (h : HeaderOk r lh) {b : Nat} (hb : ¬ r.Has b ∧ b < 2 ^ 32)
    (hsize : lh.n < LOGSIZE) (hroom : lh.n < r.size - 1) : HeaderOk r (lh.add b) := by
  rcases lh.add_spec b with ⟨-, heq⟩ | ⟨hnew, heq⟩
  · rwa [heq]
  · rw [heq]
    refine ⟨hsize, fun i hi => ?_, fun i hi => ?_, fun i j hi hj hij => ?_⟩ <;> dsimp only at *
    · simp only [LogRegion.Has]
      omega
    · grind [Function.update_apply, h.home]
    · by_cases hin : i = lh.n <;> by_cases hjn : j = lh.n
      · rw [hin, hjn]
      · grind
      · grind
      · rw [update_of_ne hin, update_of_ne hjn] at hij
        exact h.inj i j (by omega) (by omega) hij

theorem Buffered.add {dirty : Nat → Option Page} (h : Buffered lh dirty base base') (b : Nat)
    (data : Page) : Buffered (lh.add b) (update dirty b (some data)) base
      (update base' b data) where
  logged i hi := by
    rcases (lh.mem_add b ((lh.add b).block i)).1 ⟨i, hi, rfl⟩ with hb | ⟨j, hj, hjb⟩
    · rw [hb, update_self, update_self]
    · grind [Function.update_apply, h.logged]
  clean c hno := by
    have hcb : c ≠ b := by
      rintro rfl
      obtain ⟨i, hi, hic⟩ := (lh.mem_add c c).2 (.inl rfl)
      exact hno i hi hic
    rw [update_of_ne hcb, update_of_ne hcb]
    refine h.clean c fun i hi hic => ?_
    obtain ⟨j, hj, hjc⟩ := (lh.mem_add b c).2 (.inr ⟨i, hi, hic⟩)
    exact hno j hj hjc

theorem LogState.bread_clean {b : Nat} (h : s.dirty b = none) : s.bread b = s.disk b := by
  rw [LogState.bread, h, Option.getD_none]

theorem LogInv.content_commit (h : LogInv r disk s) :
    applyUpdates disk (updatesOf (s.committed ++ s.group) s.history) = s.pending disk := by
  rw [h.split, applyUpdates_append]
  rfl

theorem updatesOf_nil (history : List LogUpdate) : updatesOf [] history = [] := by
  simp [updatesOf]

theorem LogState.pending_of_group (h : s.group = []) : s.pending disk = s.content disk := by
  rw [LogState.pending, h, updatesOf_nil]
  rfl

/-! ### Operations -/

theorem LogInv.same (h : LogInv r disk s) (hcensus : ∃ P, Census P s')
    (hhist : s'.history = s.history) (hnext : s'.nextOp = s.nextOp)
    (hcomm : s'.committed = s.committed) (hgroup : s'.group = s.group)
    (hret : s'.returned = s.returned)
    (hmember : ∀ p op, (s'.proc p).op? = some op → (s.proc p).op? = some op)
    (htested : ∀ p op b data seen, s'.proc p = .tested op b data seen →
      s.proc p = .tested op b data seen ∨
        ((¬ r.Has b ∧ b < 2 ^ 32) ∧ seen < LOGSIZE ∧ seen < r.size - 1))
    (hstage : Stage r disk s') : LogInv r disk s' where
  census := hcensus
  logged := by rw [hhist, hnext]; exact h.logged
  begun := by rw [hcomm, hgroup, hnext]; exact h.begun
  disjoint := by rw [hcomm, hgroup]; exact h.disjoint
  split := by rw [hcomm, hgroup, hhist]; exact h.split
  member p op hp := by
    rw [hgroup]
    exact h.member p op (hmember p op hp)
  tested p op b data seen hp := (htested p op b data seen hp).elim (h.tested p op b data seen) id
  returned := by rw [hret, hcomm]; exact h.returned
  stage := hstage

theorem Stage.running (h : Stage r disk s) (hphase : s.phase = .running) :
    HeaderOk r s.lh ∧ Settled r s.disk (s.content disk) ∧
      Buffered s.lh s.dirty (s.content disk) (s.pending disk) := by
  simpa only [Stage, hphase] using h

theorem LogInv.admitted {p : Nat} (h : LogInv r disk s) (hup : s.phase.up = true)
    (hidle : s.proc p = .idle) (hcom : s.committing = false) : LogInv r disk (s.grant p) := by
  obtain ⟨P, hcensus⟩ := h.census
  have hphase := hcensus.running hup hcom
  have hfresh : ∀ u ∈ s.history, u.op ≠ s.nextOp := fun u hu heq => by
    have := h.logged u hu
    omega
  have hgroup : updatesOf (s.group ++ [s.nextOp]) s.history = updatesOf s.group s.history :=
    updatesOf_congr fun u hu => by simp [hfresh u hu]
  have hpend : (s.grant p).pending disk = s.pending disk := congrArg (applyUpdates _) hgroup
  refine ⟨⟨_, (hcensus.admitted hup hidle hcom).2⟩, ?_, ?_, ?_, ?_, ?_, ?_, h.returned, ?_⟩
  · exact fun u hu => Nat.lt_succ_of_lt (h.logged u hu)
  · intro op hop
    simp only [LogState.grant, List.mem_append, List.mem_singleton] at hop ⊢
    rcases hop with hop | hop | rfl
    · exact Nat.lt_succ_of_lt (h.begun op (.inl hop))
    · exact Nat.lt_succ_of_lt (h.begun op (.inr hop))
    · exact Nat.lt_succ_self _
  · intro op hop hmem
    rcases List.mem_append.1 hop with hop | hop
    · exact h.disjoint op hop hmem
    · have hlt := h.begun op (.inl hmem)
      rw [List.mem_singleton.1 hop] at hlt
      omega
  · simp only [LogState.grant]
    rw [hgroup, ← h.split]
    exact updatesOf_congr fun u hu => by simp [hfresh u hu]
  · intro q op hq
    simp only [LogState.grant] at hq ⊢
    by_cases hqp : q = p
    · subst hqp
      rw [update_self] at hq
      rw [← Option.some.inj hq]
      exact List.mem_append_right _ (List.mem_singleton_self _)
    · rw [update_of_ne hqp] at hq
      exact List.mem_append_left _ (h.member q op hq)
  · intro q op b data seen hq
    simp only [LogState.grant] at hq
    by_cases hqp : q = p
    · grind
    · rw [update_of_ne hqp] at hq
      exact h.tested q op b data seen hq
  · have hst := h.stage.running hphase
    rw [← hpend] at hst
    have hphase' : (s.grant p).phase = .running := hphase
    simp only [Stage, hphase']
    exact hst

/-- `log_write` from the lock on, with room for the block. -/
theorem LogInv.record {p op b seen : Nat} {data : Page} (h : LogInv r disk s)
    (hup : s.phase.up = true) (hop : s.proc p = .tested op b data seen)
    (hseen : s.lh.n = seen) : LogInv r disk (s.record p op b data) := by
  obtain ⟨P, hcensus⟩ := h.census
  have hself : (s.proc p).op? = some op := by rw [hop]; rfl
  have hphase := hcensus.running_of_op hup hself
  obtain ⟨hok, hset, hbuf⟩ := h.stage.running hphase
  obtain ⟨hhome, hroom, hroom'⟩ := h.tested p op b data seen hop
  have hmem := h.member p op hself
  have hnot := h.disjoint op hmem
  have hsame : ∀ q, (update s.proc p (.inOp op) q).op? = (s.proc q).op? := by
    intro q
    by_cases hq : q = p
    · subst hq
      rw [update_self, hop]
      rfl
    · rw [update_of_ne hq]
  -- the update belongs to the group and not to the committed part
  have hcom : updatesOf s.committed (s.history ++ [⟨op, b, data⟩]) =
      updatesOf s.committed s.history := by
    rw [updatesOf_append, if_neg hnot, List.append_nil]
  have hgrp : updatesOf s.group (s.history ++ [⟨op, b, data⟩]) =
      updatesOf s.group s.history ++ [⟨op, b, data⟩] := by
    rw [updatesOf_append, if_pos hmem]
  have hcont : (s.record p op b data).content disk = s.content disk :=
    congrArg (applyUpdates disk) hcom
  have hpend : (s.record p op b data).pending disk =
      update (s.pending disk) b data := by
    rw [LogState.pending, hcont]
    simp only [LogState.record]
    rw [hgrp, applyUpdates_append]
    rfl
  refine ⟨⟨P, hcensus.keep hsame rfl .inl hcensus.busy⟩, ?_, h.begun, h.disjoint, ?_, ?_, ?_,
    h.returned, ?_⟩
  · intro u hu
    rcases List.mem_append.1 hu with hu | hu
    · exact h.logged u hu
    · rw [List.mem_singleton.1 hu]
      exact h.begun op (.inr hmem)
  · simp only [LogState.record]
    rw [hcom, hgrp, updatesOf_append, if_pos (List.mem_append_right _ hmem), h.split,
      List.append_assoc]
  · exact fun q o hq => h.member q o ((hsame q).symm.trans hq)
  · intro q o c d k hq
    simp only [LogState.record] at hq
    by_cases hqp : q = p
    · grind
    · rw [update_of_ne hqp] at hq
      exact h.tested q o c d k hq
  · have hphase' : (s.record p op b data).phase = .running := hphase
    simp only [Stage, hphase', hcont, hpend]
    exact ⟨hok.add hhome (by omega) (by omega), hset, hbuf.add b data⟩

theorem LogInv.leave {p : Nat} (h : LogInv r disk s) (hcensus : ∃ P, Census P s')
    (hproc : s'.proc = update s.proc p .idle)
    (hhist : s'.history = s.history) (hnext : s'.nextOp = s.nextOp)
    (hcomm : s'.committed = s.committed) (hgroup : s'.group = s.group)
    (hret : s'.returned = s.returned) (hstage : Stage r disk s') : LogInv r disk s' := by
  have hkeep : ∀ q, s'.proc q ≠ .idle → s'.proc q = s.proc q := by
    intro q hq
    rw [hproc] at hq ⊢
    refine update_of_ne (fun hqp => hq ?_) _ _
    rw [hqp, update_self]
  refine h.same hcensus hhist hnext hcomm hgroup hret ?_ ?_ hstage
  · intro q o hq
    rwa [hkeep q (fun hidle => by rw [hidle] at hq; exact Option.some_ne_none _ hq.symm)] at hq
  · grind

theorem LogInv.panic (h : LogInv r disk s) (reason : LogPanic) :
    LogInv r disk { s with phase := .panicked reason } := by
  obtain ⟨P, hcensus⟩ := h.census
  exact h.same ⟨P, hcensus.keep (fun _ => rfl) rfl .inl fun hup => Bool.noConfusion hup⟩
    rfl rfl rfl rfl rfl (fun _ _ hp => hp) (fun _ _ _ _ _ hp => .inl hp) h.stage.durable

/-! ### `commit` -/

/-- A step of `commit` or of the recovery: no process moves. -/
theorem LogInv.kernel (h : LogInv r disk s) (hproc : s'.proc = s.proc)
    (hout : s'.outstanding = s.outstanding) (hcommit : s'.committing = s.committing)
    (hbusy : s'.phase.up = true → s'.phase ≠ .running → s'.committing = true)
    (hhist : s'.history = s.history) (hnext : s'.nextOp = s.nextOp)
    (hcomm : s'.committed = s.committed) (hgroup : s'.group = s.group)
    (hret : s'.returned = s.returned) (hstage : Stage r disk s') : LogInv r disk s' := by
  obtain ⟨P, hcensus⟩ := h.census
  refine h.same ⟨P, hcensus.keep (fun q => by rw [hproc]) hout ?_ hbusy⟩ hhist hnext hcomm hgroup
    hret (fun p op hp => by rwa [hproc] at hp)
    (fun p op b data seen hp => .inl (by rwa [hproc] at hp)) hstage
  exact fun hc => .inl (by rwa [hcommit] at hc)

theorem LogInv.committing (h : LogInv r disk s) (hup : s.phase.up = true)
    (hne : s.phase ≠ .running) : s.committing = true := by
  obtain ⟨P, hcensus⟩ := h.census
  exact hcensus.busy hup hne

theorem LogInv.logBlock {tail : Nat} (h : LogInv r disk s) (hphase : s.phase = .writeLog tail)
    (htail : tail < s.lh.n) :
    LogInv r disk { s.bwrite (r.start + tail + 1) (s.bread (s.lh.block tail)) with
      phase := .writeLog (tail + 1) } := by
  have hst := h.stage
  simp only [Stage, hphase] at hst
  obtain ⟨hok, hset, hbuf, hle, hcloser, hcopies⟩ := hst
  have hlog := hok.fits tail htail
  have hnone : s.dirty (r.start + tail + 1) = none :=
    (hbuf.clean _ fun i hi => hlog.ne (hok.home i hi).1).1
  have hcommit := h.committing (by rw [hphase]; rfl) (by rw [hphase]; simp)
  refine h.kernel rfl rfl rfl (fun _ _ => hcommit) rfl rfl rfl rfl rfl ?_
  refine ⟨hok, hset.of_log hlog (by omega), ?_, htail, hcloser, fun i hi => ?_⟩
  · have hdirty : update s.dirty (r.start + tail + 1) none = s.dirty := by
      rw [← hnone, update_eq_self]
    simp only [LogState.bwrite, hdirty]
    exact hbuf
  · simp only [LogState.bwrite]
    by_cases hit : i = tail
    · subst hit
      rw [update_self, hbuf.bread htail]
      rfl
    · rw [update_of_ne (by omega)]
      exact hcopies i (by omega)

theorem LogInv.header {tail : Nat} (h : LogInv r disk s) (hr : r.Has r.start)
    (hphase : s.phase = .writeLog tail) (htail : ¬ tail < s.lh.n) :
    LogInv r disk { s.writeHead r with
      phase := .install 0, committed := s.committed ++ s.group, group := [] } := by
  have hst := h.stage
  simp only [Stage, hphase] at hst
  obtain ⟨hok, hset, hbuf, hle, hcloser, hcopies⟩ := hst
  have heq : tail = s.lh.n := by omega
  subst heq
  obtain ⟨P, hcensus⟩ := h.census
  have hup : s.phase.up = true := by rw [hphase]; rfl
  have hne : s.phase ≠ .running := by rw [hphase]; simp
  have hidle := hcensus.none_of_commit hup hne
  have hcommit := hcensus.busy hup hne
  have hstart : ∀ i, i < s.lh.n → s.lh.block i ≠ r.start := fun i hi => hr.ne (hok.home i hi).1
  obtain ⟨hlen, hent⟩ := ldw_store s.lh (s.bread r.start)
  refine ⟨⟨P, hcensus.keep (fun _ => rfl) rfl .inl fun _ _ => hcommit⟩, h.logged, ?_, ?_, ?_, ?_,
    ?_, fun op hop => List.mem_append_left _ (h.returned op hop), ?_⟩
  · intro op hop
    rcases hop with hop | hop
    · exact h.begun op (List.mem_append.1 hop)
    · exact absurd hop List.not_mem_nil
  · exact fun op hop => absurd hop List.not_mem_nil
  · simp only [List.append_nil, updatesOf_nil]
  · intro p op hp
    exact (Option.some_ne_none _ (hp.symm.trans (hidle p))).elim
  · exact h.tested
  · refine ⟨⟨⟨hok, ?_, ?_, ?_, ?_⟩, Nat.zero_le _, fun i hi => absurd hi (Nat.not_lt_zero i), ?_, rfl⟩,
      List.mem_append_right _ hcloser⟩
    · simp only [LogState.writeHead, LogState.bwrite, update_self]
      exact hlen
    · intro i hi
      simp only [LogState.writeHead, LogState.bwrite, update_self]
      exact hent i hi
    · intro i hi
      simp only [LogState.writeHead, LogState.bwrite]
      rw [update_of_ne (by omega), hcopies i hi]
      exact congrFun h.content_commit.symm _
    · intro b hb hno
      simp only [LogState.writeHead, LogState.bwrite]
      rw [update_of_ne (hr.ne hb), hset.blocks b hb, ← (hbuf.clean b hno).2]
      exact congrFun h.content_commit.symm _
    · intro b hno
      simp only [LogState.writeHead, LogState.bwrite]
      by_cases hb : b = r.start
      · rw [hb, update_self]
      · rw [update_of_ne hb]
        exact (hbuf.clean b fun i hi => hno i (Nat.zero_le i) hi).1

/-- One block of `install_trans`. -/
theorem Installing.next {tail : Nat} (h : Installing r disk tail s) (hr : r.Has r.start)
    (htail : tail < s.lh.n) (phase : LogPhase) :
    Installing r disk (tail + 1) { s.installBlock r tail with phase := phase } := by
  have hok := h.header.ok
  have hnone : s.dirty (r.start + tail + 1) = none :=
    h.clean _ fun i _ hi => (hok.fits tail htail).ne (hok.home i hi).1
  have hdata : s.bread (r.start + tail + 1) = s.content disk (s.lh.block tail) := by
    rw [LogState.bread_clean hnone, h.header.copies tail htail]
  have hdisk : (s.installBlock r tail).disk =
      update s.disk (s.lh.block tail) (s.content disk (s.lh.block tail)) := by
    rw [LogState.installBlock, hdata]
    rfl
  refine ⟨?_, htail, fun i hi => ?_, fun b hno => ?_, h.group⟩
  · have hseal := h.header.install hr htail
    rw [← hdisk] at hseal
    exact hseal
  · have hi' : (s.installBlock r tail).disk (s.lh.block i) = s.content disk (s.lh.block i) := by
      rw [hdisk]
      by_cases hit : i = tail
      · rw [hit, update_self]
      · grind [Function.update_apply, h.done]
    exact hi'
  · simp only [LogState.installBlock, LogState.bwrite] at hno ⊢
    by_cases hb : b = s.lh.block tail
    · rw [hb, update_self]
    · grind [Function.update_apply, h.clean]

/-- `log.lh.n = 0; write_head()` when everything is installed. -/
theorem Installing.clear {tail : Nat} (h : Installing r disk tail s) (hr : r.Has r.start)
    (htail : ¬ tail < s.lh.n) :
    Settled r (s.clearHead r).disk (s.content disk) ∧ ∀ b, (s.clearHead r).dirty b = none := by
  have heq : tail = s.lh.n := Nat.le_antisymm h.le (by omega)
  subst heq
  constructor
  · exact h.header.clear hr h.done (ldw_store { s.lh with n := 0 } _).1
  · intro b
    simp only [LogState.clearHead, LogState.writeHead, LogState.bwrite]
    by_cases hb : b = r.start
    · rw [hb, update_self]
    · rw [update_of_ne hb]
      exact h.clean b fun i hle hi => by omega

theorem buffered_empty {dirty : Nat → Option Page} (hn : lh.n = 0) (hclean : ∀ b, dirty b = none)
    (hpend : base' = base) : Buffered lh dirty base base' where
  logged i hi := by omega
  clean b _ := ⟨hclean b, by rw [hpend]⟩

theorem LogInv.install {tail : Nat} (h : LogInv r disk s) (hr : r.Has r.start)
    (hphase : s.phase = .install tail) (htail : tail < s.lh.n) :
    LogInv r disk { s.installBlock r tail with phase := .install (tail + 1) } := by
  have hst := h.stage
  simp only [Stage, hphase] at hst
  have hcommit := h.committing (by rw [hphase]; rfl) (by rw [hphase]; simp)
  exact h.kernel rfl rfl rfl (fun _ _ => hcommit) rfl rfl rfl rfl rfl
    ⟨hst.1.next hr htail _, hst.2⟩

theorem LogInv.clear {tail : Nat} (h : LogInv r disk s) (hr : r.Has r.start)
    (hphase : s.phase = .install tail) (htail : ¬ tail < s.lh.n) :
    LogInv r disk { s.clearHead r with phase := .finish } := by
  have hst := h.stage
  simp only [Stage, hphase] at hst
  have hcommit := h.committing (by rw [hphase]; rfl) (by rw [hphase]; simp)
  obtain ⟨hset, hclean⟩ := hst.1.clear hr htail
  exact h.kernel rfl rfl rfl (fun _ _ => hcommit) rfl rfl rfl rfl rfl
    ⟨rfl, hset, buffered_empty rfl hclean (LogState.pending_of_group hst.1.group), .inr hst.2⟩

theorem LogInv.finish (h : LogInv r disk s) (hphase : s.phase = .finish) :
    LogInv r disk { s with
      committing := false, phase := .running
      committed := s.committed ++ s.group, group := []
      returned := s.returned ++ [s.closer] } := by
  have hst := h.stage
  simp only [Stage, hphase] at hst
  obtain ⟨hzero, hset, hbuf, hcloser⟩ := hst
  obtain ⟨P, hcensus⟩ := h.census
  have hidle := hcensus.none_of_commit (by rw [hphase]; rfl) (by rw [hphase]; simp)
  -- the group logged nothing, so that adding it changes nothing
  have hpend : s.pending disk = s.content disk :=
    funext fun b => (hbuf.clean b fun i hi => by omega).2
  have hcont := h.content_commit.trans hpend
  refine ⟨⟨P, hcensus.keep (fun _ => rfl) rfl (fun hc => Bool.noConfusion hc)
    fun _ hne => absurd rfl hne⟩, h.logged, ?_, fun op hop => absurd hop List.not_mem_nil, ?_, ?_,
    h.tested, ?_, headerOk_zero hzero, ?_, ?_⟩
  · intro op hop
    rcases hop with hop | hop
    · exact h.begun op (List.mem_append.1 hop)
    · exact absurd hop List.not_mem_nil
  · simp only [List.append_nil, updatesOf_nil]
  · grind
  · grind [h.returned, List.mem_append_left]
  · rw [LogState.content, hcont]
    exact hset
  · exact buffered_empty hzero (fun b => (hbuf.clean b fun i hi => by omega).1)
      (LogState.pending_of_group rfl)

/-! ### Crash and recovery -/

theorem LogInv.crash (h : LogInv r disk s) : LogInv r disk s.crash where
  census := ⟨∅, census_empty (fun _ => rfl) rfl fun hup => Bool.noConfusion hup⟩
  logged := h.logged
  begun op hop := h.begun op (hop.imp id fun hnil => absurd hnil List.not_mem_nil)
  disjoint op hop := absurd hop List.not_mem_nil
  split := by
    simp only [LogState.crash, LogState.init, List.append_nil, updatesOf_nil]
  member p op hp := (Option.some_ne_none _ hp.symm).elim
  tested p op b data seen hp := OpState.noConfusion hp
  returned := h.returned
  stage := ⟨h.stage.durable, fun _ => rfl, rfl⟩

theorem LogInv.load (h : LogInv r disk s) (hphase : s.phase = .down) :
    LogInv r disk { s with lh := s.lh.load (s.bread r.start), phase := .recover 0 } := by
  have hst := h.stage
  simp only [Stage, hphase] at hst
  obtain ⟨⟨lh, hseal⟩, hclean, hgroup⟩ := hst
  refine h.kernel rfl rfl rfl (fun hup => Bool.noConfusion hup) rfl rfl rfl rfl rfl
    ⟨⟨?_, Nat.zero_le _, fun i hi => absurd hi (Nat.not_lt_zero i), fun b _ => hclean b, hgroup⟩,
      hclean⟩
  rw [LogState.bread_clean (hclean r.start)]
  exact hseal.load s.lh

theorem LogInv.reinstall {tail : Nat} (h : LogInv r disk s) (hr : r.Has r.start)
    (hphase : s.phase = .recover tail) (htail : tail < s.lh.n) :
    LogInv r disk { s.installBlock r tail with phase := .recover (tail + 1) } := by
  have hst := h.stage
  simp only [Stage, hphase] at hst
  refine h.kernel rfl rfl rfl (fun hup => Bool.noConfusion hup) rfl rfl rfl rfl rfl
    ⟨hst.1.next hr htail _, fun b => ?_⟩
  simp only [LogState.installBlock, LogState.bwrite]
  by_cases hb : b = s.lh.block tail
  · rw [hb, update_self]
  · rw [update_of_ne hb]
    exact hst.2 b

theorem LogInv.restart {tail : Nat} (h : LogInv r disk s) (hr : r.Has r.start)
    (hphase : s.phase = .recover tail) (htail : ¬ tail < s.lh.n) :
    LogInv r disk { s.clearHead r with phase := .running } := by
  have hst := h.stage
  simp only [Stage, hphase] at hst
  obtain ⟨hset, hclean⟩ := hst.1.clear hr htail
  exact h.kernel rfl rfl rfl (fun _ hne => absurd rfl hne) rfl rfl rfl rfl rfl
    ⟨headerOk_zero rfl, hset,
      buffered_empty rfl hclean (LogState.pending_of_group hst.1.group)⟩

/-! ### Runs -/

theorem LogInv.step (h : LogInv r disk s) (hr : r.Has r.start) {e : LogEvent}
    (hhome : homeEvent r e = true) (hun : undisturbed s e = true) (hstep : LogStep r s e s') :
    LogInv r disk s' := by
  obtain ⟨P, hcensus⟩ := h.census
  cases hstep with
  | stay => exact h
  | admitted hup hidle hcom _ => exact h.admitted hup hidle hcom
  | tooBig => exact h.panic _
  | outside => exact h.panic _
  | @tested p op b data hup hop hsize hroom =>
    simp only [homeEvent, Bool.and_eq_true, Bool.not_eq_true', decide_eq_false_iff_not,
      decide_eq_true_eq] at hhome
    have hself : (s.proc p).op? = some op := by rw [hop]; rfl
    have hphase := hcensus.running_of_op hup hself
    have hsame : ∀ q, (update s.proc p (.tested op b data s.lh.n) q).op? =
        (s.proc q).op? := by
      intro q
      by_cases hq : q = p
      · subst hq
        rw [update_self, hop]
        rfl
      · rw [update_of_ne hq]
    refine h.same ⟨P, hcensus.keep hsame rfl .inl hcensus.busy⟩ rfl rfl rfl rfl rfl
      (fun q o hq => (hsame q).symm.trans hq) ?_ ?_
    · grind
    · have hst := h.stage.running hphase
      simp only [Stage, hphase]
      exact hst
  | record hup hop =>
    simp only [undisturbed, hop, beq_iff_eq] at hun
    exact h.record hup hop hun
  | locked => exact h.panic _
  | @close p op hup hop hcom hzero =>
    have hleft := (hcensus.leave hop hcom).2
    have hmem := h.member p op (by rw [hop]; rfl)
    obtain ⟨hok, hset, hbuf⟩ := h.stage.running (hcensus.running hup hcom)
    refine h.leave ⟨_, hleft.keep (fun _ => rfl) rfl (fun _ => .inr hzero) fun _ _ => rfl⟩
      rfl rfl rfl rfl rfl rfl ?_
    by_cases hpos : s.lh.n > 0
    · simp only [Stage, if_pos hpos]
      exact ⟨hok, hset, hbuf, Nat.zero_le _, hmem, fun i hi => absurd hi (Nat.not_lt_zero i)⟩
    · simp only [Stage, if_neg hpos]
      exact ⟨Nat.eq_zero_of_not_pos hpos, hset, hbuf, .inl hmem⟩
  | @leave p op hup hop hcom _ =>
    have hphase := hcensus.running hup hcom
    have hst := h.stage.running hphase
    refine h.leave ⟨_, (hcensus.leave hop hcom).2⟩ rfl rfl rfl rfl rfl rfl ?_
    have hphase' : (s.leave p).phase = .running := hphase
    simp only [Stage, hphase']
    exact hst
  | logBlock hphase hlt => exact h.logBlock hphase hlt
  | header hphase hge => exact h.header hr hphase hge
  | install hphase hlt => exact h.install hr hphase hlt
  | clear hphase hge => exact h.clear hr hphase hge
  | finish hphase => exact h.finish hphase
  | crash => exact h.crash
  | load hphase => exact h.load hphase
  | reinstall hphase hlt => exact h.reinstall hr hphase hlt
  | restart hphase hge => exact h.restart hr hphase hge

end CowPaging
