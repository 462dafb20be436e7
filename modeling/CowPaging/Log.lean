import CowPaging.Mmu
import CowPaging.Lib.SlotTable
import Mathlib.Data.Finset.Card

/-!
# The log

`log.c` as a transition system. Any number of processes call `begin_op`,
`log_write` and `end_op`; a call of `log_write` is cut where it is not protected,
between its size test and the acquisition of `log.lock`, and `commit` and
`recover_from_log` are cut before each sector write, so that a crash may fall
between any two of them. Blocks are read through the buffer cache, which shows a
modified buffer (`B_DIRTY`) where there is one and the disk otherwise.

Beside the variables of `log.c` the state carries the history that the properties
are about: which operation logged which contents, which operations belong to the
group being built, and which were committed.
-/

namespace CowPaging

open Bytes SlotTable
open Function (update_of_ne update_self update_eq_self update)

def MAXOPBLOCKS : Nat := 10
def LOGSIZE : Nat := MAXOPBLOCKS * 3

/-! ### The header -/

/-- `struct logheader`. -/
structure LogHeader where
  n : Nat
  block : Nat → Nat

/-- `log.start` and `log.size`, from the superblock. -/
structure LogRegion where
  start : Nat
  size : Nat

/-- Block `b` belongs to the log: its header or its data blocks. -/
def LogRegion.Has (r : LogRegion) (b : Nat) : Prop := r.start ≤ b ∧ b < r.start + r.size

instance (r : LogRegion) (b : Nat) : Decidable (r.Has b) :=
  inferInstanceAs (Decidable (_ ∧ _))

/-- The region that `mkfs` writes into the superblock. -/
def mkfsLog : LogRegion := ⟨2 + SWAPBLOCKS, LOGSIZE⟩

/-- The stores of `write_head` into the buffer of the header block. -/
def LogHeader.store (lh : LogHeader) (page : Page) : Page :=
  (List.range lh.n).foldl (fun pg i => stw pg (i + 1) (BitVec.ofNat 32 (lh.block i)))
    (stw page 0 (BitVec.ofNat 32 lh.n))

/-- `read_head`: only the entries below `n` are copied. -/
def LogHeader.load (lh : LogHeader) (page : Page) : LogHeader where
  n := (ldw page 0).toInt.toNat
  block i := if i < (ldw page 0).toInt.toNat then (ldw page (i + 1)).toNat else lh.block i

/-- `log_write` under the lock: the block takes the entry it already has, or the
    next one. -/
def LogHeader.add (lh : LogHeader) (b : Nat) : LogHeader :=
  match firstSlot lh.n fun i => decide (lh.block i = b) with
  | some i => { lh with block := update lh.block i b }
  | none => { n := lh.n + 1, block := update lh.block lh.n b }

/-! ### The state -/

/-- Where a process stands. `tested`: its `log_write` passed the test, when the
    header had `seen` entries, and has not yet taken the lock. -/
inductive OpState where
  | idle
  | inOp (op : Nat)
  | tested (op block : Nat) (data : Page) (seen : Nat)

def OpState.op? : OpState → Option Nat
  | .idle => none
  | .inOp op => some op
  | .tested op _ _ _ => some op

inductive LogPanic where
  | tooBig      -- "too big a transaction"
  | outside     -- "log_write outside of trans"
  | committing  -- "log.committing"
deriving DecidableEq, Repr

/-- What the kernel does beside the operations. -/
inductive LogPhase where
  | running
  /-- `commit`: `tail` log blocks are written. -/
  | writeLog (tail : Nat)
  /-- `commit`: the header is written and `tail` blocks are installed. -/
  | install (tail : Nat)
  /-- `commit` is done and `log.committing` still set. -/
  | finish
  /-- Before `recover_from_log`. -/
  | down
  /-- `recover_from_log`: `tail` blocks are installed. -/
  | recover (tail : Nat)
  | panicked (reason : LogPanic)
deriving DecidableEq, Repr

/-- An operation logged new contents of a block. -/
structure LogUpdate where
  op : Nat
  block : Nat
  data : Page

structure LogState where
  disk : Nat → Page
  /-- The buffers with `B_DIRTY`. -/
  dirty : Nat → Option Page
  lh : LogHeader
  outstanding : Nat
  committing : Bool
  phase : LogPhase
  proc : Nat → OpState
  /-- Operations so far. -/
  nextOp : Nat
  /-- Every completed `log_write`, oldest first. -/
  history : List LogUpdate
  /-- Operations since the last commit. -/
  group : List Nat
  /-- Operations in a group whose header was written. -/
  committed : List Nat
  /-- The operation whose `end_op` commits. -/
  closer : Nat
  /-- Operations whose `end_op` returned from a commit. -/
  returned : List Nat

/-- `bread`. -/
def LogState.bread (s : LogState) (b : Nat) : Page := (s.dirty b).getD (s.disk b)

/-- `bwrite` of a buffer with contents `data`; the driver clears `B_DIRTY`. -/
def LogState.bwrite (s : LogState) (b : Nat) (data : Page) : LogState :=
  { s with disk := update s.disk b data, dirty := update s.dirty b none }

/-- The machine starts on a disk that `mkfs` made. -/
def LogState.init (disk : Nat → Page) : LogState where
  disk := disk
  dirty _ := none
  lh := ⟨0, fun _ => 0⟩
  outstanding := 0
  committing := false
  phase := .down
  proc _ := .idle
  nextOp := 0
  history := []
  group := []
  committed := []
  closer := 0
  returned := []

/-! ### Steps -/

/-- Process `p` starts an operation. -/
def LogState.grant (p : Nat) (s : LogState) : LogState :=
  { s with
    outstanding := s.outstanding + 1
    proc := update s.proc p (.inOp s.nextOp)
    nextOp := s.nextOp + 1
    group := s.group ++ [s.nextOp] }

/-- Process `p` ends its operation. -/
def LogState.leave (p : Nat) (s : LogState) : LogState :=
  { s with outstanding := s.outstanding - 1, proc := update s.proc p .idle }

/-- `begin_op`; a process that has to sleep tries again later. -/
def LogState.beginOp (p : Nat) (s : LogState) : LogState :=
  if s.committing then s
  else if s.lh.n + (s.outstanding + 1) * MAXOPBLOCKS > LOGSIZE then s
  else s.grant p

/-- `log_write` up to `acquire`, for a buffer of block `b` that now holds `data`. -/
def LogState.test (r : LogRegion) (p op b : Nat) (data : Page) (s : LogState) : LogState :=
  if s.lh.n ≥ LOGSIZE ∨ s.lh.n ≥ r.size - 1 then { s with phase := .panicked .tooBig }
  else if s.outstanding < 1 then { s with phase := .panicked .outside }
  else { s with proc := update s.proc p (.tested op b data s.lh.n) }

/-- `log_write` from `acquire` on. -/
def LogState.record (p op b : Nat) (data : Page) (s : LogState) : LogState :=
  { s with
    lh := s.lh.add b
    dirty := update s.dirty b (some data)
    proc := update s.proc p (.inOp op)
    history := s.history ++ [⟨op, b, data⟩] }

/-- `end_op` up to the call of `commit`. -/
def LogState.endOp (p op : Nat) (s : LogState) : LogState :=
  if s.committing then { s with phase := .panicked .committing }
  else if s.outstanding - 1 = 0 then
    { s.leave p with
      committing := true
      closer := op
      phase := if s.lh.n > 0 then .writeLog 0 else .finish }
  else s.leave p

/-- One block of `install_trans`. -/
def LogState.installBlock (r : LogRegion) (tail : Nat) (s : LogState) : LogState :=
  s.bwrite (s.lh.block tail) (s.bread (r.start + tail + 1))

/-- `write_head`. -/
def LogState.writeHead (r : LogRegion) (s : LogState) : LogState :=
  s.bwrite r.start (s.lh.store (s.bread r.start))

/-- `log.lh.n = 0; write_head()`. -/
def LogState.clearHead (r : LogRegion) (s : LogState) : LogState :=
  { s with lh := { s.lh with n := 0 } }.writeHead r

/-- The next sector write of `commit`, or its end. -/
def LogState.commit (r : LogRegion) (s : LogState) : LogState :=
  match s.phase with
  | .writeLog tail =>
    if tail < s.lh.n then
      { s.bwrite (r.start + tail + 1) (s.bread (s.lh.block tail)) with
        phase := .writeLog (tail + 1) }
    else
      -- the true point at which the group commits
      { s.writeHead r with
        phase := .install 0, committed := s.committed ++ s.group, group := [] }
  | .install tail =>
    if tail < s.lh.n then { s.installBlock r tail with phase := .install (tail + 1) }
    else { s.clearHead r with phase := .finish }
  | .finish =>
    { s with
      committing := false, phase := .running
      committed := s.committed ++ s.group, group := []
      returned := s.returned ++ [s.closer] }
  | _ => s

/-- Power is lost: the disk and the history stay. -/
def LogState.crash (s : LogState) : LogState :=
  { LogState.init s.disk with
    nextOp := s.nextOp, history := s.history, committed := s.committed, closer := s.closer
    returned := s.returned }

/-- The next sector write of `recover_from_log`. -/
def LogState.recover (r : LogRegion) (s : LogState) : LogState :=
  match s.phase with
  | .down => { s with lh := s.lh.load (s.bread r.start), phase := .recover 0 }
  | .recover tail =>
    if tail < s.lh.n then { s.installBlock r tail with phase := .recover (tail + 1) }
    else { s.clearHead r with phase := .running }
  | _ => s

inductive LogEvent where
  | beginOp (p : Nat)
  | test (p b : Nat) (data : Page)
  | record (p : Nat)
  | endOp (p : Nat)
  | commit
  | crash
  | recover

/-- Processes run: not before the recovery, and not after a panic. -/
def LogPhase.up : LogPhase → Bool
  | .running | .writeLog _ | .install _ | .finish => true
  | .down | .recover _ | .panicked _ => false

/-- One event; an event that is not possible in the state changes nothing. -/
def LogState.step (r : LogRegion) (s : LogState) : LogEvent → LogState
  | .beginOp p =>
    match s.phase.up, s.proc p with
    | true, .idle => s.beginOp p
    | _, _ => s
  | .test p b data =>
    match s.phase.up, s.proc p with
    | true, .inOp op => s.test r p op b data
    | _, _ => s
  | .record p =>
    match s.phase.up, s.proc p with
    | true, .tested op b data _ => s.record p op b data
    | _, _ => s
  | .endOp p =>
    match s.phase.up, s.proc p with
    | true, .inOp op => s.endOp p op
    | _, _ => s
  | .commit => s.commit r
  | .crash => s.crash
  | .recover => s.recover r

/-- What one event can do. -/
inductive LogStep (r : LogRegion) (s : LogState) : LogEvent → LogState → Prop
  | stay (e : LogEvent) : LogStep r s e s
  | admitted {p : Nat} : s.phase.up = true → s.proc p = .idle → s.committing = false →
      s.lh.n + (s.outstanding + 1) * MAXOPBLOCKS ≤ LOGSIZE →
      LogStep r s (.beginOp p) (s.grant p)
  | tooBig {p op b : Nat} {data : Page} : s.phase.up = true → s.proc p = .inOp op →
      s.lh.n ≥ LOGSIZE ∨ s.lh.n ≥ r.size - 1 →
      LogStep r s (.test p b data) { s with phase := .panicked .tooBig }
  | outside {p op b : Nat} {data : Page} : s.phase.up = true → s.proc p = .inOp op →
      LogStep r s (.test p b data) { s with phase := .panicked .outside }
  | tested {p op b : Nat} {data : Page} : s.phase.up = true → s.proc p = .inOp op →
      s.lh.n < LOGSIZE → s.lh.n < r.size - 1 →
      LogStep r s (.test p b data)
        { s with proc := update s.proc p (.tested op b data s.lh.n) }
  | record {p op b seen : Nat} {data : Page} : s.phase.up = true →
      s.proc p = .tested op b data seen → LogStep r s (.record p) (s.record p op b data)
  | locked {p op : Nat} : s.phase.up = true → s.proc p = .inOp op → s.committing = true →
      LogStep r s (.endOp p) { s with phase := .panicked .committing }
  | close {p op : Nat} : s.phase.up = true → s.proc p = .inOp op → s.committing = false →
      s.outstanding - 1 = 0 →
      LogStep r s (.endOp p)
        { s.leave p with
          committing := true
          closer := op
          phase := if s.lh.n > 0 then .writeLog 0 else .finish }
  | leave {p op : Nat} : s.phase.up = true → s.proc p = .inOp op → s.committing = false →
      s.outstanding - 1 ≠ 0 →
      LogStep r s (.endOp p) (s.leave p)
  | logBlock {tail : Nat} : s.phase = .writeLog tail → tail < s.lh.n →
      LogStep r s .commit
        { s.bwrite (r.start + tail + 1) (s.bread (s.lh.block tail)) with
          phase := .writeLog (tail + 1) }
  | header {tail : Nat} : s.phase = .writeLog tail → ¬ tail < s.lh.n →
      LogStep r s .commit
        { s.writeHead r with
          phase := .install 0, committed := s.committed ++ s.group, group := [] }
  | install {tail : Nat} : s.phase = .install tail → tail < s.lh.n →
      LogStep r s .commit { s.installBlock r tail with phase := .install (tail + 1) }
  | clear {tail : Nat} : s.phase = .install tail → ¬ tail < s.lh.n →
      LogStep r s .commit { s.clearHead r with phase := .finish }
  | finish : s.phase = .finish →
      LogStep r s .commit
        { s with
          committing := false, phase := .running
          committed := s.committed ++ s.group, group := []
          returned := s.returned ++ [s.closer] }
  | crash : LogStep r s .crash s.crash
  | load : s.phase = .down →
      LogStep r s .recover { s with lh := s.lh.load (s.bread r.start), phase := .recover 0 }
  | reinstall {tail : Nat} : s.phase = .recover tail → tail < s.lh.n →
      LogStep r s .recover { s.installBlock r tail with phase := .recover (tail + 1) }
  | restart {tail : Nat} : s.phase = .recover tail → ¬ tail < s.lh.n →
      LogStep r s .recover { s.clearHead r with phase := .running }

theorem LogState.step_spec (r : LogRegion) (s : LogState) (e : LogEvent) :
    LogStep r s e (s.step r e) := by
  cases e with
  | beginOp p =>
    simp only [LogState.step]
    split
    · next hup hidle =>
        unfold LogState.beginOp
        split
        · exact .stay _
        · next hcom =>
            split
            · exact .stay _
            · next hroom => exact .admitted hup hidle (Bool.not_eq_true _ ▸ hcom) (by omega)
    · exact .stay _
  | test p b data =>
    simp only [LogState.step]
    split
    · next op hup hop =>
        unfold LogState.test
        split
        · next hbig => exact .tooBig hup hop hbig
        · next hbig =>
            split
            · exact .outside hup hop
            · exact .tested hup hop (by omega) (by omega)
    · exact .stay _
  | record p =>
    simp only [LogState.step]
    split
    · next op b data seen hup hop => exact .record hup hop
    · exact .stay _
  | endOp p =>
    simp only [LogState.step]
    split
    · next op hup hop =>
        unfold LogState.endOp
        split
        · next hcom => exact .locked hup hop hcom
        · next hcom =>
            rw [Bool.not_eq_true] at hcom
            split
            · next hzero => exact .close hup hop hcom hzero
            · next hne => exact .leave hup hop hcom hne
    · exact .stay _
  | commit =>
    simp only [LogState.step, LogState.commit]
    split
    · next tail hphase =>
        split
        · next hlt => exact .logBlock hphase hlt
        · next hge => exact .header hphase hge
    · next tail hphase =>
        split
        · next hlt => exact .install hphase hlt
        · next hge => exact .clear hphase hge
    · next hphase => exact .finish hphase
    · exact .stay _
  | crash => exact .crash
  | recover =>
    simp only [LogState.step, LogState.recover]
    split
    · next hphase => exact .load hphase
    · next tail hphase =>
        split
        · next hlt => exact .reinstall hphase hlt
        · next hge => exact .restart hphase hge
    · exact .stay _

/-- The states of the runs from `s` whose events all satisfy `ok` where they happen. -/
inductive LogReach (r : LogRegion) (ok : LogState → LogEvent → Prop) (s : LogState) :
    LogState → Prop
  | refl : LogReach r ok s s
  | step {t : LogState} {e : LogEvent} : LogReach r ok s t → ok t e →
      LogReach r ok s (t.step r e)

theorem LogReach.invariant {r : LogRegion} {ok : LogState → LogEvent → Prop} {s t : LogState}
    (I : LogState → Prop) (hreach : LogReach r ok s t) (hinit : I s)
    (hstep : ∀ a e b, I a → ok a e → LogStep r a e b → I b) : I t := by
  induction hreach with
  | refl => exact hinit
  | step _ hok ih => exact hstep _ _ _ ih hok (LogState.step_spec r _ _)

/-- A list of events, as long as they are all allowed. -/
def LogState.run (r : LogRegion) (ok : LogState → LogEvent → Bool) :
    LogState → List LogEvent → Option LogState
  | s, [] => some s
  | s, e :: es => if ok s e then LogState.run r ok (s.step r e) es else none

theorem LogReach.of_run {r : LogRegion} {ok : LogState → LogEvent → Bool} {s0 : LogState} :
    ∀ {es : List LogEvent} {s s' : LogState}, LogReach r (fun t e => ok t e = true) s0 s →
      LogState.run r ok s es = some s' → LogReach r (fun t e => ok t e = true) s0 s' := by
  intro es
  induction es with
  | nil =>
    intro s s' hreach hrun
    rw [← Option.some.inj hrun]
    exact hreach
  | cons e es ih =>
    intro s s' hreach hrun
    rw [LogState.run] at hrun
    split at hrun
    · next hok => exact ih (hreach.step hok) hrun
    · cases hrun

/-! ### The processes in an operation -/

/-- The processes in `P` are in an operation, and `log.outstanding` is their number;
    a commit runs without any. -/
structure Census (P : Finset Nat) (s : LogState) : Prop where
  mem : ∀ p, p ∈ P ↔ ∃ op, (s.proc p).op? = some op
  card : P.card = s.outstanding
  alone : s.committing = true → s.outstanding = 0
  busy : s.phase.up = true → s.phase ≠ .running → s.committing = true

variable {P : Finset Nat} {s s' : LogState}

theorem Census.running (h : Census P s) (hup : s.phase.up = true)
    (hcom : s.committing = false) : s.phase = .running := by
  by_contra hne
  rw [h.busy hup hne] at hcom
  cases hcom

theorem Census.outstanding_pos (h : Census P s) {p op : Nat} (hp : (s.proc p).op? = some op) :
    s.outstanding ≠ 0 := by
  rw [← h.card]
  exact Finset.card_ne_zero_of_mem ((h.mem p).2 ⟨op, hp⟩)

/-- An operation is only on its way in the phase `running`. -/
theorem Census.running_of_op (h : Census P s) (hup : s.phase.up = true) {p op : Nat}
    (hp : (s.proc p).op? = some op) : s.phase = .running := by
  refine h.running hup ?_
  rw [← Bool.not_eq_true]
  exact fun hcom => h.outstanding_pos hp (h.alone hcom)

theorem Census.none_of_commit (h : Census P s) (hup : s.phase.up = true)
    (hne : s.phase ≠ .running) (p : Nat) : (s.proc p).op? = none := by
  cases hp : (s.proc p).op? with
  | none => rfl
  | some op => exact (hne (h.running_of_op hup hp)).elim

theorem Census.admitted (h : Census P s) {p : Nat} (hup : s.phase.up = true)
    (hidle : s.proc p = .idle) (hcom : s.committing = false) :
    p ∉ P ∧ Census (insert p P) (s.grant p) := by
  have hnot : p ∉ P := by
    intro hp
    obtain ⟨op, hop⟩ := (h.mem p).1 hp
    rw [hidle] at hop
    exact Option.some_ne_none _ hop.symm
  refine ⟨hnot, fun q => ?_, ?_, fun hc => ?_, fun _ hne => ?_⟩
  · by_cases hq : q = p
    · subst hq
      simp [LogState.grant, OpState.op?]
    · simp only [LogState.grant, Finset.mem_insert, h.mem q, update_of_ne hq, hq, false_or]
  · rw [Finset.card_insert_of_notMem hnot, h.card]
    rfl
  · exact Bool.noConfusion (hcom.symm.trans hc)
  · exact (hne (h.running hup hcom)).elim

theorem Census.leave (h : Census P s) {p op : Nat} (hop : s.proc p = .inOp op)
    (hcom : s.committing = false) : p ∈ P ∧ Census (P.erase p) (s.leave p) := by
  have hmem : p ∈ P := (h.mem p).2 ⟨op, by rw [hop]; rfl⟩
  refine ⟨hmem, fun q => ?_, ?_, fun hc => Bool.noConfusion (hcom.symm.trans hc), h.busy⟩
  · by_cases hq : q = p
    · subst hq
      simp [LogState.leave, OpState.op?]
    · simp only [LogState.leave, Finset.mem_erase, h.mem q, update_of_ne hq, ne_eq, hq,
        not_false_iff, true_and]
  · rw [Finset.card_erase_of_mem hmem, h.card]
    rfl

theorem Census.keep (h : Census P s) (hproc : ∀ q, (s'.proc q).op? = (s.proc q).op?)
    (hout : s'.outstanding = s.outstanding)
    (hcom : s'.committing = true → s.committing = true ∨ s.outstanding = 0)
    (hbusy : s'.phase.up = true → s'.phase ≠ .running → s'.committing = true) : Census P s' where
  mem q := by rw [h.mem q, hproc q]
  card := by rw [h.card, hout]
  alone hc := by
    rw [hout]
    exact (hcom hc).elim h.alone id
  busy := hbusy

theorem census_empty (hproc : ∀ p, s.proc p = .idle) (hout : s.outstanding = 0)
    (hbusy : s.phase.up = true → s.phase ≠ .running → s.committing = true) : Census ∅ s where
  mem p := by simp [hproc p, OpState.op?]
  card := by rw [hout]; rfl
  alone _ := hout
  busy := hbusy

/-! ### The header as a list of blocks -/

theorem LogHeader.add_spec (lh : LogHeader) (b : Nat) :
    ((∃ i, i < lh.n ∧ lh.block i = b) ∧ lh.add b = lh) ∨
      ((∀ i, i < lh.n → lh.block i ≠ b) ∧
        lh.add b = { n := lh.n + 1, block := update lh.block lh.n b }) := by
  unfold LogHeader.add
  cases hfind : firstSlot lh.n fun i => decide (lh.block i = b) with
  | some i =>
    obtain ⟨hi, hb⟩ := firstSlot_some hfind
    rw [decide_eq_true_eq] at hb
    refine .inl ⟨⟨i, hi, hb⟩, ?_⟩
    dsimp only
    rw [← hb, update_eq_self]
  | none => grind [firstSlot_none]

theorem LogHeader.mem_add (lh : LogHeader) (b c : Nat) :
    (∃ i, i < (lh.add b).n ∧ (lh.add b).block i = c) ↔
      c = b ∨ ∃ i, i < lh.n ∧ lh.block i = c := by
  rcases lh.add_spec b with ⟨hmem, heq⟩ | ⟨-, heq⟩
  · grind
  · rw [heq]
    dsimp only
    constructor
    · grind
    · rintro (rfl | ⟨i, hi, hc⟩)
      · exact ⟨lh.n, Nat.lt_succ_self _, update_self _ _ _⟩
      · exact ⟨i, Nat.lt_succ_of_lt hi, by rw [update_of_ne (by omega)]; exact hc⟩

end CowPaging
