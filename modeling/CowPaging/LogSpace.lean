import CowPaging.Log
import Mathlib.Algebra.BigOperators.Group.Finset.Basic
import Mathlib.Algebra.Order.BigOperators.Group.Finset

/-!
# Log space

`begin_op` admits an operation while `log.lh.n + (outstanding + 1) * MAXOPBLOCKS`
is at most `LOGSIZE`; `log_write` stops the kernel when the header already has
`log.size - 1` entries, and it tests that before it looks for an entry to absorb the
block. `mkfs` makes a log of `LOGSIZE` blocks, one of which is the header, so three
operations that use all of their `MAXOPBLOCKS` blocks do not fit. They fit when every
operation keeps to one block less: then the entries and the blocks still open to
the outstanding operations stay below the limit of `log_write`.
-/

namespace CowPaging

open Bytes SlotTable
open Function (update_of_ne update_self update)

/-! ### What an operation has logged -/

/-- The blocks that operation `op` has logged. -/
def blocksOf (history : List LogUpdate) (op : Nat) : Finset Nat :=
  ((history.filter fun u => u.op == op).map LogUpdate.block).toFinset

theorem mem_blocksOf {history : List LogUpdate} {op b : Nat} :
    b ∈ blocksOf history op ↔ ∃ u ∈ history, u.op = op ∧ u.block = b := by
  simp [blocksOf, and_assoc]

theorem blocksOf_append (history : List LogUpdate) (u : LogUpdate) (op : Nat) :
    blocksOf (history ++ [u]) op =
      if u.op = op then insert u.block (blocksOf history op) else blocksOf history op := by
  grind [mem_blocksOf]

/-- Without crash; a `log_write` keeps its operation to `k` different blocks. -/
def withinBlocks (k : Nat) (s : LogState) : LogEvent → Bool
  | .test p b _ =>
    match s.proc p with
    | .inOp op => (insert b (blocksOf s.history op)).card ≤ k
    | _ => true
  | .crash => false
  | .recover => false
  | _ => true

/-- `recover_from_log` found nothing to do. -/
def LogState.ready (disk : Nat → Page) : LogState :=
  { LogState.init disk with phase := .running }

/-- How many blocks the operation of process `p` has logged. -/
def usedBy (proc : Nat → OpState) (history : List LogUpdate) (p : Nat) : Nat :=
  match (proc p).op? with
  | some op => (blocksOf history op).card
  | none => 0

/-! ### The invariant -/

/-- The processes in `P` are in an operation. The entries of the header and the
    blocks these operations may still log stay below the limit of `log_write`. -/
structure Reserved (P : Finset Nat) (s : LogState) : Prop where
  census : Census P s
  logged : ∀ u ∈ s.history, u.op < s.nextOp
  begun : ∀ p op, (s.proc p).op? = some op → op < s.nextOp
  inj : ∀ p q op, (s.proc p).op? = some op → (s.proc q).op? = some op → p = q
  entry : ∀ p op b, (s.proc p).op? = some op → b ∈ blocksOf s.history op →
    ∃ i, i < s.lh.n ∧ s.lh.block i = b
  used : ∀ p, usedBy s.proc s.history p ≤ MAXOPBLOCKS - 1
  pending : ∀ p op b data seen, s.proc p = .tested op b data seen →
    (insert b (blocksOf s.history op)).card ≤ MAXOPBLOCKS - 1
  room : s.lh.n + (MAXOPBLOCKS - 1) * s.outstanding ≤
    LOGSIZE - 2 + ∑ p ∈ P, usedBy s.proc s.history p
  empty : s.phase = .running ∨ s.phase = .finish → s.outstanding = 0 → s.lh.n = 0
  fits : s.phase ≠ .panicked .tooBig

variable {P : Finset Nat} {s s' : LogState} {r : LogRegion}

theorem Reserved.below (h : Reserved P s) : s.lh.n ≤ LOGSIZE - 2 := by
  have hsum : ∑ p ∈ P, usedBy s.proc s.history p ≤ P.card * (MAXOPBLOCKS - 1) :=
    Finset.sum_le_card_nsmul P _ _ fun p _ => h.used p
  have hroom := h.room
  rw [h.census.card] at hsum
  simp only [MAXOPBLOCKS, LOGSIZE] at *
  omega

theorem reserved_ready (disk : Nat → Page) : Reserved ∅ (LogState.ready disk) where
  census := census_empty (fun _ => rfl) rfl fun _ hne => absurd rfl hne
  logged u hu := by simp [LogState.ready, LogState.init] at hu
  begun p op hp := by simp [LogState.ready, LogState.init, OpState.op?] at hp
  inj p q op hp := by simp [LogState.ready, LogState.init, OpState.op?] at hp
  entry p op b hp := by simp [LogState.ready, LogState.init, OpState.op?] at hp
  used p := by simp [usedBy, LogState.ready, LogState.init, OpState.op?]
  pending p op b data seen hp := by simp [LogState.ready, LogState.init] at hp
  room := by simp [LogState.ready, LogState.init, LOGSIZE, MAXOPBLOCKS]
  empty _ _ := rfl
  fits := by simp [LogState.ready, LogState.init]

section

variable {proc proc' : Nat → OpState} {history : List LogUpdate} {p op : Nat}

theorem usedBy_of_op (hp : (proc p).op? = some op) :
    usedBy proc history p = (blocksOf history op).card := by
  rw [usedBy, hp]

theorem usedBy_congr (hop : (proc' p).op? = (proc p).op?) :
    usedBy proc' history p = usedBy proc history p := by
  rw [usedBy, usedBy, hop]

end

/-- `begin_op`. -/
theorem Reserved.admitted {p : Nat} (h : Reserved P s) (hup : s.phase.up = true)
    (hidle : s.proc p = .idle) (hcom : s.committing = false)
    (hadm : s.lh.n + (s.outstanding + 1) * MAXOPBLOCKS ≤ LOGSIZE) :
    Reserved (insert p P) (s.grant p) := by
  have hrun := h.census.running hup hcom
  obtain ⟨hnot, hcensus⟩ := h.census.admitted hup hidle hcom
  have hnone : blocksOf s.history s.nextOp = ∅ := by
    refine Finset.eq_empty_of_forall_notMem fun b hb => ?_
    obtain ⟨u, hu, hop, -⟩ := mem_blocksOf.1 hb
    have := h.logged u hu
    omega
  -- the other processes are where they were
  have hother : ∀ q, q ≠ p → (update s.proc p (.inOp s.nextOp) q).op? =
      (s.proc q).op? := fun q hq => by rw [update_of_ne hq]
  have hself : (update s.proc p (.inOp s.nextOp) p).op? = some s.nextOp := by
    rw [update_self]
    rfl
  refine ⟨hcensus, ?_, ?_, ?_, ?_, ?_, ?_, ?_, fun _ hout => absurd hout (Nat.succ_ne_zero _),
    h.fits⟩
  · exact fun u hu => Nat.lt_succ_of_lt (h.logged u hu)
  · intro q op hop
    by_cases hq : q = p
    · subst hq
      rw [← Option.some.inj (hself.symm.trans hop)]
      exact Nat.lt_succ_self _
    · exact Nat.lt_succ_of_lt (h.begun q op ((hother q hq).symm.trans hop))
  · intro q q' op hop hop'
    by_cases hq : q = p <;> by_cases hq' : q' = p
    · rw [hq, hq']
    · subst hq
      have := h.begun q' op ((hother q' hq').symm.trans hop')
      rw [← Option.some.inj (hself.symm.trans hop)] at this
      omega
    · subst hq'
      have := h.begun q op ((hother q hq).symm.trans hop)
      rw [← Option.some.inj (hself.symm.trans hop')] at this
      omega
    · exact h.inj q q' op ((hother q hq).symm.trans hop) ((hother q' hq').symm.trans hop')
  · intro q op b hop hb
    simp only [LogState.grant] at hb ⊢
    by_cases hq : q = p
    · subst hq
      rw [← Option.some.inj (hself.symm.trans hop), hnone] at hb
      exact absurd hb (Finset.notMem_empty b)
    · exact h.entry q op b ((hother q hq).symm.trans hop) hb
  · intro q
    simp only [LogState.grant]
    by_cases hq : q = p
    · grind [usedBy_of_op]
    · rw [usedBy_congr (hother q hq)]
      exact h.used q
  · intro q op b data seen hq
    simp only [LogState.grant] at hq
    by_cases hqp : q = p
    · grind
    · rw [update_of_ne hqp] at hq
      exact h.pending q op b data seen hq
  · have hsum : ∑ q ∈ P, usedBy (update s.proc p (.inOp s.nextOp)) s.history q =
        ∑ q ∈ P, usedBy s.proc s.history q := by
      exact Finset.sum_congr rfl fun q hq => usedBy_congr (hother q (ne_of_mem_of_not_mem hq hnot))
    simp only [LogState.grant]
    rw [Finset.sum_insert hnot, usedBy_of_op hself, hnone, Finset.card_empty, hsum]
    have hzero := h.empty (.inl hrun)
    simp only [MAXOPBLOCKS, LOGSIZE] at *
    omega

/-- The size test of `log_write`: passed, with a block that the operation may log. -/
theorem Reserved.tested {p op b : Nat} {data : Page} (h : Reserved P s)
    (hop : s.proc p = .inOp op)
    (hok : (insert b (blocksOf s.history op)).card ≤ MAXOPBLOCKS - 1) :
    Reserved P { s with proc := update s.proc p (.tested op b data s.lh.n) } := by
  have hsame : ∀ q, (update s.proc p (.tested op b data s.lh.n) q).op? =
      (s.proc q).op? := by
    intro q
    by_cases hq : q = p
    · subst hq
      rw [update_self, hop]
      rfl
    · rw [update_of_ne hq]
  refine ⟨h.census.keep hsame rfl .inl h.census.busy, h.logged, fun q o hq => ?_,
    fun q q' o hq hq' => ?_, fun q o c hq hc => ?_, fun q => ?_, ?_, ?_, h.empty, h.fits⟩
  · exact h.begun q o ((hsame q).symm.trans hq)
  · exact h.inj q q' o ((hsame q).symm.trans hq) ((hsame q').symm.trans hq')
  · exact h.entry q o c ((hsame q).symm.trans hq) hc
  · rw [usedBy_congr (hsame q)]
    exact h.used q
  · intro q o c d k hq
    dsimp only at hq
    by_cases hqp : q = p
    · grind
    · rw [update_of_ne hqp] at hq
      exact h.pending q o c d k hq
  · rw [Finset.sum_congr rfl fun q _ => usedBy_congr (hsame q)]
    exact h.room

/-- The rest of `log_write`. -/
theorem Reserved.record {p op b seen : Nat} {data : Page} (h : Reserved P s)
    (hop : s.proc p = .tested op b data seen) :
    Reserved P (s.record p op b data) := by
  have hself : (s.proc p).op? = some op := by rw [hop]; rfl
  have hpP : p ∈ P := (h.census.mem p).2 ⟨op, hself⟩
  have hpend := h.pending p op b data seen hop
  have hsame : ∀ q, (update s.proc p (.inOp op) q).op? = (s.proc q).op? := by
    intro q
    by_cases hq : q = p
    · subst hq
      rw [update_self, hop]
      rfl
    · rw [update_of_ne hq]
  -- only the blocks of `op` change
  have hblocks : blocksOf (s.history ++ [⟨op, b, data⟩]) op = insert b (blocksOf s.history op) := by
    rw [blocksOf_append, if_pos rfl]
  have hothers : ∀ o, o ≠ op → blocksOf (s.history ++ [⟨op, b, data⟩]) o = blocksOf s.history o :=
    fun o ho => by rw [blocksOf_append, if_neg (Ne.symm ho)]
  have hused : ∀ q, q ≠ p →
      usedBy (update s.proc p (.inOp op)) (s.history ++ [⟨op, b, data⟩]) q =
        usedBy s.proc s.history q := by
    intro q hq
    rw [usedBy_congr (hsame q), usedBy, usedBy]
    cases hqo : (s.proc q).op? with
    | none => rfl
    | some o =>
      have hne : o ≠ op := by
        rintro rfl
        exact hq (h.inj q p o hqo hself)
      exact congrArg Finset.card (hothers o hne)
  have husedp : usedBy (update s.proc p (.inOp op)) (s.history ++ [⟨op, b, data⟩]) p =
      (insert b (blocksOf s.history op)).card := by
    rw [usedBy_of_op ((hsame p).trans hself), hblocks]
  refine ⟨h.census.keep hsame rfl .inl h.census.busy, ?_,
    fun q o hq => h.begun q o ((hsame q).symm.trans hq),
    fun q q' o hq hq' => h.inj q q' o ((hsame q).symm.trans hq) ((hsame q').symm.trans hq'),
    ?_, ?_, ?_, ?_, fun _ hzero => absurd hzero (h.census.outstanding_pos hself), h.fits⟩
  · intro u hu
    rcases List.mem_append.1 hu with hu | hu
    · exact h.logged u hu
    · rw [List.mem_singleton.1 hu]
      exact h.begun p op hself
  · intro q o c hq hc
    have hqo : (s.proc q).op? = some o := (hsame q).symm.trans hq
    refine (s.lh.mem_add b c).2 ?_
    by_cases ho : o = op
    · subst ho
      rcases Finset.mem_insert.1 (hblocks ▸ hc) with hcb | hc
      · exact .inl hcb
      · exact .inr (h.entry q o c hqo hc)
    · exact .inr (h.entry q o c hqo (hothers o ho ▸ hc))
  · intro q
    by_cases hq : q = p
    · subst hq
      exact husedp ▸ hpend
    · exact hused q hq ▸ h.used q
  · intro q o c d k hq
    have hqp : q ≠ p := by
      rintro rfl
      simp only [LogState.record, update_self] at hq
      cases hq
    simp only [LogState.record, update_of_ne hqp] at hq
    have ho : o ≠ op := by
      rintro rfl
      exact hqp (h.inj q p o (by rw [hq]; rfl) hself)
    exact hothers o ho ▸ h.pending q o c d k hq
  · have hsum : ∑ q ∈ P.erase p,
        usedBy (update s.proc p (.inOp op)) (s.history ++ [⟨op, b, data⟩]) q =
        ∑ q ∈ P.erase p, usedBy s.proc s.history q :=
      Finset.sum_congr rfl fun q hq => hused q (Finset.ne_of_mem_erase hq)
    have hroom := h.room
    rw [← Finset.add_sum_erase P _ hpP, usedBy_of_op hself] at hroom
    rw [← Finset.add_sum_erase P _ hpP]
    refine Nat.le_trans ?_ (Nat.add_le_add_left (Nat.add_le_add (Nat.le_of_eq husedp.symm)
      (Nat.le_of_eq hsum.symm)) _)
    -- a new entry of the header is a new block of the operation
    rcases s.lh.add_spec b with ⟨-, heq⟩ | ⟨hnew, heq⟩
    · simp only [LogState.record, heq]
      have hle := Finset.card_le_card (Finset.subset_insert b (blocksOf s.history op))
      omega
    · simp only [LogState.record, heq]
      have hnot : b ∉ blocksOf s.history op := fun hb => by grind [h.entry]
      rw [Finset.card_insert_of_notMem hnot]
      omega

/-- `end_op`: the operation gives back what it did not use. -/
theorem Reserved.leave {p op : Nat} (h : Reserved P s) (hop : s.proc p = .inOp op)
    (hproc : s'.proc = update s.proc p .idle)
    (hhist : s'.history = s.history) (hnext : s'.nextOp = s.nextOp)
    (hout : s'.outstanding = s.outstanding - 1) (hlh : s'.lh = s.lh)
    (hcensus : Census (P.erase p) s')
    (hempty : s'.phase = .running ∨ s'.phase = .finish → s'.outstanding = 0 → s'.lh.n = 0)
    (hfits : s'.phase ≠ .panicked .tooBig) : Reserved (P.erase p) s' := by
  have hpP : p ∈ P := (h.census.mem p).2 ⟨op, by rw [hop]; rfl⟩
  have hnone : (update s.proc p .idle p).op? = none := by
    rw [update_self]
    rfl
  have hother : ∀ q, q ≠ p → (update s.proc p .idle q).op? = (s.proc q).op? :=
    fun q hq => by rw [update_of_ne hq]
  have hkeep : ∀ q o, (update s.proc p .idle q).op? = some o →
      q ≠ p ∧ (s.proc q).op? = some o := by grind
  refine ⟨hcensus, ?_, ?_, ?_, ?_, fun q => ?_, ?_, ?_, hempty, hfits⟩ <;>
    simp only [hproc, hhist, hnext, hout, hlh]
  · exact h.logged
  · exact fun q o hq => h.begun q o (hkeep q o hq).2
  · exact fun q q' o hq hq' => h.inj q q' o (hkeep q o hq).2 (hkeep q' o hq').2
  · exact fun q o b hq hb => h.entry q o b (hkeep q o hq).2 hb
  · by_cases hqp : q = p
    · grind [usedBy]
    · rw [usedBy_congr (hother q hqp)]
      exact h.used q
  · intro q o b data seen hq
    have hqp := (hkeep q o (congrArg OpState.op? hq)).1
    rw [update_of_ne hqp] at hq
    exact h.pending q o b data seen hq
  · have hsum : ∑ q ∈ P.erase p, usedBy (update s.proc p .idle) s.history q =
        ∑ q ∈ P.erase p, usedBy s.proc s.history q :=
      Finset.sum_congr rfl fun q hq => usedBy_congr (hother q (Finset.ne_of_mem_erase hq))
    have hroom := h.room
    rw [← Finset.add_sum_erase P _ hpP] at hroom
    rw [hsum]
    have hone : 0 < s.outstanding := by
      rw [← h.census.card]
      exact Finset.card_pos.2 ⟨p, hpP⟩
    have hused := h.used p
    simp only [MAXOPBLOCKS] at *
    omega

theorem Reserved.kernel (h : Reserved P s) (hproc : s'.proc = s.proc)
    (hhist : s'.history = s.history) (hop : s'.nextOp = s.nextOp)
    (hout : s'.outstanding = s.outstanding) (hlh : s'.lh = s.lh ∨ (s.outstanding = 0 ∧ s'.lh.n = 0))
    (hempty : s'.phase = .running ∨ s'.phase = .finish → s'.outstanding = 0 → s'.lh.n = 0)
    (hcom : s'.committing = true → s.committing = true ∨ s.outstanding = 0)
    (hbusy : s'.phase.up = true → s'.phase ≠ .running → s'.committing = true)
    (hfits : s'.phase ≠ .panicked .tooBig) : Reserved P s' where
  census := h.census.keep (fun q => by rw [hproc]) hout hcom hbusy
  logged := by rw [hhist, hop]; exact h.logged
  begun := by rw [hproc, hop]; exact h.begun
  inj := by rw [hproc]; exact h.inj
  entry p op b hp hb := by
    rw [hproc] at hp
    rw [hhist] at hb
    rcases hlh with hlh | ⟨hzero, -⟩
    · rw [hlh]
      exact h.entry p op b hp hb
    · exact absurd hzero (h.census.outstanding_pos hp)
  used := by rw [hproc, hhist]; exact h.used
  pending := by rw [hproc, hhist]; exact h.pending
  room := by
    have hroom := h.room
    rw [hproc, hhist, hout]
    rcases hlh with hlh | ⟨hzero, hn⟩
    · rwa [hlh]
    · rw [hn]
      omega
  empty := hempty
  fits := hfits

theorem Reserved.step (h : Reserved P s) {e : LogEvent}
    (hok : withinBlocks (MAXOPBLOCKS - 1) s e = true) (hstep : LogStep mkfsLog s e s') :
    ∃ P', Reserved P' s' := by
  have hbelow := h.below
  cases hstep with
  | stay => exact ⟨P, h⟩
  | admitted hup hidle hcom hadm => exact ⟨_, h.admitted hup hidle hcom hadm⟩
  | tooBig hup hop hbig =>
    simp only [mkfsLog, LOGSIZE, MAXOPBLOCKS] at hbig hbelow
    omega
  | outside hup hop =>
    exact ⟨P, h.kernel rfl rfl rfl rfl (.inl rfl) (by simp)
      .inl (fun hu => Bool.noConfusion hu) (by simp)⟩
  | tested hup hop =>
    simp only [withinBlocks, hop, decide_eq_true_eq] at hok
    exact ⟨P, h.tested hop hok⟩
  | record hup hop => exact ⟨P, h.record hop⟩
  | locked hup hop hcom =>
    exact ⟨P, h.kernel rfl rfl rfl rfl (.inl rfl) (by simp)
      .inl (fun hu => Bool.noConfusion hu) (by simp)⟩
  | @close p op hup hop hcom hzero =>
    have hcensus := (h.census.leave hop hcom).2
    refine ⟨P.erase p, h.leave hop rfl rfl rfl rfl rfl
      (hcensus.keep (fun _ => rfl) rfl (fun _ => .inr hzero) fun _ _ => rfl) ?_ ?_⟩
    · dsimp only
      split
      · simp
      · next hpos => exact fun _ _ => Nat.eq_zero_of_not_pos hpos
    · dsimp only
      split <;> simp
  | @leave p op hup hop hcom hne =>
    exact ⟨P.erase p, h.leave hop rfl rfl rfl rfl rfl (h.census.leave hop hcom).2
      (fun _ hzero => absurd hzero hne) h.fits⟩
  | logBlock hphase _ =>
    have hcom := h.census.busy (by rw [hphase]; rfl) (by rw [hphase]; simp)
    exact ⟨P, h.kernel rfl rfl rfl rfl (.inl rfl) (by simp)
      .inl (fun _ _ => hcom) (by simp)⟩
  | header hphase _ =>
    have hcom := h.census.busy (by rw [hphase]; rfl) (by rw [hphase]; simp)
    exact ⟨P, h.kernel rfl rfl rfl rfl (.inl rfl) (by simp)
      .inl (fun _ _ => hcom) (by simp)⟩
  | install hphase _ =>
    have hcom := h.census.busy (by rw [hphase]; rfl) (by rw [hphase]; simp)
    exact ⟨P, h.kernel rfl rfl rfl rfl (.inl rfl) (by simp)
      .inl (fun _ _ => hcom) (by simp)⟩
  | clear hphase _ =>
    have hcom := h.census.busy (by rw [hphase]; rfl) (by rw [hphase]; simp)
    exact ⟨P, h.kernel rfl rfl rfl rfl (.inr ⟨h.census.alone hcom, rfl⟩)
      (fun _ _ => rfl) .inl (fun _ _ => hcom) (by simp)⟩
  | finish hphase =>
    exact ⟨P, h.kernel rfl rfl rfl rfl (.inl rfl) (fun _ hout => h.empty (.inr hphase) hout)
      (fun hc => Bool.noConfusion hc) (fun _ hne => absurd rfl hne) (by simp)⟩
  | crash => cases hok
  | load => cases hok
  | reinstall => cases hok
  | restart => cases hok

/-- As long as every operation logs at most `MAXOPBLOCKS - 1` different blocks, no
    `log_write` finds the log full and the header never has more entries than the log
    has data blocks. -/
theorem log_reservation_suffices (disk : Nat → Page) (s : LogState)
    (hreach : LogReach mkfsLog (fun t e => withinBlocks (MAXOPBLOCKS - 1) t e = true)
      (LogState.ready disk) s) :
    s.phase ≠ .panicked .tooBig ∧ s.lh.n ≤ mkfsLog.size - 1 := by
  obtain ⟨P, h⟩ := hreach.invariant (fun t => ∃ P, Reserved P t) ⟨∅, reserved_ready disk⟩
    (fun _ _ _ ⟨_, ha⟩ hok hstep => ha.step hok hstep)
  refine ⟨h.fits, ?_⟩
  have hbelow := h.below
  simp only [mkfsLog, LOGSIZE, MAXOPBLOCKS] at hbelow ⊢
  omega

/-- `count` processes begin an operation, then each logs `blocks` blocks of its own. -/
def fullOperations (count blocks : Nat) : List LogEvent :=
  (List.range count).map LogEvent.beginOp ++
    (List.range count).flatMap fun p => (List.range blocks).flatMap fun i =>
      [.test p (100 + p * blocks + i) fun _ => 0, .record p]

theorem log_reservation_suffices_nine : ∃ s,
    LogState.run mkfsLog (withinBlocks (MAXOPBLOCKS - 1)) (LogState.ready fun _ _ => 0)
      (fullOperations 3 9) = some s ∧ s.lh.n = 27 ∧
    s.phase ≠ .panicked .tooBig ∧ s.lh.n ≤ mkfsLog.size - 1 := by
  have hn : (LogState.run mkfsLog (withinBlocks (MAXOPBLOCKS - 1)) (LogState.ready fun _ _ => 0)
      (fullOperations 3 9)).map (fun s => s.lh.n) = some 27 := by decide +kernel
  obtain ⟨s, hs, hlen⟩ := Option.map_eq_some_iff.1 hn
  exact ⟨s, hs, hlen, log_reservation_suffices _ s (LogReach.of_run .refl hs)⟩

/-- Three operations within `MAXOPBLOCKS` blocks each, all of which `begin_op` admits:
    the thirtieth `log_write` stops the kernel. -/
theorem full_operations_panic : ∃ s,
    LogReach mkfsLog (fun t e => withinBlocks MAXOPBLOCKS t e = true)
      (LogState.ready fun _ _ => 0) s ∧ s.phase = .panicked .tooBig := by
  have hphase : (LogState.run mkfsLog (withinBlocks MAXOPBLOCKS) (LogState.ready fun _ _ => 0)
      (fullOperations 3 10)).map LogState.phase = some (.panicked .tooBig) := by decide +kernel
  obtain ⟨s, hs, hp⟩ := Option.map_eq_some_iff.1 hphase
  exact ⟨s, LogReach.of_run .refl hs, hp⟩

end CowPaging
