import CowPaging.PipeCalls

/-!
# Pipes lose no byte and no wake-up

A pipe is a queue: what reads return is, in order, what writes stored, for every
interleaving and also after the counters have wrapped around. A process asleep on the
pipe has a reason to be: readers sleep on an empty pipe and writers on a full one,
unless a process that holds the lock is still to call `wakeup`. Only one exit of the
code does not call it, that of a killed `pipewrite`.
-/

namespace CowPaging

open Bytes Fifo
open Function (update_of_ne update_self update_apply update_eq_self update)

variable {s : PipeState} {p q : Nat} {pc : PipePc}

theorem PIPESIZE_lt : PIPESIZE < 2 ^ 32 := by decide

theorem PIPESIZE_dvd : PIPESIZE ∣ 2 ^ 32 := by decide

/-! ### The queue -/

/-- What a `piperead` has copied and not yet returned. -/
def PipePc.got : PipePc → List Byte
  | .readLoop _ got | .readEnd _ got | .readRelease _ got => got
  | _ => []

/-- The bytes copied by the process that holds the lock. -/
def PipeState.copied (s : PipeState) : List Byte :=
  match s.lock with
  | some p => (s.pc p).got
  | none => []

/-- The ring of the pipe holds `l`. -/
def PipeBuf.Holds (pi : PipeBuf) (l : List Byte) : Prop :=
  Fifo.Holds PIPESIZE pi.data pi.nread pi.nwrite l

variable {pi : PipeBuf} {l : List Byte}

theorem PipeBuf.Holds.empty_iff (h : pi.Holds l) : pi.empty = true ↔ l = [] := by
  rw [PipeBuf.empty, beq_iff_eq]
  exact h.head_eq_tail_iff PIPESIZE_lt

theorem PipeBuf.Holds.full_iff (h : pi.Holds l) : pi.full = true ↔ l.length = PIPESIZE := by
  rw [PipeBuf.full, beq_iff_eq]
  exact Fifo.Holds.full_iff h PIPESIZE_lt

theorem PipeBuf.Holds.store (h : pi.Holds l) (hroom : pi.full = false) (b : Byte) :
    (pi.store b).Holds (l ++ [b]) := by
  apply Fifo.Holds.push h PIPESIZE_dvd
  refine lt_of_le_of_ne h.length fun heq => ?_
  rw [h.full_iff.mpr heq] at hroom
  simp at hroom

theorem PipeBuf.Holds.drop (h : pi.Holds l) (hsome : pi.empty = false) :
    ∃ rest, l = pi.front :: rest ∧ pi.drop.Holds rest := by
  cases l with
  | nil =>
    rw [h.empty_iff.mpr rfl] at hsome
    simp at hsome
  | cons b rest => exact ⟨rest, by rw [PipeBuf.front, Fifo.Holds.front h], h.pop PIPESIZE_dvd⟩

/-- What a process has found out under the lock. -/
def PipePc.Knows (pi : PipeBuf) : PipePc → Prop
  | .writeCheck _ _ => pi.full = true
  | .writeWake _ _ | .writeSleep _ _ => pi.full = true ∧ pi.readopen = true
  | .readCheck _ | .readSleep _ => pi.empty = true ∧ pi.writeopen = true
  | .readLoop _ got => got = [] → pi.empty = false ∨ pi.writeopen = false
  | .readEnd n got | .readRelease n got =>
    got = [] → 0 < n → pi.empty = true ∧ pi.writeopen = false
  | _ => True

/-- The channel on which a process sleeps that waits to acquire the lock again. -/
def PipePc.chan? : PipePc → Option PipeChan
  | .writeAcquire _ _ => some .nwrite
  | .readAcquire _ => some .nread
  | _ => none

structure PipeInv (s : PipeState) : Prop where
  /-- One process at a time is inside. -/
  lock : ∀ p, (s.pc p).inside = true ↔ s.lock = some p
  chan : ∀ p c, s.asleep p = some c → (s.pc p).chan? = some c
  knows : ∀ p, (s.pc p).Knows s.pipe
  queue : ∃ l, s.pipe.Holds l ∧ s.stored = s.reads.flatten ++ s.copied ++ l

theorem PipePc.knows_of_outside (h : pc.inside = false) : pc.Knows pi := by
  cases pc <;> trivial

theorem PipePc.outside_of_chan {c : PipeChan} (h : pc.chan? = some c) : pc.inside = false := by
  cases pc <;> first | rfl | exact absurd h (by simp [PipePc.chan?])

theorem PipeInv.init (p : Nat) (data : Nat → Byte) : PipeInv (PipeState.init p data) where
  lock q := by simp [PipeState.init, PipePc.inside]
  chan q c h := by simp [PipeState.init] at h
  knows q := trivial
  queue := ⟨[], Fifo.Holds.empty _ _ _, rfl⟩

theorem PipeInv.copied_eq (h : PipeInv s) (hp : (s.pc p).inside = true) :
    s.copied = (s.pc p).got := by
  rw [PipeState.copied, (h.lock p).mp hp]

theorem PipeInv.outside (h : PipeInv s) (hp : (s.pc p).inside = true) (hq : q ≠ p) :
    (s.pc q).inside = false := by grind [h.lock]

variable {old : PipePc} {asleep : Nat → Option PipeChan}

theorem PipeInv.move {pipe : PipeBuf} {stored : List Byte} (h : PipeInv s) (hold : s.pc p = old)
    (hin : old.inside = true) (hpc : pc.inside = true)
    (hasleep : ∀ q c, asleep q = some c → s.asleep q = some c) (hknows : pc.Knows pipe)
    (hqueue : ∃ l, pipe.Holds l ∧ stored = s.reads.flatten ++ pc.got ++ l) :
    PipeInv { s with
      pipe := pipe, asleep := asleep, stored := stored, pc := update s.pc p pc } := by
  rw [← hold] at hin
  have hlock : s.lock = some p := (h.lock p).mp hin
  refine ⟨?_, ?_, ?_, ?_⟩
  · grind [update_apply, h.lock]
  · intro q c hq
    have hchan := h.chan q c (hasleep q c hq)
    have hne : q ≠ p := by grind [PipePc.outside_of_chan]
    simpa only [update_of_ne hne] using hchan
  · intro q
    by_cases hq : q = p
    · grind
    · simp only [update_of_ne hq]
      exact PipePc.knows_of_outside (h.outside hin hq)
  · simpa [PipeState.copied, hlock] using hqueue

/-- As `PipeInv.move`, for a statement that leaves the pipe alone. -/
theorem PipeInv.goto (h : PipeInv s) (hold : s.pc p = old) (hin : old.inside = true)
    (hpc : pc.inside = true) (hasleep : ∀ q c, asleep q = some c → s.asleep q = some c)
    (hgot : pc.got = old.got) (hknows : pc.Knows s.pipe) :
    PipeInv { s with asleep := asleep, pc := update s.pc p pc } := by
  obtain ⟨l, hl, hstored⟩ := h.queue
  rw [h.copied_eq (by rw [hold, hin]), hold, ← hgot] at hstored
  exact h.move hold hin hpc hasleep hknows ⟨l, hl, hstored⟩

theorem PipeInv.unlock {ret : Nat → Int} {reads : List (List Byte)} (h : PipeInv s)
    (hold : s.pc p = old) (hin : old.inside = true) (hpc : pc.inside = false)
    (hasleep : ∀ q c, asleep q = some c → s.asleep q = some c ∨ q = p ∧ pc.chan? = some c)
    (hreads : reads.flatten = s.reads.flatten ++ old.got) :
    PipeInv { s with
      lock := none, asleep := asleep, ret := ret, reads := reads,
      pc := update s.pc p pc } := by
  have hin' : (s.pc p).inside = true := by rw [hold, hin]
  refine ⟨?_, ?_, ?_, ?_⟩
  · intro q
    by_cases hq : q = p
    · subst hq
      simp [hpc]
    · simp [update_of_ne hq, h.outside hin' hq]
  · intro q c hq
    obtain hawake | ⟨rfl, hchan⟩ := hasleep q c hq
    · grind [h.chan, PipePc.outside_of_chan, update_apply]
    · simpa only [update_self] using hchan
  · intro q
    by_cases hq : q = p
    · subst hq
      simpa only [update_self] using PipePc.knows_of_outside hpc
    · simpa only [update_of_ne hq] using h.knows q
  · obtain ⟨l, hl, hstored⟩ := h.queue
    refine ⟨l, hl, ?_⟩
    rw [h.copied_eq hin', hold, ← hreads] at hstored
    simpa [PipeState.copied] using hstored

theorem PipeInv.leave (h : PipeInv s) (hold : s.pc p = old) (hin : old.inside = true)
    (hgot : old.got = []) (r : Int) : PipeInv (s.leave p r) :=
  h.unlock hold hin rfl (fun _ _ hq => .inl hq) (by rw [hgot, List.append_nil]; rfl)

theorem PipeInv.sleep {c : PipeChan} (h : PipeInv s) (hold : s.pc p = old)
    (hin : old.inside = true) (hgot : old.got = []) (hchan : pc.chan? = some c) :
    PipeInv (s.sleep p c pc) := by
  refine h.unlock hold hin (PipePc.outside_of_chan hchan) ?_ (by rw [hgot, List.append_nil]; rfl)
  intro q c' hq
  by_cases hqp : q = p
  · grind
  · grind

theorem PipeInv.enter {lock : Option Nat} {ends : Bool → Finset Nat} (h : PipeInv s)
    (hp : (s.pc p).inside = false) (hwoken : s.asleep p = none)
    (hlock : pc.inside = false ∧ lock = s.lock ∨
      pc.inside = true ∧ s.lock = none ∧ lock = some p)
    (hknows : pc.Knows s.pipe) (hgot : pc.got = []) :
    PipeInv { s with lock := lock, ends := ends, pc := update s.pc p pc } where
  lock q := by grind [h.lock]
  chan q c hq := by grind [update_apply, h.chan]
  knows q := by grind [update_apply, h.knows]
  queue := by
    obtain ⟨l, hl, hstored⟩ := h.queue
    refine ⟨l, hl, ?_⟩
    rcases hlock with ⟨-, rfl⟩ | ⟨-, hfree, rfl⟩
    · have hcopied : PipeState.copied { s with
          ends := ends, pc := update s.pc p pc } = s.copied := by
        simp only [PipeState.copied]
        split
        · grind [h.lock]
        · rfl
      rw [hcopied]
      exact hstored
    · grind [PipeState.copied]

theorem asleep_of_wakeup {c c' : PipeChan} (h : (s.wakeup c).asleep q = some c') :
    s.asleep q = some c' ∧ c' ≠ c := by grind [PipeState.wakeup]

theorem PipeInv.step (h : PipeInv s) {s' : PipeState} {e : PipeEvent} (hs : PipeStep s e s') :
    PipeInv s' := by
  have hawake : ∀ {p}, s.pc p = .out → s.asleep p = none := by
    intro p hp
    cases hc : s.asleep p with
    | none => rfl
    | some c =>
      have hchan := h.chan p c hc
      rw [hp] at hchan
      exact absurd hchan (by simp [PipePc.chan?])
  have hknows : ∀ {p pc}, s.pc p = pc → pc.Knows s.pipe := fun hpc => hpc ▸ h.knows _
  have hqueue : ∀ {p pc}, s.pc p = pc → pc.inside = true →
      ∃ l, s.pipe.Holds l ∧ s.stored = s.reads.flatten ++ pc.got ++ l := by
    intro p pc hpc hin
    rw [← hpc, ← h.copied_eq (by rw [hpc, hin])]
    exact h.queue
  have hkeep : ∀ q c, s.asleep q = some c → s.asleep q = some c := fun _ _ h => h
  have hwake : ∀ c q c', (s.wakeup c).asleep q = some c' → s.asleep q = some c' :=
    fun c q c' hq => (asleep_of_wakeup hq).1
  cases hs with
  | stay => exact h
  | write hpc hmem => exact h.enter (by rw [hpc]; rfl) (hawake hpc) (.inl ⟨rfl, rfl⟩) trivial rfl
  | read hpc hmem => exact h.enter (by rw [hpc]; rfl) (hawake hpc) (.inl ⟨rfl, rfl⟩) trivial rfl
  | share => exact ⟨h.lock, h.chan, h.knows, h.queue⟩
  | drop => exact ⟨h.lock, h.chan, h.knows, h.queue⟩
  | close hpc hmem hlast =>
    exact h.enter (by rw [hpc]; rfl) (hawake hpc) (.inl ⟨rfl, rfl⟩) trivial rfl
  | kill p =>
    refine ⟨h.lock, ?_, h.knows, h.queue⟩
    intro q c hq
    refine h.chan q c ?_
    by_cases hqp : q = p
    · subst hqp
      simp at hq
    · simpa [update_of_ne hqp] using hq
  | acquire hwoken hfree hpc =>
    obtain ⟨addr, i, hpc, rfl⟩ | ⟨n, hpc, rfl⟩ | ⟨w, hpc, rfl⟩ := hpc <;>
      exact h.enter (by rw [hpc]; rfl) hwoken (.inr ⟨rfl, hfree, rfl⟩) trivial rfl
  | writeDone hpc => exact h.goto hpc rfl rfl hkeep rfl trivial
  | writeFull hpc hfull => exact h.goto hpc rfl rfl hkeep rfl hfull
  | @store p i addr b hpc hroom =>
    obtain ⟨l, hl, hstored⟩ := hqueue hpc rfl
    refine h.move hpc rfl rfl hkeep trivial ⟨l ++ [b], hl.store hroom b, ?_⟩
    rw [hstored]
    simp [PipePc.got]
  | writeFail hpc => exact h.leave hpc rfl rfl _
  | writeGoOn hpc hopen => exact h.goto hpc rfl rfl hkeep rfl ⟨hknows hpc, hopen⟩
  | writeWake hpc => exact h.goto hpc rfl rfl (hwake _) rfl (hknows hpc :)
  | writeSleep hpc => exact h.sleep hpc rfl rfl rfl
  | writeEnd hpc => exact h.goto hpc rfl rfl (hwake _) rfl trivial
  | writeReturn hpc => exact h.leave hpc rfl rfl _
  | readEmpty hpc hempty hopen => exact h.goto hpc rfl rfl hkeep rfl ⟨hempty, hopen⟩
  | readStart hpc hcond => exact h.goto hpc rfl rfl hkeep rfl fun _ => hcond
  | readFail hpc => exact h.leave hpc rfl rfl _
  | readGoOn hpc => exact h.goto hpc rfl rfl hkeep rfl (hknows hpc :)
  | readSleep hpc => exact h.sleep hpc rfl rfl rfl
  | @copy p n got hpc hsome =>
    obtain ⟨l, hl, hstored⟩ := hqueue hpc rfl
    obtain ⟨rest, rfl, hrest⟩ := hl.drop hsome
    refine h.move hpc rfl rfl hkeep (fun hnil => absurd hnil (by simp)) ⟨rest, hrest, ?_⟩
    simp [PipeState.goto, hstored, PipePc.got]
  | @readDone p n got hpc hend =>
    refine h.goto hpc rfl rfl hkeep rfl ?_
    -- nothing was copied, so the loop ended on an empty pipe
    intro hnil hn
    have hempty : s.pipe.empty = true := by grind
    refine ⟨hempty, ?_⟩
    rcases hknows hpc hnil with hsome | hclosed
    · grind
    · exact hclosed
  | readEnd hpc => exact h.goto hpc rfl rfl (hwake _) rfl (hknows hpc :)
  | readReturn hpc =>
    refine h.unlock hpc rfl rfl (fun _ _ hq => .inl hq) ?_
    simp [PipePc.got]
  | closeSet hpc => exact h.move hpc rfl rfl hkeep trivial (hqueue hpc rfl :)
  | closeWake hpc => exact h.goto hpc rfl rfl (hwake _) rfl trivial
  | closeReturn hpc => exact h.leave hpc rfl rfl _

theorem PipeInv.steps (h : PipeInv s) (events : List PipeEvent) : PipeInv (s.steps events) := by
  induction events generalizing s with
  | nil => exact h
  | cons e events ih => exact ih (h.step (s.step_spec e))

/-- Why a process sleeps on a channel. -/
def PipeBuf.Reason (pi : PipeBuf) : PipeChan → Prop
  | .nread => pi.empty = true ∧ pi.writeopen = true
  | .nwrite => pi.full = true ∧ pi.readopen = true

/-- The channel that the process is still to wake before it gives up the lock. -/
def PipePc.owes? : PipePc → Option PipeChan
  | .writeLoop _ _ | .writeCheck _ _ | .writeWake _ _ | .writeEnd _ => some .nread
  | .readLoop _ _ | .readEnd _ _ => some .nwrite
  | .closeWake w => some (closeChan w)
  | _ => none

/-- No process is killed in `pipewrite`, and no killed process calls it. -/
def PipeEvent.SparesWriters (s : PipeState) : PipeEvent → Prop
  | .kill p => (s.pc p).end? ≠ some true
  | .write p _ => s.killed p = false
  | _ => True

/-- Every event of the run meets the condition in its state. -/
def PipeState.Spares (s : PipeState) : List PipeEvent → Prop
  | [] => True
  | e :: events => e.SparesWriters s ∧ (s.step e).Spares events

/-- Processes in a call have its end open, and writers are not killed. -/
structure EndsInv (s : PipeState) : Prop where
  held : ∀ p w, (s.pc p).end? = some w → p ∈ s.ends w
  shut : ∀ w, s.pipe.isOpen w = false → s.ends w = ∅
  closing : ∀ p w, (s.pc p).closes? = some w → s.ends w = ∅
  spared : ∀ p, (s.pc p).end? = some true → s.killed p = false

/-- Who is asleep has a reason, or is about to be woken. -/
def Justified (pi : PipeBuf) (asleep : Nat → Option PipeChan) (pc : Nat → PipePc) : Prop :=
  ∀ q c, asleep q = some c → pi.Reason c ∨ ∃ p, (pc p).owes? = some c

theorem EndsInv.init (p : Nat) (data : Nat → Byte) : EndsInv (PipeState.init p data) where
  held q w h := by simp [PipeState.init, PipePc.end?] at h
  shut w h := by cases w <;> simp [PipeState.init, Pipe.isOpen] at h
  closing q w h := by simp [PipeState.init, PipePc.closes?] at h
  spared q h := by simp [PipeState.init, PipePc.end?] at h

theorem EndsInv.goto {s' : PipeState} (h : EndsInv s) (hold : s.pc p = old)
    (hpc : s'.pc = update s.pc p pc) (hends : s'.ends = s.ends)
    (hpipe : s'.pipe.toPipe = s.pipe.toPipe) (hkilled : s'.killed = s.killed)
    (hend : ∀ w, pc.end? = some w → old.end? = some w)
    (hcloses : ∀ w, pc.closes? = some w → old.closes? = some w) : EndsInv s' := by
  have hpc' : ∀ q, s'.pc q = if q = p then pc else s.pc q := by
    intro q
    rw [hpc, update_apply]
  refine ⟨?_, ?_, ?_, ?_⟩
  · intro q w hq
    rw [hpc'] at hq
    rw [hends]
    split at hq
    · next heq => exact heq ▸ h.held p w (hold ▸ hend w hq)
    · exact h.held q w hq
  · rw [hpipe, hends]
    exact h.shut
  · intro q w hq
    rw [hpc'] at hq
    rw [hends]
    split at hq
    · exact h.closing p w (hold ▸ hcloses w hq)
    · exact h.closing q w hq
  · intro q hq
    rw [hpc'] at hq
    rw [hkilled]
    split at hq
    · next heq => exact heq ▸ h.spared p (hold ▸ hend true hq)
    · exact h.spared q hq

theorem EndsInv.leave (h : EndsInv s) (p : Nat) (r : Int) : EndsInv (s.leave p r) :=
  h.goto rfl rfl rfl rfl rfl (fun w hw => absurd hw (by simp [PipePc.end?]))
    (fun w hw => absurd hw (by simp [PipePc.closes?]))

theorem EndsInv.call {w : Bool} (h : EndsInv s) (hmem : p ∈ s.ends w) (hend : pc.end? = some w)
    (hcloses : pc.closes? = none) (hspared : w = true → s.killed p = false) :
    EndsInv (s.goto p pc) := by
  have hpc : ∀ q, (s.goto p pc).pc q = if q = p then pc else s.pc q := by
    intro q
    simp [PipeState.goto, update_apply]
  refine ⟨?_, h.shut, ?_, ?_⟩
  · intro q w' hq
    rw [hpc] at hq
    split at hq
    · next heq =>
      rw [hend] at hq
      rw [heq, ← Option.some.inj hq]
      exact hmem
    · exact h.held q w' hq
  · intro q w' hq
    rw [hpc] at hq
    split at hq
    · rw [hcloses] at hq
      simp at hq
    · exact h.closing q w' hq
  · intro q hq
    rw [hpc] at hq
    split at hq
    · next heq =>
      rw [hend] at hq
      exact heq ▸ hspared (Option.some.inj hq)
    · exact h.spared q hq

theorem EndsInv.erase (h : EndsInv s) (hpc : s.pc p = .out) (w : Bool) :
    EndsInv { s with ends := update s.ends w ((s.ends w).erase p) } := by
  have hempty : ∀ w', s.ends w' = ∅ → update s.ends w ((s.ends w).erase p) w' = ∅ := by grind
  refine ⟨?_, fun w' hw => hempty w' (h.shut w' hw), fun q w' hq => hempty w' (h.closing q w' hq),
    h.spared⟩
  intro q w' hq
  have hmem := h.held q w' hq
  by_cases heq : w' = w
  · grind [PipePc.end?]
  · simpa only [update_of_ne heq] using hmem

theorem EndsInv.closeAcquire {w : Bool} (h : EndsInv s) (hlast : s.ends w = ∅) :
    EndsInv (s.goto p (.closeAcquire w)) := by
  have hpc : ∀ q, (s.goto p (.closeAcquire w)).pc q =
      if q = p then .closeAcquire w else s.pc q := by
    intro q
    simp [PipeState.goto, update_apply]
  refine ⟨?_, h.shut, ?_, ?_⟩
  · intro q w' hq
    rw [hpc] at hq
    split at hq
    · exact absurd hq (by simp [PipePc.end?])
    · exact h.held q w' hq
  · intro q w' hq
    rw [hpc] at hq
    split at hq
    · exact Option.some.inj hq ▸ hlast
    · exact h.closing q w' hq
  · intro q hq
    rw [hpc] at hq
    split at hq
    · exact absurd hq (by simp [PipePc.end?])
    · exact h.spared q hq

theorem EndsInv.step (h : EndsInv s) {s' : PipeState} {e : PipeEvent} (hs : PipeStep s e s')
    (hspares : e.SparesWriters s) : EndsInv s' := by
  have hsame : ∀ {α : Type} {o : Option α} (w : α), o = some w → o = some w := fun _ h => h
  have hnone : ∀ {α : Type} {o : Option α} (w : α), none = some w → o = some w :=
    fun _ h => absurd h (by simp)
  cases hs with
  | stay => exact h
  | write hpc hmem => exact h.call hmem rfl rfl fun _ => hspares
  | read hpc hmem => exact h.call hmem rfl rfl fun hw => absurd hw (by decide)
  | @share p q w hmem =>
    have hempty : ∀ w', s.ends w' = ∅ →
        update s.ends w (insert q (s.ends w)) w' = ∅ := by grind
    refine ⟨?_, fun w' hw => hempty w' (h.shut w' hw),
      fun q w' hq => hempty w' (h.closing q w' hq), h.spared⟩
    intro r w' hr
    have hold := h.held r w' hr
    by_cases heq : w' = w
    · subst heq
      simp [hold]
    · simpa only [update_of_ne heq] using hold
  | drop hpc => exact h.erase hpc _
  | @close p w hpc hmem hlast =>
    have herase := h.erase hpc w
    rw [hlast] at herase
    exact herase.closeAcquire (by simp)
  | kill p =>
    refine ⟨h.held, h.shut, h.closing, ?_⟩
    intro q hq
    have hne : q ≠ p := fun heq => hspares (heq ▸ hq)
    simpa only [update_of_ne hne] using h.spared q hq
  | acquire _ _ hpc =>
    obtain ⟨addr, i, hpc, rfl⟩ | ⟨n, hpc, rfl⟩ | ⟨w, hpc, rfl⟩ := hpc <;>
      exact h.goto hpc rfl rfl rfl rfl hsame hsame
  | writeDone hpc => exact h.goto hpc rfl rfl rfl rfl hsame hsame
  | writeFull hpc => exact h.goto hpc rfl rfl rfl rfl hsame hsame
  | store hpc => exact h.goto hpc rfl rfl rfl rfl hsame hsame
  | writeFail => exact h.leave _ _
  | writeGoOn hpc => exact h.goto hpc rfl rfl rfl rfl hsame hsame
  | writeWake hpc => exact h.goto hpc rfl rfl rfl rfl hsame hsame
  | writeSleep hpc => exact h.goto hpc rfl rfl rfl rfl hsame hsame
  | writeEnd hpc => exact h.goto hpc rfl rfl rfl rfl hsame hsame
  | writeReturn => exact h.leave _ _
  | readEmpty hpc => exact h.goto hpc rfl rfl rfl rfl hsame hsame
  | readStart hpc => exact h.goto hpc rfl rfl rfl rfl hsame hsame
  | readFail => exact h.leave _ _
  | readGoOn hpc => exact h.goto hpc rfl rfl rfl rfl hsame hsame
  | readSleep hpc => exact h.goto hpc rfl rfl rfl rfl hsame hsame
  | copy hpc => exact h.goto hpc rfl rfl rfl rfl hsame hsame
  | readDone hpc => exact h.goto hpc rfl rfl rfl rfl hsame hsame
  | readEnd hpc => exact h.goto hpc rfl rfl rfl rfl hsame hsame
  | readReturn hpc => exact h.goto hpc rfl rfl rfl rfl hnone hnone
  | @closeSet p w hpc =>
    have hgoto : EndsInv (s.goto p (.closeWake w)) := h.goto hpc rfl rfl rfl rfl hsame hsame
    refine ⟨hgoto.held, ?_, hgoto.closing, hgoto.spared⟩
    intro w' hw
    by_cases heq : w' = w
    · exact heq ▸ h.closing p w (by rw [hpc]; rfl)
    · have hclose : (s.pipe.close w).isOpen w' = false := hw
      rw [Pipe.isOpen_close, if_neg heq] at hclose
      exact h.shut w' hclose
  | closeWake hpc => exact h.goto hpc rfl rfl rfl rfl hsame hsame
  | closeReturn => exact h.leave _ _

theorem Justified.move {pipe : PipeBuf} (h : Justified s.pipe s.asleep s.pc)
    (hold : s.pc p = old)
    (hstep : ∀ q c, asleep q = some c → pipe.Reason c ∨
      s.asleep q = some c ∧ (s.pipe.Reason c ∨ old.owes? = some c →
        pipe.Reason c ∨ pc.owes? = some c)) :
    Justified pipe asleep (update s.pc p pc) := by
  have hself : ∀ {c}, pc.owes? = some c →
      ∃ r, (update s.pc p pc r).owes? = some c := by
    intro c hc
    exact ⟨p, by rw [update_self, hc]⟩
  intro q c hq
  obtain hreason | ⟨hasleep, hkeep⟩ := hstep q c hq
  · exact .inl hreason
  · rcases h q c hasleep with hreason | ⟨r, hr⟩
    · exact (hkeep (.inl hreason)).imp_right hself
    · by_cases hrp : r = p
      · grind
      · exact .inr ⟨r, by rw [update_of_ne hrp, hr]⟩

theorem EndsInv.no_reader (h : EndsInv s) (hi : PipeInv s) (hshut : s.pipe.readopen = false) :
    s.asleep q ≠ some .nread := by
  intro hq
  have hchan := hi.chan q .nread hq
  have hend : (s.pc q).end? = some false := by
    cases hpc : s.pc q <;> rw [hpc] at hchan <;>
      first | rfl | exact absurd hchan (by simp [PipePc.chan?])
  have hmem := h.held q false hend
  rw [h.shut false hshut] at hmem
  simp at hmem

theorem Justified.step (h : Justified s.pipe s.asleep s.pc) (hi : PipeInv s) (he : EndsInv s)
    {s' : PipeState} {e : PipeEvent} (hs : PipeStep s e s') :
    Justified s'.pipe s'.asleep s'.pc := by
  have hknows : ∀ {p pc}, s.pc p = pc → pc.Knows s.pipe := fun hpc => hpc ▸ hi.knows _
  -- a statement that leaves the pipe alone and forgets no wake-up
  have hgoto : ∀ {p : Nat} {old pc : PipePc}, s.pc p = old →
      (∀ c, old.owes? = some c → pc.owes? = some c) →
      Justified s.pipe s.asleep (update s.pc p pc) := by
    intro p old pc hold howes
    exact h.move hold fun q c hq => .inr ⟨hq, Or.imp_right (howes c)⟩
  -- a wake-up pays what is owed
  have hwake : ∀ {p : Nat} {old pc : PipePc} (c0 : PipeChan), s.pc p = old →
      old.owes? = some c0 →
      Justified s.pipe (s.wakeup c0).asleep (update s.pc p pc) := by
    intro p old pc c0 hold howes
    refine h.move hold fun q c hq => .inr ?_
    obtain ⟨hq, hne⟩ := asleep_of_wakeup hq
    refine ⟨hq, fun hor => .inl (hor.resolve_right fun hc => hne ?_)⟩
    exact Option.some.inj (hc.symm.trans howes)
  have hsleep : ∀ {p : Nat} {old pc : PipePc} (c0 : PipeChan), s.pc p = old →
      old.owes? = none → s.pipe.Reason c0 →
      Justified s.pipe (update s.asleep p (some c0)) (update s.pc p pc) := by
    intro p old pc c0 hold howes hreason
    refine h.move hold fun q c hq => ?_
    by_cases hqp : q = p
    · grind
    · grind
  have hsame : ∀ {α : Type} {o : Option α} (w : α), o = some w → o = some w := fun _ h => h
  have hnone : ∀ {α : Type} {o : Option α} (w : α), none = some w → o = some w :=
    fun _ h => absurd h (by simp)
  cases hs with
  | stay => exact h
  | write hpc => exact hgoto hpc hnone
  | read hpc => exact hgoto hpc hnone
  | share => exact h
  | drop => exact h
  | close hpc => exact hgoto hpc hnone
  | kill p =>
    intro q c hq
    refine h q c ?_
    by_cases hqp : q = p
    · subst hqp
      simp at hq
    · simpa [update_of_ne hqp] using hq
  | acquire _ _ hpc =>
    obtain ⟨addr, i, hpc, rfl⟩ | ⟨n, hpc, rfl⟩ | ⟨w, hpc, rfl⟩ := hpc <;>
      exact hgoto hpc hnone
  | writeDone hpc => exact hgoto hpc hsame
  | writeFull hpc => exact hgoto hpc hsame
  | store hpc hroom =>
    refine h.move hpc fun q c hq => .inr ⟨hq, ?_⟩
    cases c with
    | nread => exact fun _ => .inr rfl
    | nwrite =>
      -- a sleeping writer would have found the pipe full
      rintro (hreason | howes)
      · rw [hreason.1] at hroom
        simp at hroom
      · exact absurd howes (by simp [PipePc.owes?])
  | @writeFail p i addr hpc hcond =>
    refine h.move hpc fun q c hq => .inr ⟨hq, ?_⟩
    have hshut : s.pipe.readopen = false := by
      refine hcond.resolve_right ?_
      rw [he.spared p (by rw [hpc]; rfl)]
      decide
    rintro (hreason | howes)
    · exact .inl hreason
    · rw [← Option.some.inj howes] at hq
      exact absurd hq (he.no_reader hi hshut)
  | writeGoOn hpc => exact hgoto hpc hsame
  | writeWake hpc => exact hwake .nread hpc rfl
  | writeSleep hpc => exact hsleep .nwrite hpc rfl (hknows hpc :)
  | writeEnd hpc => exact hwake .nread hpc rfl
  | writeReturn hpc => exact hgoto hpc hnone
  | readEmpty hpc => exact hgoto hpc hnone
  | readStart hpc => exact hgoto hpc hnone
  | readFail hpc => exact hgoto hpc hnone
  | readGoOn hpc => exact hgoto hpc hnone
  | readSleep hpc => exact hsleep .nread hpc rfl (hknows hpc :)
  | copy hpc hsome =>
    refine h.move hpc fun q c hq => .inr ⟨hq, ?_⟩
    cases c with
    | nread =>
      rintro (hreason | howes)
      · rw [hreason.1] at hsome
        simp at hsome
      · exact absurd howes (by simp [PipePc.owes?])
    | nwrite => exact fun _ => .inr rfl
  | readDone hpc => exact hgoto hpc hsame
  | readEnd hpc => exact hwake .nwrite hpc rfl
  | readReturn hpc => exact hgoto hpc hnone
  | @closeSet p w hpc =>
    refine h.move hpc fun q c hq => .inr ⟨hq, ?_⟩
    rintro (hreason | howes)
    · cases w <;> cases c <;> first | exact .inr rfl | exact .inl hreason
    · exact absurd howes (by simp [PipePc.owes?])
  | closeWake hpc => exact hwake _ hpc rfl
  | closeReturn hpc => exact hgoto hpc hnone

theorem Justified.steps (h : Justified s.pipe s.asleep s.pc) (hi : PipeInv s) (he : EndsInv s)
    (events : List PipeEvent) (hspares : s.Spares events) :
    Justified (s.steps events).pipe (s.steps events).asleep (s.steps events).pc := by
  induction events generalizing s with
  | nil => exact h
  | cons e events ih =>
    have hs := s.step_spec e
    exact ih (h.step hi he hs) (hi.step hs) (he.step hs hspares.1) hspares.2

theorem PipePc.owes_none (h : pc.inside = false) : pc.owes? = none := by
  cases pc <;> first | rfl | exact absurd h (by simp [PipePc.inside])

/-- While no process holds the lock, readers sleep only on an empty pipe with an open
    write end and writers only on a full one with an open read end, in every run in which
    no process is killed in `pipewrite` or calls it when it is killed. -/
theorem pipe_no_lost_wakeup (p₀ : Nat) (data : Nat → Byte) (events : List PipeEvent)
    (hspares : (PipeState.init p₀ data).Spares events)
    (hfree : ∀ p, (((PipeState.init p₀ data).steps events).pc p).inside = false) :
    let s := (PipeState.init p₀ data).steps events
    (∀ q, s.asleep q = some .nread → s.pipe.empty = true ∧ s.pipe.writeopen = true) ∧
      ∀ q, s.asleep q = some .nwrite → s.pipe.full = true ∧ s.pipe.readopen = true := by
  intro s
  have hinit : Justified (PipeState.init p₀ data).pipe (PipeState.init p₀ data).asleep
      (PipeState.init p₀ data).pc := by
    intro q c hq
    simp [PipeState.init] at hq
  have h : Justified s.pipe s.asleep s.pc :=
    hinit.steps (PipeInv.init p₀ data) (EndsInv.init p₀ data) events hspares
  have hreason : ∀ q c, s.asleep q = some c → s.pipe.Reason c := by
    intro q c hq
    refine (h q c hq).resolve_right ?_
    rintro ⟨p, hp⟩
    rw [PipePc.owes_none (hfree p)] at hp
    simp at hp
  exact ⟨fun q => hreason q .nread, fun q => hreason q .nwrite⟩

theorem PipeInv.all_outside (h : PipeInv s) (hfree : s.lock = none) (p : Nat) :
    (s.pc p).inside = false := by
  rw [← Bool.not_eq_true, h.lock p, hfree]
  simp

/-- Process 1 goes to sleep in `piperead`. -/
def readerAsleep : List PipeEvent :=
  [.share 0 1 false, .read 1 1, .run 1, .run 1, .run 1, .run 1]

theorem pipe_no_lost_wakeup_asleep :
    (PipeState.init 0 fun _ => 0).Spares readerAsleep ∧
      let s := (PipeState.init 0 fun _ => 0).steps readerAsleep
      s.asleep 1 = some .nread ∧ s.pipe.empty = true ∧ s.pipe.writeopen = true := by
  have hspares : (PipeState.init 0 fun _ => 0).Spares readerAsleep :=
    ⟨trivial, trivial, trivial, trivial, trivial, trivial, trivial⟩
  have hinv : PipeInv ((PipeState.init 0 fun _ => 0).steps readerAsleep) :=
    (PipeInv.init 0 _).steps _
  have hfree := hinv.all_outside (by decide)
  have hasleep : ((PipeState.init 0 fun _ => 0).steps readerAsleep).asleep 1 = some .nread := by
    decide
  exact ⟨hspares, hasleep, (pipe_no_lost_wakeup 0 _ readerAsleep hspares hfree).1 1 hasleep⟩

/-- The loop of `pipewrite` stores `k` bytes that fit. -/
theorem PipeState.run_store {addr : List Byte} {i : Nat} (k : Nat)
    (hpc : s.pc p = .writeLoop addr i) (hlen : i + k ≤ addr.length) (hl : s.pipe.Holds l)
    (hroom : l.length + k ≤ PIPESIZE) :
    ∃ pipe stored l', pipe.Holds l' ∧ l'.length = l.length + k ∧
      s.steps (List.replicate k (.run p)) =
        { s with
          pipe := pipe, stored := stored,
          pc := update s.pc p (.writeLoop addr (i + k)) } := by
  induction k generalizing s i l with
  | zero =>
    refine ⟨s.pipe, s.stored, l, hl, rfl, ?_⟩
    rw [Nat.add_zero, ← hpc, update_eq_self]
    rfl
  | succ k ih =>
    have hfull : s.pipe.full = false := by
      rw [← Bool.not_eq_true, hl.full_iff]
      omega
    have hrun : s.step (.run p) =
        { s.goto p (.writeLoop addr (i + 1)) with
          pipe := s.pipe.store addr[i], stored := s.stored ++ [addr[i]] } := by
      simp only [PipeState.step, PipeState.run, hpc, hfull,
        List.getElem?_eq_getElem (show i < addr.length by omega)]
      rfl
    have hpc' : (s.step (.run p)).pc p = .writeLoop addr (i + 1) := by
      rw [hrun]
      simp [PipeState.goto]
    have hstored : (s.step (.run p)).pipe.Holds (l ++ [addr[i]]) := by
      rw [hrun]
      exact hl.store hfull _
    have hlength : (l ++ [addr[i]]).length = l.length + 1 := by simp
    obtain ⟨pipe, stored, l', hl', hlen', heq⟩ := ih hpc' (by omega) hstored (by omega)
    refine ⟨pipe, stored, l', hl', by omega, ?_⟩
    rw [List.replicate_succ, PipeState.steps, List.foldl_cons, ← PipeState.steps, heq, hrun]
    simp [PipeState.goto, Nat.add_assoc, Nat.add_comm 1 k]

/-- Process 1 sleeps in `piperead`; process 0 is killed, calls `pipewrite` with one byte
    more than fits, and acquires the lock. -/
def killedWriter : List PipeEvent :=
  readerAsleep ++ [.kill 0, .write 0 (List.replicate 513 0), .run 0]

theorem PipeState.steps_append (s : PipeState) (es es' : List PipeEvent) :
    s.steps (es ++ es') = (s.steps es).steps es' := List.foldl_append

/-- A killed writer fills an empty pipe; the loop finds it full, and the test of `killed`
    makes it return without a wake-up. -/
theorem PipeState.run_killed {addr : List Byte} (hpc : s.pc p = .writeLoop addr 0)
    (hlen : PIPESIZE < addr.length) (hkilled : s.killed p = true) (hempty : s.pipe.Holds []) :
    ∃ pipe stored, pipe.full = true ∧
      s.steps (List.replicate PIPESIZE (.run p) ++ [.run p, .run p]) =
        { s with
          pipe := pipe, stored := stored, lock := none, ret := update s.ret p (-1),
          pc := update s.pc p .out } := by
  obtain ⟨pipe, stored, l, hl, hcount, hfill⟩ :=
    PipeState.run_store PIPESIZE hpc (by omega) hempty (by simp)
  have hfull : pipe.full = true := hl.full_iff.mpr (by simpa using hcount)
  refine ⟨pipe, stored, hfull, ?_⟩
  rw [steps_append, hfill]
  have hnext : addr[PIPESIZE]? = some (addr.get ⟨PIPESIZE, hlen⟩) := List.getElem?_eq_getElem hlen
  simp [PipeState.steps, PipeState.step, PipeState.run, PipeState.goto, PipeState.leave, hnext,
    hfull, hkilled]

theorem pc_killedWriter (addr : List Byte) : ((PipeState.init 0 fun _ => 0).steps
    (readerAsleep ++ [.kill 0, .write 0 addr, .run 0])).pc 0 = .writeLoop addr 0 := rfl

/-- The reader sleeps on although the pipe is full. -/
theorem killed_writer_strands_reader :
    let s := (PipeState.init 0 fun _ => 0).steps
      (killedWriter ++ List.replicate PIPESIZE (.run 0) ++ [.run 0, .run 0])
    (∀ p, (s.pc p).inside = false) ∧ s.asleep 1 = some .nread ∧ s.pipe.full = true := by
  have hpc : ((PipeState.init 0 fun _ => 0).steps killedWriter).pc 0 =
      .writeLoop (List.replicate 513 0) 0 := pc_killedWriter _
  obtain ⟨pipe, stored, hfull, hrun⟩ := PipeState.run_killed hpc
    (by rw [List.length_replicate]; decide) rfl (Fifo.Holds.empty _ _ _)
  rw [← PipeState.steps_append, ← List.append_assoc] at hrun
  have hinv := (PipeInv.init 0 fun _ => 0).steps
    (killedWriter ++ List.replicate PIPESIZE (.run 0) ++ [.run 0, .run 0])
  refine ⟨hinv.all_outside (by rw [hrun]), ?_, ?_⟩
  · rw [hrun]
    rfl
  · rw [hrun]
    exact hfull

end CowPaging
