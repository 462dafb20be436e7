import CowPaging.IdeDriver

/-!
# The interrupt-driven driver does what the synchronous one does

The requests of `ide.c`, in the order in which they were queued, are performed as
`memide.c` would perform them one after another. Three numbers describe a state: the
requests that have left the queue (`old`), the one at the head of the queue, which is
started or about to be, and those behind it. At most one command, interrupt or handler is
outstanding, and it belongs to the head of the queue.
-/

namespace CowPaging

open Bytes
open Function (update_of_ne update_self update_eq_self update)

variable {m m' : MemDisk} {s : IdeState} {p q b k : Nat} {pc : IdePc} {r r' : Buf}
  {reqs more old bs : List Buf} {c : DiskCmd}

/-! ### Runs of the synchronous driver -/

/-- The buffer after its request, when the block held `page` before it. -/
def Buf.completed (b : Buf) (page : Page) : Buf :=
  { b with data := if b.dirty then b.data else page, valid := true, dirty := false }

/-- The blocks of a disk after the request. -/
def Buf.written (b : Buf) (block : Nat → Page) : Nat → Page :=
  if b.dirty then update block b.blockno b.data else block

theorem MemDisk.iderw_ok (h : m.iderw true r = .ok (m', r')) :
    r.dev = 1 ∧ m'.block = r.written m.block ∧ r' = r.completed (m.block r.blockno) := by
  rw [MemDisk.iderw] at h
  split at h
  · simp at h
  split at h
  · simp at h
  split at h
  · simp at h
  next hdev =>
  split at h
  · simp at h
  rw [not_not] at hdev
  split at h
  · next hdirty => grind [Buf.written, Buf.completed]
  · next hdirty => grind [Buf.written, Buf.completed]

theorem MemDisk.iderw_accepts (hsync : r.synced = false) (hdev : r.dev = 1)
    (hblock : r.blockno < m.disksize) :
    ∃ m' r', m.iderw true r = .ok (m', r') ∧ m'.disksize = m.disksize := by
  rw [MemDisk.iderw, if_neg (by decide), hsync, if_neg (by decide), if_neg (not_not.mpr hdev),
    if_neg (not_le.mpr hblock)]
  split
  · exact ⟨_, _, rfl, rfl⟩
  · exact ⟨_, _, rfl, rfl⟩

theorem MemDisk.iderws_cons (h : m.iderws (r :: reqs) = .ok (m', bs)) :
    ∃ m1 r1 bs1, m.iderw true r = .ok (m1, r1) ∧ m1.iderws reqs = .ok (m', bs1) ∧
      bs = r1 :: bs1 := by
  rw [MemDisk.iderws] at h
  split at h
  · simp at h
  next m1 r1 hfirst =>
  split at h
  · simp at h
  next m2 bs1 hrest =>
  cases h
  exact ⟨m1, r1, bs1, hfirst, hrest, rfl⟩

theorem MemDisk.iderws_append (h : m.iderws (reqs ++ more) = .ok (m', bs)) :
    ∃ m1 bs1 bs2, m.iderws reqs = .ok (m1, bs1) ∧ m1.iderws more = .ok (m', bs2) ∧
      bs = bs1 ++ bs2 := by
  induction reqs generalizing m bs with
  | nil => exact ⟨m, [], bs, rfl, h, rfl⟩
  | cons r reqs ih =>
    obtain ⟨m1, r1, bs1, hfirst, hrest, rfl⟩ := MemDisk.iderws_cons h
    obtain ⟨m2, bs2, bs3, hreqs, hmore, rfl⟩ := ih hrest
    exact ⟨m2, r1 :: bs2, bs3, by simp [MemDisk.iderws, hfirst, hreqs], hmore, rfl⟩

theorem MemDisk.iderws_length (h : m.iderws reqs = .ok (m', bs)) : bs.length = reqs.length := by
  induction reqs generalizing m bs with
  | nil =>
    cases h
    rfl
  | cons r reqs ih => grind [MemDisk.iderws_cons]

theorem MemDisk.iderws_accepts (h : ∀ r ∈ reqs, r.synced = false)
    (hdisk : ∀ r ∈ reqs, r.dev = 1 ∧ r.blockno < m.disksize) :
    ∃ m' bs, m.iderws reqs = .ok (m', bs) := by
  induction reqs generalizing m with
  | nil => exact ⟨m, [], rfl⟩
  | cons r reqs ih =>
    have hr := hdisk r List.mem_cons_self
    obtain ⟨m1, r1, hfirst, hsize⟩ :=
      MemDisk.iderw_accepts (h r List.mem_cons_self) hr.1 hr.2
    obtain ⟨m2, bs, hrest⟩ := ih (m := m1) (fun q hq => h q (List.mem_cons_of_mem r hq))
      (fun q hq => by rw [hsize]; exact hdisk q (List.mem_cons_of_mem r hq))
    exact ⟨m2, r1 :: bs, by simp [MemDisk.iderws, hfirst, hrest]⟩

/-- Where the synchronous driver performs `reqs`, request `k` leaves `b` in its buffer. -/
def Outcome (m : MemDisk) (reqs : List Buf) (k : Nat) (b : Buf) : Prop :=
  ∀ m' bs, m.iderws reqs = .ok (m', bs) → bs[k]? = some b

/-- Where the synchronous driver performs `reqs`, it leaves `block` on the disk. -/
def DiskIs (m : MemDisk) (reqs : List Buf) (block : Nat → Page) : Prop :=
  ∀ m' bs, m.iderws reqs = .ok (m', bs) → m'.block = block

theorem Outcome.append (h : Outcome m reqs k r) (more : List Buf) :
    Outcome m (reqs ++ more) k r := by
  intro m' bs hrun
  obtain ⟨m1, bs1, bs2, hreqs, _, rfl⟩ := MemDisk.iderws_append hrun
  have hk := h m1 bs1 hreqs
  rwa [List.getElem?_append_left (List.getElem?_eq_some_iff.mp hk).1]

/-! ### The device -/

theorem idestart_ok (h : idestart r = .ok c) :
    c.unit = r.dev % 2 ∧ c.sector = r.blockno ∧ c.data = r.data ∧
      (c.cmd = writeCmd ↔ r.dirty = true) := by
  rw [idestart] at h
  split at h
  · simp at h
  next hblock =>
  have hlt : r.blockno < 3000 := by simpa [FSSIZE, SWAPBLOCKS] using hblock
  have hone : r.blockno * sectorPerBlock = r.blockno := by
    simp [sectorPerBlock, BSIZE, SECTOR_SIZE]
  have hhigh : r.blockno / 2 ^ 24 % 2 ^ 4 = 0 := by omega
  have hc := (Except.ok.inj h).symm
  rw [hone, hhigh] at hc
  subst hc
  have hdrive : (0xe0 ||| (r.dev % 2) <<< 4 ||| 0) % 2 ^ 4 = 0 ∧
      (0xe0 ||| (r.dev % 2) <<< 4 ||| 0) / 2 ^ 4 % 2 = r.dev % 2 := by
    rcases Nat.mod_two_eq_zero_or_one r.dev with hdev | hdev <;> rw [hdev] <;> decide
  refine ⟨hdrive.2, ?_, rfl, ?_⟩
  · rw [DiskCmd.sector, hdrive.1]
    dsimp only
    omega
  · dsimp only
    cases r.dirty <;> decide

theorem IdeDevice.perform_spec {d : IdeDevice} (hstart : idestart r = .ok c)
    (hcmd : d.cmd = some c) (hdisk : DiskIs m old (d.disk 1)) :
    d.perform.cmd = none ∧ d.perform.irq = d.irq + 1 ∧
      DiskIs m (old ++ [r]) (d.perform.disk 1) ∧
      Outcome m (old ++ [r]) old.length (r.completed d.perform.buffer) := by
  obtain ⟨hunit, hsector, hdata, hwrite⟩ := idestart_ok hstart
  -- the run of the longer list gives the disk before the request and `dev = 1`
  have hlast : ∀ m' bs, m.iderws (old ++ [r]) = .ok (m', bs) → r.dev = 1 ∧
      m'.block = r.written (d.disk 1) ∧
      bs[old.length]? = some (r.completed (d.disk 1 r.blockno)) := by
    intro m' bs hrun
    obtain ⟨m1, bs1, bs2, hold, hone, rfl⟩ := MemDisk.iderws_append hrun
    obtain ⟨m2, r2, bs3, hr, hnil, rfl⟩ := MemDisk.iderws_cons hone
    cases hnil
    obtain ⟨hdev, hblock, rfl⟩ := MemDisk.iderw_ok hr
    rw [hdisk m1 bs1 hold] at hblock ⊢
    refine ⟨hdev, hblock, ?_⟩
    rw [← MemDisk.iderws_length hold, List.getElem?_append_right le_rfl]
    simp
  rw [IdeDevice.perform, hcmd]
  dsimp only
  rw [hunit, hsector, hdata]
  by_cases hdirty : r.dirty = true
  · rw [if_pos (hwrite.mpr hdirty)]
    refine ⟨rfl, rfl, fun m' bs hrun => ?_, fun m' bs hrun => ?_⟩
    · obtain ⟨hdev, hblock, _⟩ := hlast m' bs hrun
      rw [hblock, hdev]
      simp [Buf.written, hdirty]
    · rw [(hlast m' bs hrun).2.2]
      simp [Buf.completed, hdirty]
  · rw [if_neg (mt hwrite.mp hdirty)]
    refine ⟨rfl, rfl, fun m' bs hrun => ?_, fun m' bs hrun => ?_⟩
    · rw [(hlast m' bs hrun).2.1]
      simp [Buf.written, hdirty]
    · obtain ⟨hdev, _, hbs⟩ := hlast m' bs hrun
      rw [hbs, hdev]

/-! ### The invariant -/

/-- The process holds `idelock`. -/
def IdePc.inside : IdePc → Bool
  | .append _ | .start _ | .test _ | .sleep _ | .release _ => true
  | _ => false

/-- The buffer of a call that has passed its tests. -/
def IdePc.buf? : IdePc → Option Nat
  | .acquire b | .append b | .start b | .test b | .sleep b | .wait b | .release b => some b
  | _ => none

/-- The buffer of a call that has been queued. -/
def IdePc.posted? : IdePc → Option Nat
  | .start b | .test b | .sleep b | .wait b | .release b => some b
  | _ => none

/-- The handler holds `idelock`. -/
def IntrPc.inside : IntrPc → Bool
  | .idle | .acquire => false
  | _ => true

/-- The handler has taken an interrupt and not yet the buffer it is for. -/
def IntrPc.taken : IntrPc → Bool
  | .acquire | .pop => true
  | _ => false

/-- The handler is between taking a buffer off the queue and starting the next. -/
def IntrPc.between : IntrPc → Bool
  | .read _ | .flags _ | .wake _ | .next => true
  | _ => false

/-- The buffer that the handler has taken off the queue and not finished. -/
def IntrPc.popped? : IntrPc → Option Nat
  | .read b | .flags b => some b
  | _ => none

/-- The buffer whose sleepers the handler is still to wake. -/
def IntrPc.wakes? : IntrPc → Option Nat
  | .read b | .flags b | .wake b => some b
  | _ => none

/-- Commands, interrupts and handlers whose request is still queued. -/
def IdeState.outstanding (s : IdeState) : Nat :=
  (if s.dev.cmd = none then 0 else 1) + s.dev.irq + if s.intr.taken then 1 else 0

/-- What the buffer will hold when the handler is done with it. -/
def IdeState.outcome (s : IdeState) (b : Nat) : Buf :=
  match s.intr with
  | .read b' => if b' = b then (s.buf b).completed s.dev.buffer else s.buf b
  | .flags b' => if b' = b then { s.buf b with valid := true, dirty := false } else s.buf b
  | _ => s.buf b

/-- The last request for `b` has left the queue, and what it leaves in the buffer is what
    the synchronous driver would leave there. -/
structure Answered (m : MemDisk) (old : List Buf) (s : IdeState) (b : Nat) : Prop where
  gone : b ∉ s.idequeue
  number : s.number b < old.length
  synced : (s.outcome b).synced = true
  outcome : Outcome m s.requests (s.number b) (s.outcome b)

/-- What a process relies on. -/
def IdePc.Ok (m : MemDisk) (old : List Buf) (s : IdeState) (p : Nat) : IdePc → Prop
  | .out | .check _ => True
  | .acquire b | .append b => s.owner b = some p ∧ (s.buf b).synced = false
  | .start b | .sleep b => s.owner b = some p ∧ b ∈ s.idequeue
  | .test b | .wait b => s.owner b = some p ∧ (b ∈ s.idequeue ∨ Answered m old s b)
  | .release b => s.owner b = some p ∧ Answered m old s b

/-- What the device is doing about the head of the queue. -/
inductive Flight (m : MemDisk) (old : List Buf) (s : IdeState) : Prop
  | idle : s.outstanding = 0 → DiskIs m old (s.dev.disk 1) → Flight m old s
  | busy {b : Nat} {rest : List Nat} {c : DiskCmd} : s.outstanding = 1 →
      s.idequeue = b :: rest → s.dev.cmd = some c → idestart (s.buf b) = .ok c →
      DiskIs m old (s.dev.disk 1) → Flight m old s
  | served {b : Nat} {rest : List Nat} : s.outstanding = 1 → s.idequeue = b :: rest →
      s.dev.cmd = none → DiskIs m (old ++ [s.buf b]) (s.dev.disk 1) →
      Outcome m (old ++ [s.buf b]) old.length ((s.buf b).completed s.dev.buffer) →
      Flight m old s

/-- `old` are the requests that have left the queue. -/
structure IdeInv (m : MemDisk) (old : List Buf) (s : IdeState) : Prop where
  inside : ∀ p, (s.pc p).inside = true ↔ s.lock = some (.proc p)
  handler : s.intr.inside = true ↔ s.lock = some .intr
  procs : ∀ p, (s.pc p).Ok m old s p
  queued : ∀ b ∈ s.idequeue, ∃ p, (s.pc p).posted? = some b
  popped : ∀ b, s.intr.popped? = some b → b ∉ s.idequeue ∧ ∃ p, (s.pc p).posted? = some b
  asleep : ∀ p b, s.asleep p = some b →
    s.pc p = .wait b ∧ (b ∈ s.idequeue ∨ s.intr.wakes? = some b)
  requests : s.requests = old ++ s.idequeue.map s.buf
  numbers : s.idequeue.map s.number = List.range' old.length s.idequeue.length
  todo : ∀ r ∈ s.requests, r.synced = false
  flight : Flight m old s
  /-- The disk rests only while there is nothing to do or somebody is about to start it. -/
  resting : s.outstanding = 0 → s.idequeue = [] ∨
    (∃ p b, s.pc p = .start b ∧ s.idequeue = [b]) ∨ s.intr.between = true
  /-- Nobody is about to start a disk that is at work. -/
  working : s.outstanding = 1 → s.intr.between = false ∧
    ∀ p b, s.pc p = .start b → s.idequeue.head? ≠ some b
  starts : s.starts.map IdeStart.number = List.range (old.length + s.outstanding)
  heads : ∀ e ∈ s.starts, e.queue.head? = some e.buf
  returns : ∀ k r, (k, r) ∈ s.returns → k < old.length ∧ Outcome m s.requests k r
  panic : s.panicked = some .incorrectBlockno →
    ∃ r ∈ s.requests, FSSIZE + SWAPBLOCKS ≤ r.blockno

theorem IdeInv.boot (m : MemDisk) (disk0 : Nat → Page) (buffer : Page) (buf : Nat → Buf)
    (havedisk1 : Bool) : IdeInv m [] (IdeState.boot m disk0 buffer buf havedisk1) where
  inside p := by simp [IdeState.boot, IdePc.inside]
  handler := by simp [IdeState.boot, IntrPc.inside]
  procs p := trivial
  queued b hb := absurd hb List.not_mem_nil
  popped b hb := absurd hb (by simp [IdeState.boot, IntrPc.popped?])
  asleep p b h := absurd h (by simp [IdeState.boot])
  requests := rfl
  numbers := rfl
  todo r hr := absurd hr List.not_mem_nil
  flight := by
    refine .idle rfl fun m' bs h => ?_
    cases h
    rfl
  resting _ := .inl rfl
  working h := absurd h (by simp [IdeState.boot, IdeState.outstanding, IntrPc.taken])
  starts := rfl
  heads e he := absurd he List.not_mem_nil
  returns k r h := absurd h List.not_mem_nil
  panic h := absurd h (by simp [IdeState.boot])

/-! ### Consequences -/

theorem IdeInv.ok (h : IdeInv m old s) (hpc : s.pc p = pc) : pc.Ok m old s p :=
  hpc ▸ h.procs p

theorem IdePc.buf?_of_posted? (h : pc.posted? = some b) : pc.buf? = some b := by
  cases pc <;> first | exact h | exact absurd h (by simp [IdePc.posted?])

theorem IdeInv.owner (h : IdeInv m old s) (hb : (s.pc p).buf? = some b) :
    s.owner b = some p := by
  have hok := h.procs p
  cases hpc : s.pc p <;> rw [hpc] at hb hok
  case out | check => exact absurd hb (by simp [IdePc.buf?])
  all_goals
    cases hb
    exact hok.1

theorem IdeInv.unique (h : IdeInv m old s) (hp : (s.pc p).buf? = some b)
    (hq : (s.pc q).buf? = some b) : q = p :=
  Option.some.inj ((h.owner hq).symm.trans (h.owner hp))

theorem IdeInv.awake (h : IdeInv m old s) (hpc : ∀ b, s.pc p ≠ .wait b) : s.asleep p = none := by
  cases hs : s.asleep p with
  | none => rfl
  | some b => exact absurd (h.asleep p b hs).1 (hpc b)

theorem IdeInv.handler_outside (h : IdeInv m old s) (hp : (s.pc p).inside = true) :
    s.intr.inside = false := by
  rw [← Bool.not_eq_true, h.handler, (h.inside p).mp hp]
  simp

theorem IdeInv.outside (h : IdeInv m old s) (hin : s.intr.inside = true) (p : Nat) :
    (s.pc p).inside = false := by
  rw [← Bool.not_eq_true, h.inside, h.handler.mp hin]
  simp

theorem IdeState.outcome_eq (h : s.intr.popped? ≠ some b) : s.outcome b = s.buf b := by
  unfold IdeState.outcome
  split
  · next b' heq => rw [heq] at h; exact if_neg fun heq' => h (congrArg some heq')
  · next b' heq => rw [heq] at h; exact if_neg fun heq' => h (congrArg some heq')
  · rfl

theorem IdeState.outcome_idle (h : s.intr.popped? = none) : s.outcome b = s.buf b :=
  IdeState.outcome_eq (by simp [h])

theorem IntrPc.popped?_of_outside {i : IntrPc} (h : i.inside = false) : i.popped? = none := by
  cases i <;> first | rfl | exact absurd h (by simp [IntrPc.inside])

theorem IntrPc.between_of_outside {i : IntrPc} (h : i.inside = false) : i.between = false := by
  cases i <;> first | rfl | exact absurd h (by simp [IntrPc.inside])

theorem Flight.le_one (h : Flight m old s) : s.outstanding ≤ 1 := by
  cases h <;> omega

theorem Flight.queue_ne_nil (h : Flight m old s) (h1 : s.outstanding = 1) :
    s.idequeue ≠ [] := by
  cases h with
  | idle h0 => omega
  | busy _ hq => simp [hq]
  | served _ hq => simp [hq]

theorem IdeInv.nodup (h : IdeInv m old s) : s.idequeue.Nodup := by
  apply List.Nodup.of_map s.number
  rw [h.numbers]
  exact List.nodup_range'

theorem IdeInv.todo_of_queued (h : IdeInv m old s) (hb : b ∈ s.idequeue) :
    (s.buf b).synced = false := by
  apply h.todo
  rw [h.requests]
  exact List.mem_append_right _ (List.mem_map_of_mem hb)

/-- A statement of another process, or of the handler, that leaves alone what the
    process relies on. -/
theorem IdePc.Ok.frame {t : IdeState} {new : List Buf} (h : pc.Ok m old s p)
    (howner : ∀ b, pc.buf? = some b → t.owner b = s.owner b)
    (hready : ∀ b, pc = .acquire b ∨ pc = .append b → t.buf b = s.buf b)
    (hqueue : ∀ b, pc.posted? = some b → b ∈ s.idequeue → b ∈ t.idequeue)
    (hanswer : ∀ b, pc.posted? = some b → Answered m old s b → Answered m new t b) :
    pc.Ok m new t p := by
  cases pc with
  | out => trivial
  | check b => trivial
  | acquire b => exact ⟨(howner b rfl).trans h.1, by rw [hready b (.inl rfl)]; exact h.2⟩
  | append b => exact ⟨(howner b rfl).trans h.1, by rw [hready b (.inr rfl)]; exact h.2⟩
  | start b => exact ⟨(howner b rfl).trans h.1, hqueue b rfl h.2⟩
  | sleep b => exact ⟨(howner b rfl).trans h.1, hqueue b rfl h.2⟩
  | test b => exact ⟨(howner b rfl).trans h.1, h.2.imp (hqueue b rfl) (hanswer b rfl)⟩
  | wait b => exact ⟨(howner b rfl).trans h.1, h.2.imp (hqueue b rfl) (hanswer b rfl)⟩
  | release b => exact ⟨(howner b rfl).trans h.1, hanswer b rfl h.2⟩

theorem Flight.frame {t : IdeState} (h : Flight m old s) (more : List Nat)
    (hqueue : t.idequeue = s.idequeue ++ more) (hbuf : ∀ b ∈ s.idequeue, t.buf b = s.buf b)
    (hdev : t.dev = s.dev) (hout : t.outstanding = s.outstanding) : Flight m old t := by
  cases h with
  | idle h0 hdisk => exact .idle (hout.trans h0) (by rwa [hdev])
  | @busy b rest c h1 hq hcmd hstart hdisk =>
    have hb : t.buf b = s.buf b := hbuf b (by rw [hq]; exact List.mem_cons_self)
    exact .busy (hout.trans h1) (by rw [hqueue, hq]; rfl) (by rw [hdev]; exact hcmd)
      (by rw [hb]; exact hstart) (by rwa [hdev])
  | @served b rest h1 hq hcmd hdisk hres =>
    have hb : t.buf b = s.buf b := hbuf b (by rw [hq]; exact List.mem_cons_self)
    exact .served (hout.trans h1) (by rw [hqueue, hq]; rfl) (by rw [hdev]; exact hcmd)
      (by rw [hdev, hb]; exact hdisk) (by rw [hdev, hb]; exact hres)

theorem Answered.frame {t : IdeState} {new : List Buf} (h : Answered m old s b)
    (hgone : b ∉ t.idequeue) (hnumber : t.number b = s.number b)
    (houtcome : t.outcome b = s.outcome b) (hold : old.length ≤ new.length)
    (hrequests : ∃ more, t.requests = s.requests ++ more) : Answered m new t b := by
  refine ⟨hgone, hnumber ▸ lt_of_lt_of_le h.number hold, houtcome ▸ h.synced, ?_⟩
  obtain ⟨more, hmore⟩ := hrequests
  rw [hmore, hnumber, houtcome]
  exact h.outcome.append more

/-! ### Statements that move one process -/

section Move

variable {lock : Option IdeHolder} {asleep : Nat → Option Nat} {returns : List (Nat × Buf)}

/-- Process `p` goes to `pc`; buffers, queue, device and handler stay as they are. -/
theorem IdeInv.move (h : IdeInv m old s)
    (hin : pc.inside = true ↔ lock = some (.proc p))
    (hother : ∀ q, q ≠ p → (lock = some (.proc q) ↔ s.lock = some (.proc q)))
    (hintr : lock = some .intr ↔ s.lock = some .intr)
    (hok : pc.Ok m old s p) (hpc : ∀ b, pc ≠ .start b)
    (hposted : ∀ b, (s.pc p).posted? = some b →
      pc.posted? = some b ∨ (b ∉ s.idequeue ∧ s.intr.popped? ≠ some b))
    (hstart : ∀ b, s.pc p = .start b → s.idequeue.head? ≠ some b)
    (hasleep : ∀ q b, asleep q = some b →
      q ≠ p ∧ s.asleep q = some b ∨ q = p ∧ pc = .wait b ∧ b ∈ s.idequeue)
    (hreturns : ∀ k r, (k, r) ∈ returns → k < old.length ∧ Outcome m s.requests k r) :
    IdeInv m old
      { s with
        pc := update s.pc p pc, lock := lock, asleep := asleep
        returns := returns } where
  inside q := by
    by_cases hq : q = p
    · subst hq
      simpa using hin
    · simp only [update_of_ne hq, hother q hq]
      exact h.inside q
  handler := h.handler.trans hintr.symm
  procs q := by
    by_cases hq : q = p
    · subst hq
      simp only [update_self]
      exact hok.frame (fun _ _ => rfl) (fun _ _ => rfl) (fun _ _ => id)
        fun _ _ ha => ⟨ha.1, ha.2, ha.3, ha.4⟩
    · simp only [update_of_ne hq]
      exact (h.procs q).frame (fun _ _ => rfl) (fun _ _ => rfl) (fun _ _ => id)
        fun _ _ ha => ⟨ha.1, ha.2, ha.3, ha.4⟩
  queued b hb := by
    obtain ⟨q, hq⟩ := h.queued b hb
    refine ⟨q, ?_⟩
    by_cases hqp : q = p
    · subst hqp
      simp only [update_self]
      exact (hposted b hq).resolve_right fun hn => hn.1 hb
    · simpa only [update_of_ne hqp] using hq
  popped b hb := by
    obtain ⟨hgone, q, hq⟩ := h.popped b hb
    refine ⟨hgone, q, ?_⟩
    by_cases hqp : q = p
    · subst hqp
      simp only [update_self]
      exact (hposted b hq).resolve_right fun hn => hn.2 hb
    · simpa only [update_of_ne hqp] using hq
  asleep q b hq := by
    rcases hasleep q b hq with ⟨hne, hs⟩ | ⟨rfl, hwait, hb⟩
    · simp only [update_of_ne hne]
      exact h.asleep q b hs
    · simp only [update_self]
      exact ⟨hwait, .inl hb⟩
  requests := h.requests
  numbers := h.numbers
  todo := h.todo
  flight := h.flight.frame [] (List.append_nil _).symm (fun _ _ => rfl) rfl rfl
  resting h0 := by
    refine (h.resting h0).imp_right (Or.imp_left ?_)
    rintro ⟨q, b, hq, hqueue⟩
    have hne : q ≠ p := by
      rintro rfl
      exact hstart b hq (by rw [hqueue]; rfl)
    exact ⟨q, b, by simpa only [update_of_ne hne] using hq, hqueue⟩
  working h1 := by
    refine ⟨(h.working h1).1, fun q b hq => ?_⟩
    by_cases hqp : q = p
    · subst hqp
      simp only [update_self] at hq
      exact absurd hq (hpc b)
    · simp only [update_of_ne hqp] at hq
      exact (h.working h1).2 q b hq
  starts := h.starts
  heads := h.heads
  returns := hreturns
  panic := h.panic

end Move

theorem IdeInv.fail (h : IdeInv m old s) {why : IdePanic}
    (hwhy : why = .incorrectBlockno → ∃ r ∈ s.requests, FSSIZE + SWAPBLOCKS ≤ r.blockno) :
    IdeInv m old (s.fail why) :=
  { h with
    procs := fun p => (h.procs p).frame (fun _ _ => rfl) (fun _ _ => rfl) (fun _ _ => id)
      fun _ _ ha => ⟨ha.1, ha.2, ha.3, ha.4⟩
    flight := h.flight.frame [] (List.append_nil _).symm (fun _ _ => rfl) rfl rfl
    panic := fun hp => hwhy (Option.some.inj hp) }

theorem IdeInv.env (h : IdeInv m old s) {owner : Nat → Option Nat} {buf : Nat → Buf}
    {asleep : Nat → Option Nat}
    (hbuf : ∀ q b, (s.pc q).buf? = some b → owner b = s.owner b ∧ buf b = s.buf b)
    (hasleep : ∀ q b, asleep q = some b → s.asleep q = some b) :
    IdeInv m old { s with owner := owner, buf := buf, asleep := asleep } := by
  have hqueue : ∀ b ∈ s.idequeue, buf b = s.buf b := by
    intro b hb
    obtain ⟨q, hq⟩ := h.queued b hb
    exact (hbuf q b (IdePc.buf?_of_posted? hq)).2
  refine { h with
    procs := fun q => ?_, asleep := fun q b hq => h.asleep q b (hasleep q b hq)
    requests := ?_, flight := ?_ }
  · refine (h.procs q).frame (fun b hb => (hbuf q b hb).1) (fun b hb => ?_) (fun _ _ => id)
      fun b hb ha => ?_
    · refine (hbuf q b ?_).2
      rcases hb with hb | hb <;> rw [hb] <;> rfl
    · have heq := (hbuf q b (IdePc.buf?_of_posted? hb)).2
      refine ha.frame ha.gone rfl ?_ le_rfl ⟨[], (List.append_nil _).symm⟩
      simp only [IdeState.outcome, heq]
  · grind [h.requests, List.map_congr_left]
  · exact h.flight.frame [] (List.append_nil _).symm hqueue rfl rfl

/-- A buffer whose lock is free, or held by a process outside `iderw`, is in no call. -/
theorem IdeInv.not_in_call (h : IdeInv m old s) (hb : ∀ q, s.owner b = some q → s.pc q = .out)
    {b' : Nat} (hq : (s.pc q).buf? = some b') : b' ≠ b := by
  rintro rfl
  rw [hb q (h.owner hq)] at hq
  exact absurd hq (by simp [IdePc.buf?])

theorem IdeInv.setOwner (h : IdeInv m old s) (hb : ∀ q, s.owner b = some q → s.pc q = .out)
    (o : Option Nat) : IdeInv m old { s with owner := update s.owner b o } :=
  h.env (fun _ _ hq => ⟨update_of_ne (h.not_in_call hb hq) _ _, rfl⟩) fun _ _ => id

theorem IdeInv.fill (h : IdeInv m old s) (hb : ∀ q, s.owner b = some q → s.pc q = .out)
    (r : Buf) : IdeInv m old { s with buf := update s.buf b r } :=
  h.env (fun _ _ hq => ⟨rfl, update_of_ne (h.not_in_call hb hq) _ _⟩) fun _ _ => id

theorem IdeInv.rouse (h : IdeInv m old s) (p : Nat) :
    IdeInv m old { s with asleep := update s.asleep p none } := by
  refine h.env (fun _ _ _ => ⟨rfl, rfl⟩) fun q b hq => ?_
  by_cases hqp : q = p
  · subst hqp
    simp at hq
  · rwa [update_of_ne hqp] at hq

/-! ### The statements of `iderw` -/

theorem IdeInv.goto (h : IdeInv m old s) (hin : pc.inside = (s.pc p).inside)
    (hok : pc.Ok m old s p) (hpc : ∀ b, pc ≠ .start b) (hwait : ∀ b, s.pc p ≠ .wait b)
    (hposted : ∀ b, (s.pc p).posted? = some b → pc.posted? = some b)
    (hstart : ∀ b, s.pc p = .start b → s.idequeue.head? ≠ some b) :
    IdeInv m old (s.goto p pc) := by
  refine h.move ?_ (fun _ _ => Iff.rfl) Iff.rfl hok hpc (fun b hb => .inl (hposted b hb)) hstart
    (fun q b hq => ?_) h.returns
  · rw [hin]
    exact h.inside p
  · grind [h.awake]

/-- `acquire(&idelock)`. -/
theorem IdeInv.acquire (h : IdeInv m old s) (hlock : s.lock = none) (hasleep : s.asleep p = none)
    (hin : pc.inside = true) (hok : pc.Ok m old s p) (hpc : ∀ b, pc ≠ .start b)
    (hstart : ∀ b, s.pc p ≠ .start b)
    (hposted : ∀ b, (s.pc p).posted? = some b → pc.posted? = some b) :
    IdeInv m old { s.goto p pc with lock := some (.proc p) } := by
  refine h.move (by simpa using hin) (fun q hq => ?_) (by simp [hlock]) hok hpc
    (fun b hb => .inl (hposted b hb)) (fun b hb => absurd hb (hstart b)) (fun q b hq => ?_)
    h.returns
  · simpa [hlock] using fun heq => hq heq.symm
  · grind [IdeState.goto]

/-- `sleep(b, &idelock)`. -/
theorem IdeInv.sleep (h : IdeInv m old s) (hpc : s.pc p = .sleep b) :
    IdeInv m old
      { s.goto p (.wait b) with
        lock := none, asleep := update s.asleep p (some b) } := by
  have hlock : s.lock = some (.proc p) := (h.inside p).mp (by rw [hpc]; rfl)
  have hok : s.owner b = some p ∧ b ∈ s.idequeue := h.ok hpc
  refine h.move (by simp [IdePc.inside]) (fun q hq => ?_) (by simp [hlock])
    ⟨hok.1, .inl hok.2⟩ (by simp) (fun b' hb' => .inl ?_) (by simp [hpc]) (fun q b' hq => ?_)
    h.returns
  · simpa [hlock] using fun heq => hq heq.symm
  · rwa [hpc] at hb'
  · by_cases hqp : q = p
    · grind
    · grind

/-- `release(&idelock)` and the return. -/
theorem IdeInv.leave (h : IdeInv m old s) (hpc : s.pc p = .release b) :
    IdeInv m old
      { s.goto p .out with
        lock := none, returns := s.returns ++ [(s.number b, s.buf b)] } := by
  have hin : (s.pc p).inside = true := by rw [hpc]; rfl
  have hlock : s.lock = some (.proc p) := (h.inside p).mp hin
  have hok : s.owner b = some p ∧ Answered m old s b := h.ok hpc
  have hpopped := IntrPc.popped?_of_outside (h.handler_outside hin)
  refine h.move (by simp [IdePc.inside]) (fun q hq => ?_) (by simp [hlock]) trivial (by simp)
    (fun b' hb' => .inr ?_) (by simp [hpc]) (fun q b' hq => .inl ⟨?_, hq⟩) fun k r hmem => ?_
  · simpa [hlock] using fun heq => hq heq.symm
  · rw [hpc] at hb'
    cases hb'
    exact ⟨hok.2.gone, by simp [hpopped]⟩
  · rintro rfl
    exact absurd (h.asleep q b' hq).1 (by simp [hpc])
  · rcases List.mem_append.mp hmem with hmem | hmem
    · exact h.returns k r hmem
    · obtain ⟨rfl, rfl⟩ := Prod.mk.inj (List.mem_singleton.mp hmem)
      have hbuf : s.outcome b = s.buf b := IdeState.outcome_idle hpopped
      exact ⟨hok.2.number, hbuf ▸ hok.2.outcome⟩

/-- The walk to the end of `idequeue`. -/
theorem IdeInv.append (h : IdeInv m old s) (hpc : s.pc p = .append b) :
    IdeInv m old
      { s.goto p (.start b) with
        idequeue := s.idequeue ++ [b]
        requests := s.requests ++ [s.buf b]
        number := update s.number b s.requests.length } := by
  have hin : (s.pc p).inside = true := by rw [hpc]; rfl
  have houtside := h.handler_outside hin
  have hpopped := IntrPc.popped?_of_outside houtside
  have hok : s.owner b = some p ∧ (s.buf b).synced = false := h.ok hpc
  have hbuf : (s.pc p).buf? = some b := by rw [hpc]; rfl
  -- the other calls are on other buffers, and nobody else holds `idelock`
  have hother : ∀ q b', q ≠ p → (s.pc q).posted? = some b' → b' ≠ b := by
    rintro q b' hq hb' rfl
    exact hq (h.unique hbuf (IdePc.buf?_of_posted? hb'))
  have hposter : ∀ q b', (s.pc q).posted? = some b' → q ≠ p := by grind [IdePc.posted?]
  have hfresh : b ∉ s.idequeue := by grind [h.queued]
  have hnostart : ∀ q b', s.pc q ≠ .start b' := by
    intro q b' hq
    have hlock := (h.inside q).mp (by rw [hq]; rfl)
    rw [(h.inside p).mp hin] at hlock
    obtain rfl := IdeHolder.proc.inj (Option.some.inj hlock)
    exact absurd (hpc.symm.trans hq) (by simp)
  have hlen : s.requests.length = old.length + s.idequeue.length := by simp [h.requests]
  refine
    { inside := fun q => ?_, handler := h.handler, procs := fun q => ?_
      queued := fun b' hb' => ?_, popped := fun b' hb' => ?_, asleep := fun q b' hq => ?_
      requests := by simp [h.requests, IdeState.goto], numbers := ?_, todo := fun r hr => ?_
      flight := h.flight.frame [b] rfl (fun _ _ => rfl) rfl rfl
      resting := fun h0 => ?_, working := fun h1 => ?_, starts := h.starts, heads := h.heads
      returns := fun k r hr => ?_, panic := fun hp => ?_ }
  · by_cases hq : q = p
    · subst hq
      simpa [IdeState.goto, IdePc.inside] using (h.inside q).mp hin
    · simpa only [IdeState.goto, update_of_ne hq] using h.inside q
  · by_cases hq : q = p
    · subst hq
      simp only [IdeState.goto, update_self]
      exact ⟨hok.1, List.mem_append_right _ List.mem_cons_self⟩
    · simp only [IdeState.goto, update_of_ne hq]
      refine (h.procs q).frame (fun _ _ => rfl) (fun _ _ => rfl)
        (fun _ _ hb' => List.mem_append_left _ hb') fun b' hb' ha => ?_
      have hne := hother q b' hq hb'
      exact ha.frame (by simpa [hne] using ha.gone) (update_of_ne hne _ _) rfl le_rfl
        ⟨_, rfl⟩
  · rcases List.mem_append.mp hb' with hb' | hb'
    · obtain ⟨q, hq⟩ := h.queued b' hb'
      exact ⟨q, by simpa only [IdeState.goto, update_of_ne (hposter q b' hq)] using hq⟩
    · obtain rfl := List.mem_singleton.mp hb'
      exact ⟨p, by simp [IdeState.goto, IdePc.posted?]⟩
  · exact absurd (hpopped.symm.trans hb') (by simp)
  · obtain ⟨hwait, hb'⟩ := h.asleep q b' hq
    have hne : q ≠ p := by grind
    refine ⟨by simpa only [IdeState.goto, update_of_ne hne] using hwait, ?_⟩
    exact hb'.imp_left (List.mem_append_left _)
  · have hmap : s.idequeue.map (update s.number b s.requests.length) =
        s.idequeue.map s.number := by
      refine List.map_congr_left fun b' hb' => update_of_ne ?_ _ _
      rintro rfl
      exact hfresh hb'
    simp only [List.map_append, List.map_cons, List.map_nil, update_self, hmap,
      List.length_append, List.length_singleton, List.range'_concat, h.numbers, one_mul]
    rw [hlen]
  · grind [h.todo]
  · rcases h.resting h0 with hempty | ⟨q, b', hq, _⟩ | hbetween
    · exact .inr (.inl ⟨p, b, by simp [IdeState.goto], by simp [hempty]⟩)
    · exact absurd hq (hnostart q b')
    · exact absurd hbetween (by simp [IntrPc.between_of_outside houtside])
  · refine ⟨(h.working h1).1, fun q b' hq => ?_⟩
    by_cases hqp : q = p
    · subst hqp
      simp only [IdeState.goto, update_self, IdePc.start.injEq] at hq
      subst hq
      -- the queue was not empty, so its head is another buffer
      cases hqueue : s.idequeue with
      | nil => exact absurd hqueue (h.flight.queue_ne_nil h1)
      | cons b0 rest => grind
    · simp only [IdeState.goto, update_of_ne hqp] at hq
      exact absurd hq (hnostart q b')
  · exact ⟨(h.returns k r hr).1, (h.returns k r hr).2.append _⟩
  · obtain ⟨r, hr, hblock⟩ := h.panic hp
    exact ⟨r, List.mem_append_left _ hr, hblock⟩

/-! ### Starting the disk -/

theorem idestart_error {why : IdePanic} (h : idestart r = .error why) :
    why = .incorrectBlockno ∧ FSSIZE + SWAPBLOCKS ≤ r.blockno := by grind [idestart]

theorem IdeInv.badBlock (h : IdeInv m old s) {why : IdePanic} (hb : b ∈ s.idequeue)
    (herr : idestart (s.buf b) = .error why) : IdeInv m old (s.fail why) := by
  refine h.fail fun _ => ⟨s.buf b, ?_, (idestart_error herr).2⟩
  rw [h.requests]
  exact List.mem_append_right _ (List.mem_map_of_mem hb)

/-- `idestart` for the head of the queue while the disk rests; whoever calls it goes on
    to `pcs` or `i`. -/
theorem IdeInv.issue (h : IdeInv m old s) {rest : List Nat} (h0 : s.outstanding = 0)
    (hqueue : s.idequeue = b :: rest) (hstart : idestart (s.buf b) = .ok c)
    {pcs : Nat → IdePc} {i : IntrPc}
    (hin : ∀ q, (pcs q).inside = (s.pc q).inside) (hi : i.inside = s.intr.inside)
    (hok : ∀ q, (pcs q).Ok m old s q)
    (hposted : ∀ q b, (s.pc q).posted? = some b → (pcs q).posted? = some b)
    (hwait : ∀ q b, s.pc q = .wait b → pcs q = .wait b)
    (hwakes : ∀ b, s.intr.wakes? = some b → i.wakes? = some b)
    (hpopped : s.intr.popped? = none) (hpopped' : i.popped? = none)
    (htaken : i.taken = false) (hbetween : i.between = false)
    (hnext : ∀ q b', pcs q = .start b' → s.idequeue.head? ≠ some b') :
    IdeInv m old { s.issue b c with pc := pcs, intr := i } := by
  have hrest : s.dev.cmd = none ∧ s.dev.irq = 0 ∧ s.intr.taken = false := by
    grind [IdeState.outstanding]
  have hnumber : s.number b = old.length := by grind [h.numbers, List.range'_succ]
  have hdisk : DiskIs m old (s.dev.disk 1) := by
    cases h.flight with
    | idle _ hdisk => exact hdisk
    | busy h1 => omega
    | served h1 => omega
  have hout : IdeState.outstanding { s.issue b c with pc := pcs, intr := i } = 1 := by
    simp [IdeState.outstanding, IdeState.issue, hrest.2.1, htaken]
  refine
    { inside := fun q => (by rw [hin q]; exact h.inside q : _ ↔ s.lock = _)
      handler := (by rw [hi]; exact h.handler : i.inside = true ↔ s.lock = some .intr)
      procs := fun q => ?_
      queued := fun b' hb' => (h.queued b' hb').imp fun q => hposted q b'
      popped := fun b' hb' => absurd (hpopped'.symm.trans hb') (by simp)
      asleep := fun q b' hq =>
        ⟨hwait q b' (h.asleep q b' hq).1, (h.asleep q b' hq).2.imp_right (hwakes b')⟩
      requests := h.requests, numbers := h.numbers, todo := h.todo
      flight := .busy hout hqueue rfl hstart hdisk
      resting := fun h1 => absurd (hout.symm.trans h1) (by decide)
      working := fun _ => ⟨hbetween, hnext⟩
      starts := ?_, heads := fun e he => ?_, returns := h.returns, panic := h.panic }
  · refine (hok q).frame (fun _ _ => rfl) (fun _ _ => rfl) (fun _ _ => id) fun b' _ ha => ?_
    refine ha.frame ha.gone rfl ?_ le_rfl ⟨[], (List.append_nil _).symm⟩
    exact (IdeState.outcome_idle hpopped').trans (IdeState.outcome_idle hpopped).symm
  · rw [hout]
    simp [IdeState.issue, h.starts, h0, hnumber, List.range_succ]
  · rcases List.mem_append.mp he with he | he
    · exact h.heads e he
    · grind

/-- `if(idequeue == b) idestart(b)`. -/
theorem IdeInv.start (h : IdeInv m old s) (hpc : s.pc p = .start b)
    (hhead : s.idequeue.head? = some b) :
    IdeInv m old (s.idestart b fun t => t.goto p (.test b)) := by
  have hin : (s.pc p).inside = true := by rw [hpc]; rfl
  have houtside := h.handler_outside hin
  have hok : s.owner b = some p ∧ b ∈ s.idequeue := h.ok hpc
  unfold IdeState.idestart
  split
  · next why herr => exact h.badBlock hok.2 herr
  next c hstart =>
  split
  swap
  · exact h
  obtain ⟨rest, hqueue⟩ : ∃ rest, s.idequeue = b :: rest := by
    cases hq : s.idequeue with
    | nil => simp [hq] at hhead
    | cons b0 rest => exact ⟨rest, by rw [hq] at hhead; rw [Option.some.inj hhead]⟩
  have h0 : s.outstanding = 0 := by
    have hle := h.flight.le_one
    have hne : s.outstanding ≠ 1 := fun h1 => (h.working h1).2 p b hpc hhead
    omega
  have hcases : ∀ q, q = p ∧ update (s.issue b c).pc p (.test b) q = .test b ∨
      q ≠ p ∧ update (s.issue b c).pc p (.test b) q = s.pc q := by
    intro q
    by_cases hq : q = p
    · exact .inl ⟨hq, by rw [hq, update_self]⟩
    · exact .inr ⟨hq, update_of_ne hq _ _⟩
  have htaken : s.intr.taken = false := by grind [IdeState.outstanding]
  refine h.issue h0 hqueue hstart (fun q => ?_) rfl (fun q => ?_) (fun q b' hq => ?_)
    (fun q b' hq => ?_) (fun _ => id) (IntrPc.popped?_of_outside houtside)
    (IntrPc.popped?_of_outside houtside) htaken (IntrPc.between_of_outside houtside)
    fun q b' hq => ?_
  · rcases hcases q with ⟨rfl, heq⟩ | ⟨_, heq⟩
    · rw [heq, hin]; rfl
    · rw [heq]
  · rcases hcases q with ⟨rfl, heq⟩ | ⟨_, heq⟩
    · rw [heq]; exact ⟨hok.1, .inl hok.2⟩
    · rw [heq]; exact h.procs q
  · rcases hcases q with ⟨rfl, heq⟩ | ⟨_, heq⟩
    · rw [heq]; rwa [hpc] at hq
    · rwa [heq]
  · grind
  · rcases hcases q with ⟨rfl, heq⟩ | ⟨hne, heq⟩
    · exact absurd (heq.symm.trans hq) (by simp)
    · -- a second process at its `idestart` would hold the lock too
      rw [heq] at hq
      have hlock := (h.inside q).mp (by rw [hq]; rfl)
      rw [(h.inside p).mp hin] at hlock
      exact absurd (IdeHolder.proc.inj (Option.some.inj hlock)).symm hne

/-- Process `p` executes a statement. -/
theorem IdeInv.run (h : IdeInv m old s) (p : Nat) : IdeInv m old (s.run p) := by
  unfold IdeState.run
  split
  · exact h
  · next b hpc =>
    split
    · exact h.fail (by simp)
    next howner =>
    split
    · exact h.fail (by simp)
    next hsynced =>
    split
    · exact h.fail (by simp)
    rw [not_not] at howner
    exact h.goto (by rw [hpc]; rfl) ⟨howner, by simpa using hsynced⟩ (by simp) (by simp [hpc])
      (by simp [hpc, IdePc.posted?]) (by simp [hpc])
  · next b hpc =>
    split
    · next hlock =>
      exact h.acquire hlock (h.awake (by simp [hpc])) rfl (h.ok hpc :) (by simp) (by simp [hpc])
        (by simp [hpc, IdePc.posted?])
    · exact h
  · next b hpc => exact h.append hpc
  · next b hpc =>
    split
    · next hhead => exact h.start hpc hhead
    · next hhead =>
      have hok : s.owner b = some p ∧ b ∈ s.idequeue := h.ok hpc
      exact h.goto (by rw [hpc]; rfl) ⟨hok.1, .inl hok.2⟩ (by simp) (by simp [hpc])
        (by simp [hpc, IdePc.posted?]) (by simpa [hpc] using hhead)
  · next b hpc =>
    have hok : s.owner b = some p ∧ (b ∈ s.idequeue ∨ Answered m old s b) := h.ok hpc
    have hbuf : s.outcome b = s.buf b :=
      IdeState.outcome_idle
        (IntrPc.popped?_of_outside (h.handler_outside (by rw [hpc]; rfl : _ = true)))
    split
    · next hsynced =>
      -- a request in the queue is not done, so this one has been answered
      have hanswered : Answered m old s b := hok.2.resolve_left fun hb => by
        rw [h.todo_of_queued hb] at hsynced
        simp at hsynced
      exact h.goto (by rw [hpc]; rfl) ⟨hok.1, hanswered⟩ (by simp) (by simp [hpc])
        (by simp [hpc, IdePc.posted?]) (by simp [hpc])
    · next hsynced =>
      have hqueued : b ∈ s.idequeue := hok.2.resolve_right fun ha => by grind [ha.synced]
      exact h.goto (by rw [hpc]; rfl) ⟨hok.1, hqueued⟩ (by simp) (by simp [hpc])
        (by simp [hpc, IdePc.posted?]) (by simp [hpc])
  · next b hpc => exact h.sleep hpc
  · next b hpc =>
    split
    · next hwoken =>
      exact h.acquire hwoken.2 hwoken.1 rfl (h.ok hpc :) (by simp) (by simp [hpc])
        (by simp [hpc, IdePc.posted?])
    · exact h
  · next b hpc => exact h.leave hpc

/-! ### The device and the handler -/

theorem IdeInv.device (h : IdeInv m old s) : IdeInv m old { s with dev := s.dev.perform } := by
  cases hcmd : s.dev.cmd with
  | none =>
    have hsame : s.dev.perform = s.dev := by rw [IdeDevice.perform, hcmd]
    rw [hsame]
    exact h
  | some c =>
    have hflight : ∃ b rest, s.outstanding = 1 ∧ s.idequeue = b :: rest ∧
        idestart (s.buf b) = .ok c ∧ DiskIs m old (s.dev.disk 1) := by
      cases h.flight with
      | idle h0 => simp [IdeState.outstanding, hcmd] at h0
      | @busy b rest c' h1 hq hc hstart hdisk => grind
      | served _ _ hc => exact absurd (hc.symm.trans hcmd) (by simp)
    obtain ⟨b, rest, h1, hqueue, hstart, hdisk⟩ := hflight
    obtain ⟨hnone, hirq, hdisk', hres⟩ := IdeDevice.perform_spec hstart hcmd hdisk
    have hout : IdeState.outstanding { s with dev := s.dev.perform } = s.outstanding := by
      grind [IdeState.outstanding]
    have hpopped : s.intr.popped? = none := by
      have hb := (h.working h1).1
      cases hi : s.intr <;> first | rfl | exact absurd hb (by simp [hi, IntrPc.between])
    have hsame : ∀ b', IdeState.outcome { s with dev := s.dev.perform } b' = s.outcome b' := by
      grind [IdeState.outcome_idle]
    exact { h with
      procs := fun q => (h.procs q).frame (fun _ _ => rfl) (fun _ _ => rfl) (fun _ _ => id)
        fun b' _ ha => ha.frame ha.gone rfl (hsame b') le_rfl ⟨[], (List.append_nil _).symm⟩
      flight := .served (hout.trans h1) hqueue hnone hdisk' hres
      resting := fun h0 => h.resting (hout.symm.trans h0)
      working := fun h1 => h.working (hout.symm.trans h1)
      starts := by rw [hout]; exact h.starts }

theorem IdeInv.turn (h : IdeInv m old s) {i : IntrPc} {lock : Option IdeHolder}
    {asleep : Nat → Option Nat} {irq : Nat}
    (hin : i.inside = true ↔ lock = some .intr)
    (hother : ∀ q, lock = some (.proc q) ↔ s.lock = some (.proc q))
    (hpopped : s.intr.popped? = none) (hpopped' : i.popped? = none)
    (hasleep : ∀ q b, asleep q = some b →
      s.asleep q = some b ∧ (s.intr.wakes? = some b → i.wakes? = some b))
    (hout : (irq + if i.taken then 1 else 0) = s.dev.irq + if s.intr.taken then 1 else 0)
    (hrest : s.intr.between = true → s.idequeue = [] ∨ i.between = true)
    (hwork : s.intr.between = false → i.between = false) :
    IdeInv m old
      { s with
        intr := i, lock := lock, asleep := asleep, dev := { s.dev with irq := irq } } := by
  have hsame : IdeState.outstanding
      { s with intr := i, lock := lock, asleep := asleep, dev := { s.dev with irq := irq } } =
      s.outstanding := by
    simp only [IdeState.outstanding, Nat.add_assoc, hout]
  refine { h with
    inside := fun q => (h.inside q).trans (hother q).symm
    handler := hin
    procs := fun q => ?_
    popped := fun b hb => absurd (hpopped'.symm.trans hb) (by simp)
    asleep := fun q b hq => ?_
    flight := ?_
    resting := fun h0 => ?_
    working := fun h1 => ?_
    starts := by rw [hsame]; exact h.starts }
  · refine (h.procs q).frame (fun _ _ => rfl) (fun _ _ => rfl) (fun _ _ => id) fun b _ ha => ?_
    exact ha.frame ha.gone rfl
      ((IdeState.outcome_idle hpopped').trans (IdeState.outcome_idle hpopped).symm) le_rfl
      ⟨[], (List.append_nil _).symm⟩
  · obtain ⟨hs, hwakes⟩ := hasleep q b hq
    exact ⟨(h.asleep q b hs).1, (h.asleep q b hs).2.imp_right hwakes⟩
  · cases h.flight with
    | idle h0 hdisk => exact .idle (hsame.trans h0) hdisk
    | busy h1 hq hcmd hstart hdisk => exact .busy (hsame.trans h1) hq hcmd hstart hdisk
    | served h1 hq hcmd hdisk hres => exact .served (hsame.trans h1) hq hcmd hdisk hres
  · rcases h.resting (hsame.symm.trans h0) with hempty | hstart | hb
    · exact .inl hempty
    · exact .inr (.inl hstart)
    · exact (hrest hb).imp_right .inr
  · have hw := h.working (hsame.symm.trans h1)
    exact ⟨hwork hw.1, hw.2⟩

/-- `idequeue = b->qnext`: the request of `b` joins those that have left the queue. -/
theorem IdeInv.pop (h : IdeInv m old s) {rest : List Nat} (hi : s.intr = .pop)
    (hqueue : s.idequeue = b :: rest) :
    IdeInv m (old ++ [s.buf b]) { s with intr := .read b, idequeue := rest } := by
  have hin : s.intr.inside = true := by rw [hi]; rfl
  have houtside := h.outside hin
  have hnodup : b ∉ rest ∧ rest.Nodup := List.nodup_cons.mp (hqueue ▸ h.nodup)
  have hcount : s.outstanding = 1 ∧ s.dev.cmd = none ∧ s.dev.irq = 0 := by
    have hle := h.flight.le_one
    unfold IdeState.outstanding at hle ⊢
    simp only [hi, IntrPc.taken, if_true] at hle ⊢
    split at hle <;> simp_all
  obtain ⟨hdisk, hres⟩ : DiskIs m (old ++ [s.buf b]) (s.dev.disk 1) ∧
      Outcome m (old ++ [s.buf b]) old.length ((s.buf b).completed s.dev.buffer) := by
    cases h.flight with
    | idle h0 => omega
    | busy _ _ hcmd => exact absurd (hcount.2.1.symm.trans hcmd) (by simp)
    | served _ hq _ hdisk hres =>
      obtain ⟨rfl, rfl⟩ := List.cons.inj (hqueue.symm.trans hq)
      exact ⟨hdisk, hres⟩
  have hnumbers : s.number b = old.length ∧
      rest.map s.number = List.range' (old.length + 1) rest.length := by
    have hall := h.numbers
    rw [hqueue] at hall
    simpa [List.range'_succ] using hall
  have hrequests : s.requests = (old ++ [s.buf b]) ++ rest.map s.buf := by
    rw [h.requests, hqueue]
    simp
  have hzero : IdeState.outstanding { s with intr := .read b, idequeue := rest } = 0 := by
    simp [IdeState.outstanding, hcount.2.1, hcount.2.2, IntrPc.taken]
  have hold : ∀ b', (s.outcome b') = s.buf b' := fun b' =>
    IdeState.outcome_idle (by rw [hi]; rfl)
  have hanswered :
      Answered m (old ++ [s.buf b]) { s with intr := .read b, idequeue := rest } b := by
    have hnew : IdeState.outcome { s with intr := .read b, idequeue := rest } b =
        (s.buf b).completed s.dev.buffer := if_pos rfl
    refine ⟨hnodup.1, by simp [hnumbers.1], by rw [hnew]; rfl, ?_⟩
    rw [hnew]
    simp only [hnumbers.1, hrequests]
    exact hres.append _
  have hkeep : ∀ b', Answered m old s b' →
      Answered m (old ++ [s.buf b]) { s with intr := .read b, idequeue := rest } b' := by
    intro b' ha
    have hne : b ≠ b' := by
      rintro rfl
      exact ha.gone (hqueue ▸ List.mem_cons_self)
    refine ha.frame (fun hb' => ha.gone ?_) rfl ?_ (by simp) ⟨[], (List.append_nil _).symm⟩
    · rw [hqueue]
      exact List.mem_cons_of_mem _ hb'
    · rw [hold b']
      exact if_neg hne
  refine
    { inside := h.inside
      handler := ⟨fun _ => h.handler.mp hin, fun _ => rfl⟩
      procs := fun q => ?_
      queued := fun b' hb' => h.queued b' (hqueue ▸ List.mem_cons_of_mem _ hb')
      popped := fun b' hb' => ?_
      asleep := fun q b' hq => ?_
      requests := hrequests
      numbers := by simpa using hnumbers.2
      todo := h.todo
      flight := .idle hzero hdisk
      resting := fun _ => .inr (.inr rfl)
      working := fun h1 => absurd (hzero.symm.trans h1) (by decide)
      starts := by rw [hzero, h.starts, hcount.1]; simp
      heads := h.heads
      returns := fun k r hr => ?_
      panic := h.panic }
  · have hok := h.procs q
    have hq := houtside q
    dsimp only
    -- the handler holds the lock, so every call is before it or asleep
    cases hpc : s.pc q <;> rw [hpc] at hok hq
    case out | check => trivial
    case acquire => exact hok
    case wait b' =>
      refine ⟨hok.1, ?_⟩
      rcases hok.2 with hmem | ha
      · rw [hqueue] at hmem
        rcases List.mem_cons.mp hmem with rfl | hmem
        · exact .inr hanswered
        · exact .inl hmem
      · exact .inr (hkeep b' ha)
    all_goals exact absurd hq (by simp [IdePc.inside])
  · obtain rfl := Option.some.inj hb'
    exact ⟨hnodup.1, h.queued b (hqueue ▸ List.mem_cons_self)⟩
  · obtain ⟨hwait, hb'⟩ := h.asleep q b' hq
    refine ⟨hwait, ?_⟩
    rcases hb' with hb' | hb'
    · rw [hqueue] at hb'
      rcases List.mem_cons.mp hb' with rfl | hb'
      · exact .inr rfl
      · exact .inl hb'
    · exact absurd hb' (by simp [hi, IntrPc.wakes?])
  · refine ⟨?_, (h.returns k r hr).2⟩
    have := (h.returns k r hr).1
    simp only [List.length_append, List.length_singleton]
    omega

theorem IdeInv.touch (h : IdeInv m old s) {i : IntrPc} (hb : s.intr.popped? = some b)
    (hi : ∀ b', i.popped? = some b' → b' = b) (hwakes : i.wakes? = some b)
    (hin : i.inside = true) (hbetween : i.between = true) (htaken : i.taken = false)
    (hsame : IdeState.outcome { s with buf := update s.buf b r, intr := i } b =
      s.outcome b) :
    IdeInv m old { s with buf := update s.buf b r, intr := i } := by
  obtain ⟨hgone, p, hp⟩ := h.popped b hb
  have hs : s.intr.inside = true ∧ s.intr.between = true ∧ s.intr.taken = false ∧
      s.intr.wakes? = some b := by
    cases hc : s.intr <;> rw [hc] at hb <;>
      first
        | exact ⟨rfl, rfl, rfl, hb⟩
        | exact absurd hb (by simp [IntrPc.popped?])
  have hout : IdeState.outstanding { s with buf := update s.buf b r, intr := i } =
      s.outstanding := by
    simp [IdeState.outstanding, htaken, hs.2.2.1]
  have houtcome : ∀ b', IdeState.outcome
      { s with buf := update s.buf b r, intr := i } b' = s.outcome b' := by
    intro b'
    by_cases hne : b' = b
    · rw [hne]
      exact hsame
    · rw [IdeState.outcome_eq (fun heq => hne (hi b' heq)), IdeState.outcome_eq]
      · exact update_of_ne hne _ _
      · rw [hb]
        exact fun heq => hne (Option.some.inj heq).symm
  have hqueue : ∀ b' ∈ s.idequeue, update s.buf b r b' = s.buf b' := by
    intro b' hb'
    refine update_of_ne ?_ _ _
    rintro rfl
    exact hgone hb'
  refine { h with
    handler := ⟨fun _ => h.handler.mp hs.1, fun _ => hin⟩
    procs := fun q => ?_
    popped := fun b' hb' => ?_
    asleep := fun q b' hq => ?_
    requests := ?_
    flight := h.flight.frame [] (List.append_nil _).symm hqueue rfl hout
    resting := fun _ => .inr (.inr hbetween)
    working := fun h1 => ?_
    starts := by rw [hout]; exact h.starts }
  · refine (h.procs q).frame (fun _ _ => rfl) (fun b' hb' => ?_) (fun _ _ => id) fun b' _ ha =>
      ha.frame ha.gone rfl (houtcome b') le_rfl ⟨[], (List.append_nil _).symm⟩
    refine update_of_ne ?_ _ _
    rintro rfl
    -- a call that is still to be queued is not the one whose buffer was taken
    have hq : (s.pc q).buf? = some b' := by rcases hb' with hb' | hb' <;> rw [hb'] <;> rfl
    obtain rfl := h.unique (IdePc.buf?_of_posted? hp) hq
    rcases hb' with hb' | hb' <;> rw [hb'] at hp <;> exact absurd hp (by simp [IdePc.posted?])
  · obtain rfl := hi b' hb'
    exact ⟨hgone, p, hp⟩
  · obtain ⟨hwait, hb'⟩ := h.asleep q b' hq
    refine ⟨hwait, hb'.imp_right fun heq => ?_⟩
    rw [← heq, hs.2.2.2]
    exact hwakes
  · rw [h.requests]
    exact congrArg (old ++ ·) (List.map_congr_left fun b' hb' => (hqueue b' hb').symm)
  · exact absurd (h.working (hout.symm.trans h1)).1 (by simp [hs.2.1])

theorem IdeInv.handle (h : IdeInv m old s) : ∃ new, IdeInv m new s.handle := by
  unfold IdeState.handle
  split
  · exact ⟨old, h⟩
  · next hi =>
    split
    · next hlock =>
      refine ⟨old, h.turn (by simp [IntrPc.inside]) (by simp [hlock]) (by rw [hi]; rfl) rfl
        (fun q b hq => ⟨hq, by simp [hi, IntrPc.wakes?]⟩) (by simp [hi, IntrPc.taken])
        (by simp [hi, IntrPc.between]) fun _ => rfl⟩
    · exact ⟨old, h⟩
  · next hi =>
    split
    · next hqueue =>
      -- an interrupt is taken only for a request in the queue
      have h1 : s.outstanding = 1 := by
        have hle := h.flight.le_one
        unfold IdeState.outstanding at hle ⊢
        simp only [hi, IntrPc.taken, if_true] at hle ⊢
        omega
      exact absurd hqueue (h.flight.queue_ne_nil h1)
    · next b rest hqueue => exact ⟨_, h.pop hi hqueue⟩
  · next b hi =>
    refine ⟨old, ?_⟩
    have hbuf : (if (s.buf b).dirty then s.buf
        else update s.buf b { s.buf b with data := s.dev.buffer }) =
        update s.buf b
          { s.buf b with data := if (s.buf b).dirty then (s.buf b).data else s.dev.buffer } := by
      split
      · exact (update_eq_self b s.buf).symm
      · rfl
    rw [hbuf]
    refine h.touch (by rw [hi]; rfl) (by simp [IntrPc.popped?]) rfl rfl rfl rfl ?_
    simp [IdeState.outcome, hi, Buf.completed]
  · next b hi =>
    refine ⟨old, h.touch (by rw [hi]; rfl) (by simp [IntrPc.popped?]) rfl rfl rfl rfl ?_⟩
    simp [IdeState.outcome, hi]
  · next b hi =>
    refine ⟨old, h.turn (by simpa [IntrPc.inside, IdeState.wakeup, hi] using h.handler)
      (fun _ => Iff.rfl) (by rw [hi]; rfl) rfl (fun q b' hq => ?_) (by simp [hi, IntrPc.taken])
      (fun _ => .inr rfl) (by simp [hi, IntrPc.between])⟩
    simp only [IdeState.wakeup] at hq
    split at hq
    · simp at hq
    · next hne =>
      refine ⟨hq, fun hw => absurd (?_ : s.asleep q = some b) hne⟩
      rw [hi] at hw
      rw [hq, ← hw]
      rfl
  · next hi =>
    refine ⟨old, ?_⟩
    have hin : s.intr.inside = true := by rw [hi]; rfl
    split
    · next hqueue =>
      exact h.turn (by simpa [IntrPc.inside, hi] using h.handler) (fun _ => Iff.rfl)
        (by rw [hi]; rfl) rfl (fun q b hq => ⟨hq, by simp [hi, IntrPc.wakes?]⟩)
        (by simp [hi, IntrPc.taken]) (fun _ => .inl hqueue) fun _ => rfl
    · next b rest hqueue =>
      unfold IdeState.idestart
      split
      · next why herr => exact h.badBlock (hqueue ▸ List.mem_cons_self) herr
      next c hstart =>
      split
      swap
      · exact h
      have h0 : s.outstanding = 0 := by
        have hle := h.flight.le_one
        have hne : s.outstanding ≠ 1 := fun h1 =>
          absurd (h.working h1).1 (by simp [hi, IntrPc.between])
        omega
      refine h.issue h0 hqueue hstart (fun _ => rfl) hin.symm h.procs (fun _ _ => id)
        (fun _ _ => id) (by simp [hi, IntrPc.wakes?]) (by rw [hi]; rfl) rfl rfl rfl
        fun q b' hq => ?_
      have hq' := h.outside hin q
      rw [show s.pc q = .start b' from hq] at hq'
      exact absurd hq' (by simp [IdePc.inside])
  · next hi =>
    have hlock : s.lock = some .intr := h.handler.mp (by rw [hi]; rfl)
    exact ⟨old, h.turn (by simp [IntrPc.inside]) (by simp [hlock]) (by rw [hi]; rfl) rfl
      (fun q b hq => ⟨hq, by simp [hi, IntrPc.wakes?]⟩) (by simp [hi, IntrPc.taken])
      (by simp [hi, IntrPc.between]) fun _ => rfl⟩

theorem IdeInv.step (h : IdeInv m old s) (e : IdeEvent) : ∃ new, IdeInv m new (s.step e) := by
  unfold IdeState.step
  split
  · exact ⟨old, h⟩
  split
  · next p b =>
    split
    · next hfree => exact ⟨old, h.setOwner (by simp [hfree.2]) _⟩
    · exact ⟨old, h⟩
  · next p b =>
    split
    · next hheld => exact ⟨old, h.setOwner (by simp [hheld.2, hheld.1]) _⟩
    · exact ⟨old, h⟩
  · next p b c =>
    split
    · next hheld => exact ⟨old, h.fill (by simp [hheld.2, hheld.1]) c⟩
    · exact ⟨old, h⟩
  · next p b =>
    split
    · next hout =>
      exact ⟨old, h.goto (by rw [hout]; rfl) trivial (by simp) (by simp [hout])
        (by simp [hout, IdePc.posted?]) (by simp [hout])⟩
    · exact ⟨old, h⟩
  · next p => exact ⟨old, h.run p⟩
  · next p => exact ⟨old, h.rouse p⟩
  · exact ⟨old, h.device⟩
  · split
    · next hirq =>
      refine ⟨old, h.turn (by simpa [IntrPc.inside, hirq.1] using h.handler) (fun _ => Iff.rfl)
        (by rw [hirq.1]; rfl) rfl (fun q b hq => ⟨hq, by simp [hirq.1, IntrPc.wakes?]⟩) ?_
        (by simp [hirq.1, IntrPc.between]) fun _ => rfl⟩
      simp only [hirq.1, IntrPc.taken, if_true]
      simp
      omega
    · exact ⟨old, h⟩
  · exact h.handle

theorem IdeInv.steps (h : IdeInv m old s) (events : List IdeEvent) :
    ∃ new, IdeInv m new (s.steps events) := by
  induction events generalizing old s with
  | nil => exact ⟨old, h⟩
  | cons e events ih =>
    obtain ⟨new, hnew⟩ := h.step e
    exact ih hnew

/-! ### Refinement -/

/-- In every interleaving, requests are started once each, in the order in which they were
    queued and from the head of the queue; the disk does not rest while one is queued, and
    no process sleeps on one that is done. Where disk 1 has the blocks asked for, the
    synchronous driver performs the requests in that order, leaves in each buffer what its
    `iderw` returned with, and leaves on the disk what is there when the queue is empty. -/
theorem ide_refines_memide (m : MemDisk) (disk0 : Nat → Page) (buffer : Page) (buf : Nat → Buf)
    (havedisk1 : Bool) (events : List IdeEvent) :
    let s := (IdeState.boot m disk0 buffer buf havedisk1).steps events
    ((∀ r ∈ s.requests, r.dev = 1 ∧ r.blockno < m.disksize) →
      ∃ m' bs, m.iderws s.requests = .ok (m', bs) ∧
        (∀ k r, (k, r) ∈ s.returns → bs[k]? = some r) ∧
        (s.idequeue = [] → s.dev.disk 1 = m'.block)) ∧
    s.starts.map IdeStart.number = List.range s.starts.length ∧
    (∀ e ∈ s.starts, e.queue.head? = some e.buf) ∧
    (∀ k r, (k, r) ∈ s.returns → k < s.starts.length) ∧
    (s.idequeue = [] → s.starts.length = s.requests.length) ∧
    (s.lock = none → s.idequeue ≠ [] →
      s.starts.length + s.idequeue.length = s.requests.length + 1) ∧
    (∀ p b, s.lock = none → s.asleep p = some b → b ∈ s.idequeue) ∧
    (s.panicked = some .incorrectBlockno →
      ∃ r ∈ s.requests, FSSIZE + SWAPBLOCKS ≤ r.blockno) := by
  intro s
  obtain ⟨old, h⟩ := (IdeInv.boot m disk0 buffer buf havedisk1).steps events
  change IdeInv m old s at h
  have hlen : s.starts.length = old.length + s.outstanding := by
    simpa using congrArg List.length h.starts
  have hrequests : s.requests.length = old.length + s.idequeue.length := by simp [h.requests]
  have hle := h.flight.le_one
  refine ⟨fun hdisk => ?_, by rw [hlen, h.starts], h.heads, fun k r hr => ?_, fun hempty => ?_,
    fun hlock hne => ?_, fun p b hlock hasleep => ?_, h.panic⟩
  · obtain ⟨m', bs, hrun⟩ := MemDisk.iderws_accepts h.todo hdisk
    refine ⟨m', bs, hrun, fun k r hr => (h.returns k r hr).2 m' bs hrun, fun hempty => ?_⟩
    have hold : s.requests = old := by simpa [hempty] using h.requests
    cases h.flight with
    | idle _ hd => exact (hd m' bs (hold ▸ hrun)).symm
    | busy h₁ hq => exact absurd hempty (by simp [hq])
    | served h₁ hq => exact absurd hempty (by simp [hq])
  · have := (h.returns k r hr).1
    omega
  · have hne : s.outstanding ≠ 1 := fun h₁ => h.flight.queue_ne_nil h₁ hempty
    rw [hempty, List.length_nil] at hrequests
    omega
  · -- with the lock free nobody is about to start the disk, so it has been started
    have hne₀ : s.outstanding ≠ 0 := by
      intro h₀
      rcases h.resting h₀ with hempty | ⟨p, b, hp, _⟩ | hb
      · exact hne hempty
      · have := (h.inside p).mp (by rw [hp]; rfl)
        exact absurd (hlock.symm.trans this) (by simp)
      · have hin : s.intr.inside = true := by
          cases hi : s.intr <;> first | rfl | exact absurd hb (by simp [hi, IntrPc.between])
        exact absurd (hlock.symm.trans (h.handler.mp hin)) (by simp)
    omega
  · refine (h.asleep p b hasleep).2.resolve_right fun hw => ?_
    have hin : s.intr.inside = true := by
      cases hi : s.intr <;> first | rfl | exact absurd hw (by simp [hi, IntrPc.wakes?])
    exact absurd (hlock.symm.trans (h.handler.mp hin)) (by simp)

end CowPaging
