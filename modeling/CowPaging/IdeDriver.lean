import CowPaging.BufferCache

/-!
# The disk drivers

`memide.c` copies a block synchronously. `ide.c` appends the buffer to `idequeue`, starts
the disk if the queue was empty, and sleeps; the interrupt handler takes the buffer off
the queue, wakes its process and starts the disk on the next one.

The transition system executes one statement of one process, or of the handler, at a
time. Statements between `acquire(&idelock)` and the `release` or `sleep` that gives the
lock up need the lock; everything else falls anywhere between them. `sleep` and `wakeup`
are atomic, as `ptable.lock` makes them. The disk performs the command it was given at
any later time and then raises one interrupt.
-/

namespace CowPaging

open Bytes
open Function (update)

def BSIZE : Nat := 512
def SECTOR_SIZE : Nat := 512

def IDE_CMD_READ : Nat := 0x20
def IDE_CMD_WRITE : Nat := 0x30
def IDE_CMD_RDMUL : Nat := 0xc4
def IDE_CMD_WRMUL : Nat := 0xc5

inductive IdePanic where
  /-- "iderw: buf not locked" -/
  | bufNotLocked
  /-- "iderw: nothing to do" -/
  | nothingToDo
  /-- "iderw: ide disk 1 not present" -/
  | disk1NotPresent
  /-- "incorrect blockno" -/
  | incorrectBlockno
  /-- "iderw: request not for disk 1" -/
  | notForDisk1
  /-- "iderw: block out of range" -/
  | blockOutOfRange
deriving DecidableEq, Repr

/-- `(b->flags & (B_VALID|B_DIRTY)) == B_VALID`. -/
def Buf.synced (b : Buf) : Bool := b.valid && !b.dirty

/-! ### `memide.c` -/

/-- `memdisk` and `disksize`. -/
structure MemDisk where
  block : Nat → Page
  disksize : Nat

/-- `iderw` of `memide.c`; `held` is `holdingsleep(&b->lock)`. -/
def MemDisk.iderw (m : MemDisk) (held : Bool) (b : Buf) : Except IdePanic (MemDisk × Buf) :=
  if !held then .error .bufNotLocked
  else if b.synced then .error .nothingToDo
  else if b.dev ≠ 1 then .error .notForDisk1
  else if m.disksize ≤ b.blockno then .error .blockOutOfRange
  else if b.dirty then
    .ok ({ m with block := update m.block b.blockno b.data },
      { b with dirty := false, valid := true })
  else .ok (m, { b with data := m.block b.blockno, valid := true })

/-- The calls one after another, each by the holder of the buffer's lock. -/
def MemDisk.iderws (m : MemDisk) : List Buf → Except IdePanic (MemDisk × List Buf)
  | [] => .ok (m, [])
  | b :: rest =>
    match m.iderw true b with
    | .error e => .error e
    | .ok (m', b') =>
      match m'.iderws rest with
      | .error e => .error e
      | .ok (m'', bs) => .ok (m'', b' :: bs)

/-! ### The device -/

/-- The registers of the controller and the data given to it by `outsl`. -/
structure DiskCmd where
  /-- Port `0x1f2`. -/
  sectors : Nat
  /-- Ports `0x1f3` to `0x1f6`. -/
  lba0 : Nat
  lba1 : Nat
  lba2 : Nat
  drive : Nat
  /-- Port `0x1f7`. -/
  cmd : Nat
  data : Page

/-- The sector that the registers name. -/
def DiskCmd.sector (c : DiskCmd) : Nat :=
  c.lba0 + c.lba1 * 2 ^ 8 + c.lba2 * 2 ^ 16 + c.drive % 2 ^ 4 * 2 ^ 24

/-- The disk that the registers name. -/
def DiskCmd.unit (c : DiskCmd) : Nat := c.drive / 2 ^ 4 % 2

def sectorPerBlock : Nat := BSIZE / SECTOR_SIZE

def readCmd : Nat := if sectorPerBlock = 1 then IDE_CMD_READ else IDE_CMD_RDMUL
def writeCmd : Nat := if sectorPerBlock = 1 then IDE_CMD_WRITE else IDE_CMD_WRMUL

/-- What `idestart(b)` gives to the controller. -/
def idestart (b : Buf) : Except IdePanic DiskCmd :=
  if FSSIZE + SWAPBLOCKS ≤ b.blockno then .error .incorrectBlockno
  else
    let sector := b.blockno * sectorPerBlock
    .ok {
      sectors := sectorPerBlock
      lba0 := sector % 2 ^ 8
      lba1 := sector / 2 ^ 8 % 2 ^ 8
      lba2 := sector / 2 ^ 16 % 2 ^ 8
      drive := 0xe0 ||| (b.dev % 2) <<< 4 ||| sector / 2 ^ 24 % 2 ^ 4
      cmd := if b.dirty then writeCmd else readCmd
      data := b.data }

structure IdeDevice where
  /-- The two disks. -/
  disk : Nat → Nat → Page
  /-- The command in progress, while the controller is busy. -/
  cmd : Option DiskCmd
  /-- What `insl` gets. -/
  buffer : Page
  /-- Interrupts raised and not yet taken. -/
  irq : Nat

/-- The disk performs its command and raises the interrupt. -/
def IdeDevice.perform (d : IdeDevice) : IdeDevice :=
  match d.cmd with
  | none => d
  | some c =>
    if c.cmd = writeCmd then
      { d with
        disk := update d.disk c.unit
          (update (d.disk c.unit) c.sector c.data)
        cmd := none
        irq := d.irq + 1 }
    else
      { d with buffer := d.disk c.unit c.sector, cmd := none, irq := d.irq + 1 }

/-! ### `ide.c` -/

/-- The next statement of a process in `iderw(b)`. -/
inductive IdePc where
  | out
  /-- The three tests before `acquire(&idelock)`. -/
  | check (b : Nat)
  | acquire (b : Nat)
  /-- `b->qnext = 0` and the walk to the end of the queue. -/
  | append (b : Nat)
  /-- `if(idequeue == b) idestart(b)`. -/
  | start (b : Nat)
  /-- The test of `while`. -/
  | test (b : Nat)
  /-- `sleep(b, &idelock)`. -/
  | sleep (b : Nat)
  /-- In `sleep`, up to the `acquire` at its end. -/
  | wait (b : Nat)
  | release (b : Nat)
deriving DecidableEq, Repr

/-- The next statement of the interrupt handler. -/
inductive IntrPc where
  | idle
  | acquire
  /-- `if((b = idequeue) == 0)` and `idequeue = b->qnext`. -/
  | pop
  /-- `if(!(b->flags & B_DIRTY) && idewait(1) >= 0) insl(…)`. -/
  | read (b : Nat)
  /-- `b->flags |= B_VALID; b->flags &= ~B_DIRTY`. -/
  | flags (b : Nat)
  /-- `wakeup(b)`. -/
  | wake (b : Nat)
  /-- `if(idequeue != 0) idestart(idequeue)`. -/
  | next
  | release
deriving DecidableEq, Repr

/-- The holder of `idelock`. -/
inductive IdeHolder where
  | proc (p : Nat)
  | intr
deriving DecidableEq, Repr

/-- An `idestart(buf)` for the request `number`, with `idequeue` as it was. -/
structure IdeStart where
  number : Nat
  buf : Nat
  queue : List Nat
deriving DecidableEq, Repr

structure IdeState where
  buf : Nat → Buf
  /-- The holder of `b->lock`. -/
  owner : Nat → Option Nat
  idequeue : List Nat
  lock : Option IdeHolder
  pc : Nat → IdePc
  /-- `p->chan` of the processes in state `SLEEPING`. -/
  asleep : Nat → Option Nat
  intr : IntrPc
  dev : IdeDevice
  havedisk1 : Bool
  panicked : Option IdePanic
  /-- The buffers as they were when they were queued, in that order. -/
  requests : List Buf
  /-- The last request for each buffer, as an index into `requests`. -/
  number : Nat → Nat
  starts : List IdeStart
  /-- The request and the buffer of every `iderw` that returned. -/
  returns : List (Nat × Buf)

/-- Disk 1 is the disk `m`, and no call has been made. -/
def IdeState.boot (m : MemDisk) (disk0 : Nat → Page) (buffer : Page) (buf : Nat → Buf)
    (havedisk1 : Bool) : IdeState where
  buf := buf
  owner _ := none
  idequeue := []
  lock := none
  pc _ := .out
  asleep _ := none
  intr := .idle
  dev := ⟨fun unit => if unit = 1 then m.block else disk0, none, buffer, 0⟩
  havedisk1 := havedisk1
  panicked := none
  requests := []
  number _ := 0
  starts := []
  returns := []

def IdeState.goto (s : IdeState) (p : Nat) (pc : IdePc) : IdeState :=
  { s with pc := update s.pc p pc }

def IdeState.fail (s : IdeState) (why : IdePanic) : IdeState := { s with panicked := some why }

/-- `idewait(0)` has returned and the command is written to the ports. -/
def IdeState.issue (s : IdeState) (b : Nat) (c : DiskCmd) : IdeState :=
  { s with
    dev := { s.dev with cmd := some c }
    starts := s.starts ++ [⟨s.number b, b, s.idequeue⟩] }

/-- `idestart(b)`, and what comes after it. While the controller is busy, `idewait(0)`
    spins. -/
def IdeState.idestart (s : IdeState) (b : Nat) (after : IdeState → IdeState) : IdeState :=
  match CowPaging.idestart (s.buf b) with
  | .error why => s.fail why
  | .ok c => if s.dev.cmd = none then after (s.issue b c) else s

/-- `wakeup(b)`. -/
def IdeState.wakeup (s : IdeState) (b : Nat) : IdeState :=
  { s with asleep := fun q => if s.asleep q = some b then none else s.asleep q }

/-- Process `p` executes its next statement. -/
def IdeState.run (s : IdeState) (p : Nat) : IdeState :=
  match s.pc p with
  | .out => s
  | .check b =>
    if s.owner b ≠ some p then s.fail .bufNotLocked
    else if (s.buf b).synced then s.fail .nothingToDo
    else if (s.buf b).dev ≠ 0 ∧ s.havedisk1 = false then s.fail .disk1NotPresent
    else s.goto p (.acquire b)
  | .acquire b =>
    if s.lock = none then { s.goto p (.append b) with lock := some (.proc p) } else s
  | .append b =>
    { s.goto p (.start b) with
      idequeue := s.idequeue ++ [b]
      requests := s.requests ++ [s.buf b]
      number := update s.number b s.requests.length }
  | .start b =>
    if s.idequeue.head? = some b then s.idestart b fun t => t.goto p (.test b)
    else s.goto p (.test b)
  | .test b =>
    if (s.buf b).synced then s.goto p (.release b) else s.goto p (.sleep b)
  | .sleep b =>
    { s.goto p (.wait b) with lock := none, asleep := update s.asleep p (some b) }
  | .wait b =>
    if s.asleep p = none ∧ s.lock = none then
      { s.goto p (.test b) with lock := some (.proc p) }
    else s
  | .release b =>
    { s.goto p .out with lock := none, returns := s.returns ++ [(s.number b, s.buf b)] }

/-- The handler executes its next statement. -/
def IdeState.handle (s : IdeState) : IdeState :=
  match s.intr with
  | .idle => s
  | .acquire => if s.lock = none then { s with intr := .pop, lock := some .intr } else s
  | .pop =>
    match s.idequeue with
    | [] => { s with intr := .release }
    | b :: rest => { s with intr := .read b, idequeue := rest }
  | .read b =>
    { s with
      intr := .flags b
      buf := if (s.buf b).dirty then s.buf
        else update s.buf b { s.buf b with data := s.dev.buffer } }
  | .flags b =>
    { s with
      intr := .wake b
      buf := update s.buf b { s.buf b with valid := true, dirty := false } }
  | .wake b => { s.wakeup b with intr := .next }
  | .next =>
    match s.idequeue with
    | [] => { s with intr := .release }
    | b :: _ => s.idestart b fun t => { t with intr := .release }
  | .release => { s with intr := .idle, lock := none }

inductive IdeEvent where
  /-- Process `p` acquires the sleep lock of buffer `b`. -/
  | acquiresleep (p b : Nat)
  | releasesleep (p b : Nat)
  /-- The holder of a buffer's lock changes the buffer. -/
  | fill (p b : Nat) (c : Buf)
  /-- Process `p` calls `iderw(b)`. -/
  | iderw (p b : Nat)
  | run (p : Nat)
  /-- Process `p` is made runnable by something else, such as `kill`. -/
  | rouse (p : Nat)
  /-- The disk performs its command. -/
  | device
  /-- The processor takes an interrupt of the disk. -/
  | irq
  | handle

/-- One event; an event that is not possible in the state changes nothing, and nothing
    happens after a panic. -/
def IdeState.step (s : IdeState) (e : IdeEvent) : IdeState :=
  if s.panicked ≠ none then s
  else
    match e with
    | .acquiresleep p b =>
      if s.pc p = .out ∧ s.owner b = none then
        { s with owner := update s.owner b (some p) }
      else s
    | .releasesleep p b =>
      if s.pc p = .out ∧ s.owner b = some p then
        { s with owner := update s.owner b none }
      else s
    | .fill p b c =>
      if s.pc p = .out ∧ s.owner b = some p then
        { s with buf := update s.buf b c }
      else s
    | .iderw p b => if s.pc p = .out then s.goto p (.check b) else s
    | .run p => s.run p
    | .rouse p => { s with asleep := update s.asleep p none }
    | .device => { s with dev := s.dev.perform }
    | .irq =>
      if s.intr = .idle ∧ 0 < s.dev.irq then
        { s with intr := .acquire, dev := { s.dev with irq := s.dev.irq - 1 } }
      else s
    | .handle => s.handle

def IdeState.steps (s : IdeState) (events : List IdeEvent) : IdeState :=
  events.foldl IdeState.step s

end CowPaging
