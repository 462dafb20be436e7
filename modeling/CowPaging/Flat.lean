import CowPaging.Proc

/-!
# The reference machine

The machine the memory system pretends to be. Each process owns its memory: an
array of pages that nothing shares, that is always there, and that `fork` copies
whole. There are no page tables, no reverse map, no swap and no free list. The
system calls take the same decisions as the kernel does, on sizes, files and the
process table.
-/

namespace CowPaging

open Bytes StateExcept SlotTable
open Function (update)

/-! ### The memory of one process -/

/-- Pages below `sz`, with the pages user code may not touch. -/
structure Memory where
  sz : Nat
  page : Nat → Page
  user : Nat → Bool

def Memory.empty : Memory := ⟨0, fun _ _ => 0, fun _ => false⟩

/-- New pages are zero. -/
def Memory.grow (m : Memory) (newsz : Nat) : Memory where
  sz := newsz
  page := fun v => if v < pagesOf m.sz then m.page v else fun _ => 0
  user := fun v => if v < pagesOf m.sz then m.user v else true

/-- What `allocuvm` grants: size 0 is its failure. -/
def Memory.alloc (m : Memory) (newsz : Nat) : Option Memory :=
  if KERNBASE ≤ newsz then none
  else if newsz < m.sz then some m
  else if newsz = 0 then none
  else some (m.grow newsz)

/-- `growproc`. -/
def Memory.sbrk (m : Memory) (n : Int) : Int × Memory :=
  if 0 < n then
    match m.alloc (addSigned m.sz n) with
    | none => (-1, m)
    | some m' => (0, m')
  else if n < 0 then
    if m.sz ≤ addSigned m.sz n then (if m.sz = 0 then -1 else 0, m)
    else if addSigned m.sz n = 0 then (-1, m)
    else (0, { m with sz := addSigned m.sz n })
  else (0, m)

/-- Copy `bytes` into page `v` from offset `o` on. -/
def Memory.copyIn (m : Memory) (v o : Nat) (bytes : List Byte) : Memory :=
  { m with page := update m.page v fun i =>
      if o ≤ i then (bytes[i - o]?).getD (m.page v i) else m.page v i }

def Memory.accessible (m : Memory) (v : Nat) : Bool := decide (v < pagesOf m.sz) && m.user v

/-! ### A program image -/

def Memory.loadLoop (ip : File) (addr offset sz : Nat) : Nat → Nat → Memory → Option Memory
  | 0, _, m => some m
  | left + 1, i, m =>
    let n := if sz - i < PGSIZE then sz - i else PGSIZE
    let off := (offset + i) % 2 ^ 32
    let got := readi ip off n
    if got ≠ n then none
    else
      Memory.loadLoop ip addr offset sz left (i + PGSIZE)
        (m.copyIn ((addr + i) / PGSIZE) 0
          ((List.range got.toNat).map fun k => ip.data (off + k)))

/-- The segments of the file. -/
def Memory.load (ip : File) : Nat → Nat → Memory → Option Memory
  | 0, _, m => some m
  | left + 1, off, m =>
    if readi ip off sizeofProghdr ≠ sizeofProghdr then none
    else
      let ph := ip.proghdr off
      let off' := (off + sizeofProghdr) % 2 ^ 32
      if ph.type ≠ ELF_PROG_LOAD then Memory.load ip left off' m
      else if ph.memsz < ph.filesz then none
      else if 2 ^ 32 ≤ ph.vaddr + ph.memsz then none
      else
        match m.alloc (ph.vaddr + ph.memsz) with
        | none => none
        | some m =>
          if ph.vaddr % PGSIZE ≠ 0 then none
          else
            match Memory.loadLoop ip ph.vaddr ph.off ph.filesz (pagesOf ph.filesz) 0 m with
            | none => none
            | some m => Memory.load ip left off' m

/-- Copy bytes to user addresses, page by page. -/
def Memory.copyout : Nat → Nat → List Byte → Memory → Option Memory
  | _, _, [], m => some m
  | 0, _, _ :: _, _ => none
  | turns + 1, va, b :: buf, m =>
    if m.accessible (va / PGSIZE) then
      let n := min (PGSIZE - va % PGSIZE) (buf.length + 1)
      Memory.copyout turns ((va / PGSIZE * PGSIZE + PGSIZE) % 2 ^ 32) ((b :: buf).drop n)
        (m.copyIn (va / PGSIZE) (va % PGSIZE) ((b :: buf).take n))
    else none

/-- The argument strings, and their addresses. -/
def Memory.pushArgs : List (List Byte) → Nat → List Nat → Memory →
    Option (Nat × List Nat × Memory)
  | [], sp, ustack, m => some (sp, ustack, m)
  | arg :: rest, sp, ustack, m =>
    if MAXARG ≤ ustack.length then none
    else
      let sp := (sp + 2 ^ 32 - (arg.length + 1) % 2 ^ 32) % 2 ^ 32 / 4 * 4
      match m.copyout (arg.length + 1) sp (arg ++ [0]) with
      | none => none
      | some m => Memory.pushArgs rest sp (ustack ++ [sp]) m

/-- The memory a program starts with: its segments, a guard page and a stack page
    with the arguments. -/
def Memory.exec (ip : File) (argv : List (List Byte)) : Option Memory :=
  match Memory.load ip ip.phnum (ip.word 28) Memory.empty with
  | none => none
  | some m =>
    match { m with sz := PGROUNDUP m.sz }.alloc (PGROUNDUP m.sz + 2 * PGSIZE) with
    | none => none
    | some m =>
      let m := { m with user := update m.user ((m.sz - 2 * PGSIZE) / PGSIZE) false }
      match m.pushArgs argv m.sz [] with
      | none => none
      | some (sp, args, m) =>
        let argc := args.length
        let argvPtr := (sp + 2 ^ 32 - (argc + 1) * 4) % 2 ^ 32
        let ustack := [0xffffffff, argc, argvPtr] ++ args ++ [0]
        let sp := (sp + 2 ^ 32 - (3 + argc + 1) * 4) % 2 ^ 32
        m.copyout (ustack.flatMap wordBytes).length sp (ustack.flatMap wordBytes)

/-! ### Processes -/

structure FlatProc where
  state : ProcState
  pid : Nat
  parent : Option Nat
  killed : Bool
  memory : Memory

structure Flat where
  proc : Nat → FlatProc
  nextpid : Nat
  initproc : Option Nat

/-- The calls and accesses of a process; `fault` is a page fault with no access
    after it, `touch` an accessed bit set by the processor. -/
inductive Op where
  | fork
  | exec (ip : Option File) (argv : List (List Byte))
  | sbrk (n : Int)
  | exit
  | wait
  | read (va : Nat)
  | write (va : Nat) (b : Byte)
  | fault (va : Nat)
  | touch (va : Nat)

/-- What the process gets back; `asleep` is a `wait` that goes to sleep. -/
inductive Reply where
  | code (n : Int)
  | asleep
  | byte (b : Byte)
  | done
deriving DecidableEq

def Flat.setProc (m : Flat) (p : Nat) (f : FlatProc → FlatProc) : Flat :=
  { m with proc := update m.proc p (f (m.proc p)) }

def Flat.setMemory (m : Flat) (p : Nat) (mem : Memory) : Flat :=
  m.setProc p fun pr => { pr with memory := mem }

/-- The child gets its own copy of the parent's memory. -/
def Flat.fork (m : Flat) (p : Nat) : Reply × Flat :=
  match firstSlot NPROC fun c => decide ((m.proc c).state = .unused) with
  | none => (.code (-1), m)
  | some c =>
    (.code m.nextpid,
      { m.setProc c (fun pr =>
          { pr with state := .runnable, pid := m.nextpid, parent := some p,
                    memory := (m.proc p).memory }) with
        nextpid := m.nextpid + 1 })

def Flat.exec (m : Flat) (p : Nat) (ip : Option File) (argv : List (List Byte)) : Reply × Flat :=
  match ip with
  | none => (.code (-1), m)
  | some ip =>
    if readi ip 0 sizeofElfhdr ≠ sizeofElfhdr then (.code (-1), m)
    else if ip.word 0 ≠ ELF_MAGIC then (.code (-1), m)
    else
      match Memory.exec ip argv with
      | none => (.code (-1), m)
      | some mem => (.code 0, m.setMemory p mem)

def Flat.sbrk (m : Flat) (p : Nat) (n : Int) : Reply × Flat :=
  (.code ((m.proc p).memory.sbrk n).1, m.setMemory p ((m.proc p).memory.sbrk n).2)

def Flat.exit (m : Flat) (p : Nat) : Reply × Flat :=
  (.done,
    { m with proc := fun q =>
        if q < NPROC ∧ (m.proc q).parent = some p then { m.proc q with parent := m.initproc }
        else m.proc q }.setProc p fun pr => { pr with state := .zombie })

def Flat.wait (m : Flat) (p : Nat) : Reply × Flat :=
  match firstSlot NPROC fun c =>
      decide ((m.proc c).parent = some p) && decide ((m.proc c).state = .zombie) with
  | some c =>
    (.code (m.proc c).pid, m.setProc c fun pr =>
      { pr with pid := 0, parent := none, killed := false, state := .unused })
  | none =>
    let havekids := (List.range NPROC).any fun c => decide ((m.proc c).parent = some p)
    if !havekids || (m.proc p).killed then (.code (-1), m) else (.asleep, m)

def Flat.read (m : Flat) (p va : Nat) : Reply × Flat :=
  (.byte ((m.proc p).memory.page (va / PGSIZE) (va % PGSIZE)), m)

def Flat.write (m : Flat) (p va : Nat) (b : Byte) : Reply × Flat :=
  let mem := (m.proc p).memory
  (.done, m.setMemory p { mem with
    page := update mem.page (va / PGSIZE)
      (update (mem.page (va / PGSIZE)) (va % PGSIZE) b) })

def Flat.perform (m : Flat) (p : Nat) : Op → Reply × Flat
  | .fork => m.fork p
  | .exec ip argv => m.exec p ip argv
  | .sbrk n => m.sbrk p n
  | .exit => m.exit p
  | .wait => m.wait p
  | .read va => m.read p va
  | .write va b => m.write p va b
  | .fault _ => (.done, m)
  | .touch _ => (.done, m)

/-- The replies to a list of calls, each by the process named with it. -/
def Flat.run (m : Flat) : List (Nat × Op) → List Reply × Flat
  | [] => ([], m)
  | (p, op) :: rest =>
    let (r, m) := m.perform p op
    let (rs, m) := m.run rest
    (r :: rs, m)

/-- The first process before its first instruction. -/
def Flat.boot (initcode : List Byte) : Flat where
  proc := update
    (fun _ => ⟨.unused, 0, none, false, Memory.empty⟩) 0
    ⟨.runnable, 1, none, false,
      (Memory.empty.grow PGSIZE).copyIn 0 0 initcode⟩
  nextpid := 2
  initproc := some 0

/-! ### The kernel's side -/

/-- Process `p` makes the call. -/
def perform [KernelImage] (evict : K Unit) (p : Nat) (op : Op) : K Reply := do
  modify fun s => { s with cur := p }
  match op with
  | .fork => return .code (← fork evict)
  | .exec ip argv => return .code (← exec evict ip argv)
  | .sbrk n => return .code (← growproc evict n)
  | .exit => do
    exit
    return .done
  | .wait => do
    match ← wait with
    | some r => return .code r
    | none => return .asleep
  | .read va => return .byte (← userRead evict va)
  | .write va b => do
    userWrite evict va b
    return .done
  | .fault va => do
    handleFageFault evict va
    return .done
  | .touch va => do
    touch va
    return .done

end CowPaging
