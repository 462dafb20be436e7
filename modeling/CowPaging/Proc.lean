import CowPaging.Vm

/-!
# Processes

The parts of `proc.c`, `exec.c` and `trap.c` that create, grow, replace and
remove address spaces, the boot sequence of `main.c` up to the first process,
and user accesses as the processor performs them: a translation that sets the
accessed and dirty bits, or a page fault, `handle_fage_fault` and a retry.
Registers, open files, directories and names are left out.
-/

namespace CowPaging

open Bytes StateExcept SlotTable

section

variable [KernelImage] (evict : K Unit)

/-! ### Creating a process -/

def allocproc : K (Option Nat) := do
  let s ← get
  match firstSlot NPROC fun p => decide ((s.proc p).state = .unused) with
  | none => pure none
  | some p => do
    set { s.setProc p (fun pr => { pr with state := .embryo, pid := s.nextpid }) with
      nextpid := s.nextpid + 1 }
    match ← kalloc evict with
    | none => do
      modify fun s => s.setProc p fun pr => { pr with kstack := 0, state := .unused }
      pure none
    | some kstack => do
      modify fun s => s.setProc p fun pr => { pr with kstack := kstack }
      pure (some p)

def userinit (initcode : List Byte) : K Unit := do
  match ← allocproc evict with
  | none => throw .nullPointer
  | some p => do
    modify fun s => { s with initproc := some p }
    match ← setupkvm evict with
    | none => throw (.panic .userinit)
    | some pgdir => do
      modify fun s => s.setProc p fun pr => { pr with pgdir := pgdir }
      inituvm evict pgdir initcode
      modify fun s => s.setProc p fun pr => { pr with sz := PGSIZE, state := .runnable }

/-- `fork`: the pid of the child, or -1. -/
def fork : K Int := do
  match ← allocproc evict with
  | none => pure (-1)
  | some np => do
    let s ← get
    match ← copyuvm evict (s.proc s.cur).pgdir (s.proc s.cur).sz np with
    | none => do
      let s ← get
      kfree (s.proc np).kstack
      modify fun s => s.setProc np fun pr => { pr with kstack := 0, state := .unused }
      pure (-1)
    | some d => do
      modify fun s => s.setProc np fun pr =>
        { pr with pgdir := d, sz := (s.proc s.cur).sz, parent := some s.cur,
                  state := .runnable }
      let s ← get
      pure ((s.proc np).pid : Int)

/-! ### Growing and leaving -/

/-- `sz + n` in `uint` arithmetic. -/
def addSigned (sz : Nat) (n : Int) : Nat := ((sz : Int) + n).emod (2 ^ 32) |>.toNat

def growproc (n : Int) : K Int := do
  let s ← get
  let p := s.proc s.cur
  if 0 < n then do
    let sz ← allocuvm evict p.pgdir p.sz (addSigned p.sz n)
    if sz = 0 then pure (-1)
    else do
      modify fun s => s.setProc s.cur fun pr => { pr with sz := sz }
      pure 0
  else if n < 0 then do
    let sz ← deallocuvm p.pgdir p.sz (addSigned p.sz n)
    if sz = 0 then pure (-1)
    else do
      modify fun s => s.setProc s.cur fun pr => { pr with sz := sz }
      pure 0
  else pure 0

/-- `exit`: children go to the first process, and the caller waits for `wait`. -/
def exit : K Unit := do
  let s ← get
  if s.initproc = some s.cur then throw (.panic .initExiting)
  else do
    set { s with proc := fun p =>
      if p < NPROC ∧ (s.proc p).parent = some s.cur then
        { s.proc p with parent := s.initproc } else s.proc p }
    modify fun s => s.setProc s.cur fun pr => { pr with state := .zombie }

/-- `wait`: the pid of a reaped child, -1 without children, or `none` where the
    caller goes to sleep. -/
def wait : K (Option Int) := do
  let s ← get
  match firstSlot NPROC fun p =>
      decide ((s.proc p).parent = some s.cur) && decide ((s.proc p).state = .zombie) with
  | some p => do
    let pid := (s.proc p).pid
    cleanProcData (s.proc p).pgdir
    kfree (s.proc p).kstack
    modify fun s => s.setProc p fun pr => { pr with kstack := 0 }
    freevm2 (s.proc p).pgdir p
    modify fun s => s.setProc p fun pr =>
      { pr with pid := 0, parent := none, killed := false, state := .unused }
    pure (some (pid : Int))
  | none =>
    let havekids := (List.range NPROC).any fun p => decide ((s.proc p).parent = some s.cur)
    if !havekids || (s.proc s.cur).killed then pure (some (-1)) else pure none

/-! ### `exec` -/

/-- The `uint` at byte `o` of a file. -/
def File.word (ip : File) (o : Nat) : Nat := (ldw (fun i => ip.data (o + i)) 0).toNat

def ELF_MAGIC : Nat := 0x464C457F
def ELF_PROG_LOAD : Nat := 1
def sizeofElfhdr : Nat := 52
def sizeofProghdr : Nat := 32

/-- The fields of `struct proghdr` that `exec` reads. -/
structure Proghdr where
  type : Nat
  off : Nat
  vaddr : Nat
  filesz : Nat
  memsz : Nat

def File.proghdr (ip : File) (o : Nat) : Proghdr :=
  ⟨ip.word o, ip.word (o + 4), ip.word (o + 8), ip.word (o + 16), ip.word (o + 20)⟩

/-- `elf.phnum`, the `ushort` at byte 44. -/
def File.phnum (ip : File) : Nat := ip.word 44 % 2 ^ 16

/-- The loop of `exec` over the program headers, from size `sz` on. `none` stands
    for `goto bad`. -/
def execLoad (pgdir : Nat) (ip : File) : Nat → Nat → Nat → K (Option Nat)
  | 0, _, sz => pure (some sz)
  | left + 1, off, sz => do
    if readi ip off sizeofProghdr ≠ sizeofProghdr then pure none
    else
      let ph := ip.proghdr off
      let off' := (off + sizeofProghdr) % 2 ^ 32
      if ph.type ≠ ELF_PROG_LOAD then execLoad pgdir ip left off' sz
      else if ph.memsz < ph.filesz then pure none
      else if 2 ^ 32 ≤ ph.vaddr + ph.memsz then pure none
      else do
        let sz ← allocuvm evict pgdir sz (ph.vaddr + ph.memsz)
        if sz = 0 then pure none
        else if ph.vaddr % PGSIZE ≠ 0 then pure none
        else do
          let r ← loaduvm pgdir ph.vaddr ip ph.off ph.filesz
          if r < 0 then pure none else execLoad pgdir ip left off' sz

/-- The four bytes of a word, as `copyout` copies them. -/
def wordBytes (x : Nat) : List Byte :=
  let w := BitVec.ofNat 32 x
  [w.extractLsb' 0 8, w.extractLsb' 8 8, w.extractLsb' 16 8, w.extractLsb' 24 8]

/-- Push the argument strings; the addresses are collected in `ustack`. -/
def pushArgs (pgdir : Nat) : List (List Byte) → Nat → List Nat → K (Option (Nat × List Nat))
  | [], sp, ustack => pure (some (sp, ustack))
  | arg :: rest, sp, ustack => do
    if MAXARG ≤ ustack.length then pure none
    else
      let sp := (sp + 2 ^ 32 - (arg.length + 1) % 2 ^ 32) % 2 ^ 32 / 4 * 4
      let r ← copyout pgdir sp (arg ++ [0])
      if r < 0 then pure none else pushArgs pgdir rest sp (ustack ++ [sp])

/-- The part of `exec` that fills the page directory `pgdir`: the new size, or
    `none` for `goto bad`. -/
def execImage (pgdir : Nat) (ip : File) (argv : List (List Byte)) : K (Option Nat) := do
  match ← execLoad evict pgdir ip ip.phnum (ip.word 28) 0 with
  | none => pure none
  | some sz => do
    let sz ← allocuvm evict pgdir (PGROUNDUP sz) (PGROUNDUP sz + 2 * PGSIZE)
    if sz = 0 then pure none
    else do
      clearpteu pgdir (sz - 2 * PGSIZE)
      match ← pushArgs pgdir argv sz [] with
      | none => pure none
      | some (sp, args) => do
        let argc := args.length
        let argvPtr := (sp + 2 ^ 32 - (argc + 1) * 4) % 2 ^ 32
        let ustack := [0xffffffff, argc, argvPtr] ++ args ++ [0]
        let sp := (sp + 2 ^ 32 - (3 + argc + 1) * 4) % 2 ^ 32
        let r ← copyout pgdir sp (ustack.flatMap wordBytes)
        if r < 0 then pure none else pure (some sz)

/-- `exec`; `ip` is what `namei(path)` finds. -/
def exec (ip : Option File) (argv : List (List Byte)) : K Int :=
  match ip with
  | none => pure (-1)
  | some ip => do
    if readi ip 0 sizeofElfhdr ≠ sizeofElfhdr then pure (-1)
    else if ip.word 0 ≠ ELF_MAGIC then pure (-1)
    else
      match ← setupkvm evict with
      | none => pure (-1)
      | some pgdir => do
        match ← execImage evict pgdir ip argv with
        | none => do
          freevm pgdir
          pure (-1)
        | some sz => do
          let s ← get
          let oldpgdir := (s.proc s.cur).pgdir
          modify fun s => s.setProc s.cur fun pr => { pr with pgdir := pgdir, sz := sz }
          freevm oldpgdir
          pure 0

/-! ### Accesses by a process -/

/-- The processor's translation of a user access: the page, after setting the
    accessed (and dirty) bit, or `none` for a page fault. -/
def translate (write : Bool) (va : Nat) : K (Option Nat) := do
  let s ← get
  match ← walkpgdir (s.proc s.cur).pgdir va with
  | none => pure none
  | some pte => do
    let w ← loadPte pte
    if has w PTE_P && has w PTE_U && (!write || has w PTE_W) then do
      storePte pte (if write then w ||| PTE_A ||| PTE_D else w ||| PTE_A)
      pure (some (frameOf w))
    else pure none

/-- The processor sets the accessed bit of a present entry, as it may for any
    access of its own. -/
def touch (va : Nat) : K Unit := do
  let s ← get
  match ← walkpgdir (s.proc s.cur).pgdir va with
  | none => pure ()
  | some pte => do
    let w ← loadPte pte
    if has w PTE_P then storePte pte (w ||| PTE_A) else pure ()

/-- Translate, and on a fault run the handler and retry; a swapped-out page that
    is written to faults twice. -/
def access (write : Bool) (va : Nat) : Nat → K Nat
  | 0 => throw .spin
  | turns + 1 => do
    match ← translate write va with
    | some f => pure f
    | none => do
      handleFageFault evict va
      access write va turns

def userRead (va : Nat) : K Byte := do
  let f ← access evict false va 3
  let s ← get
  pure (s.mem f (va % PGSIZE))

def userWrite (va : Nat) (b : Byte) : K Unit := do
  let f ← access evict true va 3
  modify fun s => s.setPage f (Function.update (s.mem f) (va % PGSIZE) b)

/-- The `switch` of `trap` for a page fault: the handler, and no test of the
    address. -/
def trapPgflt (va : Nat) : K Unit := handleFageFault evict va

/-- `trap` for a page fault taken in user mode. -/
def trap (va : Nat) : K Unit := do
  trapPgflt evict va
  let s ← get
  if (s.proc s.cur).killed then exit else pure ()

end

/-! ### Boot -/

/-- Zeroed memory, as the boot loader leaves the kernel's data. -/
def Kernel.zero : Kernel where
  mem := fun _ _ => 0
  freelist := []
  numFreePages := 0
  rmap := fun _ => ⟨0, fun _ => ⟨0, 0⟩, fun _ => false⟩
  swaparray := fun _ => ⟨0, false, fun _ => ⟨0, 0⟩, fun _ => 0, 0⟩
  disk := fun _ _ => 0
  proc := fun _ => ⟨0, 0, 0, 0, .unused, 0, none, false⟩
  nextpid := 1
  initproc := none
  cur := 0

/-- `main`: the allocator (`kinit1`; `kinit2` finds no page above 4 MB), the
    kernel's own page directory, the stacks of the other processors and the first
    process, which sets up the swap slots (`iinit`) before it runs user code. -/
def boot [KernelImage] (otherCpus : Nat) (initcode : List Byte) : K Unit := do
  loopFrom kfree KernelImage.endPage (NFRAMES - KernelImage.endPage)
  let _ ← setupkvm noEvict
  loopFrom (fun _ => do let _ ← kalloc noEvict; pure ()) 0 otherCpus
  userinit noEvict initcode
  initswap

end CowPaging
