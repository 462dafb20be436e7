import CowPaging.Mmu
import CowPaging.Lib.StateExcept
import CowPaging.Lib.SlotTable

/-!
# Kernel state, page allocator and reverse map

The state the memory system works on: physical memory by page number, the free
list of `kalloc.c`, the reverse map and the swap slots of `proc.c`, the swap
blocks on disk (as the buffer cache shows them), and the process table. Page
directories and page tables live in physical memory and are read and written
word by word, so a `pte_t *` is a table page and an index in it.

Kernel code is a computation in `K`, which stops when the kernel stops: at a
`panic`, at the dereference of a null or wild pointer, or where `kalloc` would
have to evict a page and the run under study allows no eviction. `kalloc` takes
the eviction routine as an argument; the kernel passes
`findNewPageAfterSwapping`.
-/

namespace CowPaging

open Bytes StateExcept SlotTable
open Function (update)

/-! ### Data -/

inductive ProcState where
  | unused | embryo | sleeping | runnable | running | zombie
deriving DecidableEq, Repr

/-- A `pte_t *`: the page that holds the table, and the index in the table. -/
structure PtePtr where
  table : Nat
  index : Nat
deriving DecidableEq, Repr

/-- `struct rmap_struct`. -/
structure Rmap where
  refcount : Nat
  pteId : Nat → PtePtr
  presentId : Nat → Bool

/-- `struct swapslot`; `proc_id` holds process-table indices. -/
structure SwapSlot where
  pagePerm : Word
  isFree : Bool
  pteId : Nat → PtePtr
  procId : Nat → Nat
  cnt : Nat

/-- The fields of `struct proc` that the memory system reads or writes. -/
structure Proc where
  sz : Nat
  rss : Nat
  pgdir : Nat
  kstack : Nat
  state : ProcState
  pid : Nat
  parent : Option Nat
  killed : Bool

structure Kernel where
  mem : Nat → Page
  freelist : List Nat
  numFreePages : Nat
  rmap : Nat → Rmap
  swaparray : Nat → SwapSlot
  disk : Nat → Page
  proc : Nat → Proc
  nextpid : Nat
  initproc : Option Nat
  /-- `myproc()`. -/
  cur : Nat

/-- The `panic` calls of the modelled code. -/
inductive Panic where
  | kfree             -- "kfree"
  | noReference       -- "Trying to reduce refrence of page which is not refrenced"
  | remap             -- "remap"
  | phystopTooHigh    -- "PHYSTOP too high"
  | inituvm           -- "inituvm: more than a page"
  | loaduvmAligned    -- "loaduvm: addr must be page aligned"
  | loaduvmExist      -- "loaduvm: address should exist"
  | clearpteu         -- "clearpteu"
  | copyuvmPte        -- "copyuvm: pte should exist"
  | copyuvmPresent    -- "copyuvm: page not present"
  | findPteSwapOut    -- "find_pte_swap_out: pte should exist"
  | accesBit          -- "find_pte_swap_in: pte should exist" in `make_acces_bit_0`
  | noSlot            -- "No available slot\n"
  | pteZero           -- "Pte is 0\n"
  | incorrectBlockno  -- "incorrect blockno", in `idestart`
  | userinit          -- "userinit: out of memory?"
  | initExiting       -- "init exiting"
  | filedup           -- "filedup"
  | fileclose         -- "fileclose"
  | ilock             -- "ilock"
  | ilockNoType       -- "ilock: no type"
  | igetNoInodes      -- "iget: no inodes"
  | iallocNoInodes    -- "ialloc: no inodes"
  | dirlookupNotDir   -- "dirlookup not DIR"
  | dirlink           -- "dirlink"
  | unlinkNlink       -- "unlink: nlink < 1"
  | createDots        -- "create dots"
  | createDirlink     -- "create: dirlink"
deriving DecidableEq, Repr

/-- Why the kernel stopped. -/
inductive Halt where
  | panic (reason : Panic)
  /-- The null pointer returned by `walkpgdir` or `kalloc` was dereferenced. -/
  | nullPointer
  /-- An access outside physical memory, `rmap` or `swaparray`. -/
  | wild
  /-- `kalloc` found the free list empty in a run without eviction. -/
  | noEvict
  /-- A loop of the model was cut off. -/
  | spin
deriving DecidableEq, Repr

abbrev K := StateT Kernel (Except Halt)

/-- Where the linker put the kernel image: the page numbers of `V2P(data)` and
    of the first whole page after `end`. -/
class KernelImage where
  dataPage : Nat
  endPage : Nat
  text_pos : EXTMEM / PGSIZE < dataPage
  data_le : dataPage ≤ endPage
  end_lt : endPage < NFRAMES

/-! ### Memory -/

def Kernel.setPage (s : Kernel) (f : Nat) (page : Page) : Kernel :=
  { s with mem := update s.mem f page }

def Kernel.storeWord (s : Kernel) (f i : Nat) (w : Word) : Kernel :=
  s.setPage f (stw (s.mem f) i w)

def Kernel.setProc (s : Kernel) (p : Nat) (f : Proc → Proc) : Kernel :=
  { s with proc := update s.proc p (f (s.proc p)) }

def Kernel.setRmap (s : Kernel) (n : Nat) (r : Rmap) : Kernel :=
  { s with rmap := update s.rmap n r }

def Kernel.setSlot (s : Kernel) (i : Nat) (f : SwapSlot → SwapSlot) : Kernel :=
  { s with swaparray := update s.swaparray i (f (s.swaparray i)) }

/-- `memset(v, c, PGSIZE)`. -/
def memset (f : Nat) (c : Byte) : K Unit := modify fun s => s.setPage f fun _ => c

/-- `*pte`. -/
def loadPte (pte : PtePtr) : K Word := do
  let s ← get
  pure (ldw (s.mem pte.table) pte.index)

/-- `*pte = w`. -/
def storePte (pte : PtePtr) (w : Word) : K Unit :=
  modify fun s => s.storeWord pte.table pte.index w

/-- `x + 1` and `x - 1` of a `uint`. -/
def incr32 (x : Nat) : Nat := (x + 1) % 2 ^ 32
def decr32 (x : Nat) : Nat := (x + (2 ^ 32 - 1)) % 2 ^ 32

/-- `p->rss += PGSIZE`. -/
def addRss (p : Nat) : K Unit :=
  modify fun s => s.setProc p fun pr => { pr with rss := (pr.rss + PGSIZE) % 2 ^ 32 }

/-- `if(p->rss > 0) p->rss -= PGSIZE`. -/
def dropRss (p : Nat) : K Unit :=
  modify fun s => s.setProc p fun pr =>
    if pr.rss > 0 then { pr with rss := (pr.rss + (2 ^ 32 - PGSIZE)) % 2 ^ 32 } else pr

/-! ### `kalloc.c` -/

/-- The link word a free page holds: the kernel address of the next free page. -/
def linkWord : List Nat → Word
  | [] => 0
  | next :: _ => BitVec.ofNat 32 (KERNBASE + next * PGSIZE)

section Allocator

variable [KernelImage]

def kfree (f : Nat) : K Unit :=
  if f < KernelImage.endPage ∨ NFRAMES ≤ f then throw (.panic .kfree)
  else modify fun s =>
    { s with
      -- junk to catch dangling refs, then the link to the next free page
      mem := update s.mem f (stw (fun _ => 1) 0 (linkWord s.freelist))
      freelist := f :: s.freelist
      numFreePages := incr32 s.numFreePages }

end Allocator

/-- Take the first page off the free list, if there is one. -/
def popFree : K (Option Nat) := do
  let s ← get
  match s.freelist with
  | [] => pure none
  | r :: rest => do
    set { s with freelist := rest, numFreePages := decr32 s.numFreePages }
    pure (some r)

/-- `kalloc`, with the eviction routine it calls on an empty free list. The
    recursive call finds the page that the eviction freed. -/
def kalloc (evict : K Unit) : K (Option Nat) := do
  match ← popFree with
  | some r => pure (some r)
  | none => do
    evict
    match ← popFree with
    | some r => pure (some r)
    | none => throw .spin

/-- The eviction routine of a run in which the free list never runs empty. -/
def noEvict : K Unit := throw .noEvict

/-! ### The reverse map of `proc.c` -/

def checkRmap (pgnum : Nat) : K Bool := do
  let s ← get
  if pgnum < NFRAMES then pure ((s.rmap pgnum).refcount == 1) else throw .wild

/-- `inc_sharing` on one entry: an entry whose slots are all taken only counts. -/
def Rmap.inc (r : Rmap) (pte : PtePtr) : Rmap :=
  match firstSlot NPROC fun i => !r.presentId i with
  | some i =>
    { refcount := incr32 r.refcount
      pteId := update r.pteId i pte
      presentId := update r.presentId i true }
  | none => { r with refcount := incr32 r.refcount }

def incSharing (pte : PtePtr) (pageNum : Nat) : K Unit := do
  let s ← get
  if pageNum < NFRAMES then set (s.setRmap pageNum ((s.rmap pageNum).inc pte))
  else throw .wild

/-- The slot of `pte` in an entry. -/
def Rmap.slotOf (r : Rmap) (pte : PtePtr) : Option Nat :=
  firstSlot NPROC fun i => r.presentId i && decide (r.pteId i = pte)

/-- `dec_sharing`; the result tells the caller to free the page. -/
def decSharing (pte : PtePtr) (pageNum : Nat) : K Bool := do
  let s ← get
  if pageNum < NFRAMES then
    let r := s.rmap pageNum
    match r.slotOf pte with
    | none => throw (.panic .noReference)
    | some i => do
      let refcount := decr32 r.refcount
      set (s.setRmap pageNum
        { r with refcount, presentId := update r.presentId i false })
      pure (refcount == 0)
  else throw .wild

/-! ### `walkpgdir` -/

/-- `walkpgdir(pgdir, va, 0)`. A table outside physical memory has no kernel
    address. -/
def walkpgdir (pgdir va : Nat) : K (Option PtePtr) := do
  let s ← get
  let pde := ldw (s.mem pgdir) (PDX va)
  if has pde PTE_P then
    if frameOf pde < NFRAMES then pure (some ⟨frameOf pde, PTX va⟩) else throw .wild
  else pure none

/-- The use of a pointer that the code does not test for null. -/
def nonNull : Option PtePtr → K PtePtr
  | some pte => pure pte
  | none => throw .nullPointer

end CowPaging
