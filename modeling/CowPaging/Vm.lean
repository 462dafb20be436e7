import CowPaging.Swap

/-!
# Address spaces

The functions of `vm.c`: building and freeing page directories, growing and
shrinking the user part, the copy-on-write copy made by `fork`, and the copies
`exec` makes into a new image. Everything that calls `kalloc` takes the eviction
routine as its first argument.
-/

namespace CowPaging

open Bytes StateExcept

/-- A regular file, as `readi` sees it. -/
structure File where
  size : Nat
  data : Nat → Byte

/-- `readi(ip, dst, off, n)` on a regular file: the number of bytes read, and the
    bytes from `off` on. -/
def readi (ip : File) (off n : Nat) : Int :=
  if off > ip.size ∨ 2 ^ 32 ≤ off + n then -1
  else if off + n > ip.size then ((ip.size - off : Nat) : Int)
  else (n : Int)

section

variable [KernelImage]

/-! ### Unmapping -/

/-- The body of the loops of `deallocuvm` and `deallocuvm2` for an entry that
    exists; `p` is the process whose resident size is charged. -/
def unmapPte (p : Nat) (pte : PtePtr) : K Unit := do
  let w ← loadPte pte
  if has w PTE_P then
    if frameOf w = 0 then throw (.panic .kfree)
    else do
      let doFree ← decSharing pte (frameOf w)
      if doFree then kfree (frameOf w) else pure ()
      dropRss p
      storePte pte 0
  else pure ()

/-- The loop of `deallocuvm`. `turns` bounds the number of turns; each turn
    passes at least one page. -/
def deallocuvmLoop (pgdir p oldsz : Nat) : Nat → Nat → K Unit
  | 0, a => if a < oldsz then throw .spin else pure ()
  | turns + 1, a =>
    if a < oldsz then do
      match ← walkpgdir pgdir a with
      -- `a = PGADDR(PDX(a) + 1, 0, 0) - PGSIZE`, then `a += PGSIZE`
      | none => deallocuvmLoop pgdir p oldsz turns (PGADDR (PDX a + 1) 0 0)
      | some pte => do
        unmapPte p pte
        deallocuvmLoop pgdir p oldsz turns (a + PGSIZE)
    else pure ()

def deallocuvm2 (pgdir oldsz newsz p : Nat) : K Nat :=
  if oldsz ≤ newsz then pure oldsz
  else do
    deallocuvmLoop pgdir p oldsz (pagesOf oldsz) (PGROUNDUP newsz)
    pure newsz

/-- `deallocuvm` charges the current process. -/
def deallocuvm (pgdir oldsz newsz : Nat) : K Nat := do
  let s ← get
  deallocuvm2 pgdir oldsz newsz s.cur

/-- Free the page tables of a directory, user and kernel part. -/
def freeTables (pgdir : Nat) : K Unit :=
  loopFrom (fun i => do
    let s ← get
    let pde := ldw (s.mem pgdir) i
    if has pde PTE_P then kfree (frameOf pde) else pure ()) 0 NPDENTRIES

def freevm2 (pgdir p : Nat) : K Unit := do
  let _ ← deallocuvm2 pgdir KERNBASE 0 p
  freeTables pgdir
  kfree pgdir

def freevm (pgdir : Nat) : K Unit := do
  let s ← get
  freevm2 pgdir s.cur

/-! ### Mapping -/

variable (evict : K Unit)

/-- `walkpgdir(pgdir, va, 1)`. -/
def walkpgdirAlloc (pgdir va : Nat) : K (Option PtePtr) := do
  match ← walkpgdir pgdir va with
  | some pte => pure (some pte)
  | none =>
    match ← kalloc evict with
    | none => pure none
    | some pgtab => do
      memset pgtab 0
      modify fun s =>
        s.storeWord pgdir (PDX va) (frameAddr pgtab ||| PTE_P ||| PTE_W ||| PTE_U)
      pure (some ⟨pgtab, PTX va⟩)

/-- One turn of the loop of `mappages`. -/
def mapOne (pgdir a : Nat) (pa perm : Word) : K Int := do
  match ← walkpgdirAlloc evict pgdir a with
  | none => pure (-1)
  | some pte => do
    let w ← loadPte pte
    if has w PTE_P then throw (.panic .remap)
    else do
      storePte pte (pa ||| perm ||| PTE_P)
      pure 0

/-- The loop of `mappages`, with `left` turns after this one. -/
def mappagesLoop (pgdir : Nat) (perm : Word) : Nat → Nat → Word → K Int
  | 0, a, pa => mapOne evict pgdir a pa perm
  | left + 1, a, pa => do
    let r ← mapOne evict pgdir a pa perm
    if r < 0 then pure (-1)
    else mappagesLoop pgdir perm left ((a + PGSIZE) % 2 ^ 32) (pa + BitVec.ofNat 32 PGSIZE)

def mappages (pgdir va size : Nat) (pa perm : Word) : K Int :=
  let a := PGROUNDDOWN va
  let last := PGROUNDDOWN ((va + size + (2 ^ 32 - 1)) % 2 ^ 32)
  mappagesLoop evict pgdir perm ((last + 2 ^ 32 - a) % 2 ^ 32 / PGSIZE) a pa

/-- `struct kmap`. -/
structure Kmap where
  virt : Nat
  physStart : Nat
  physEnd : Nat
  perm : Word

def kmap : List Kmap :=
  [ ⟨KERNBASE, 0, EXTMEM, PTE_W⟩,                                          -- I/O space
    ⟨KERNLINK, EXTMEM, KernelImage.dataPage * PGSIZE, 0⟩,                   -- kern text+rodata
    ⟨KERNBASE + KernelImage.dataPage * PGSIZE, KernelImage.dataPage * PGSIZE,
      PHYSTOP, PTE_W⟩,                                                      -- kern data+memory
    ⟨DEVSPACE, DEVSPACE, 0, PTE_W⟩ ]                                        -- more devices

/-- The loop of `setupkvm` over the kernel mappings. -/
def mapKernel (pgdir : Nat) : List Kmap → K Bool
  | [] => pure true
  | k :: rest => do
    let r ← mappages evict pgdir k.virt ((k.physEnd + 2 ^ 32 - k.physStart) % 2 ^ 32)
      (BitVec.ofNat 32 k.physStart) k.perm
    if r < 0 then pure false else mapKernel pgdir rest

def setupkvm : K (Option Nat) := do
  match ← kalloc evict with
  | none => pure none
  | some pgdir => do
    memset pgdir 0
    if KERNBASE + PHYSTOP > DEVSPACE then throw (.panic .phystopTooHigh)
    else if ← mapKernel evict pgdir kmap then pure (some pgdir)
    else do
      freevm pgdir
      pure none

/-- Copy `bytes` into page `f` from offset `o` on. -/
def Kernel.copyIn (s : Kernel) (f o : Nat) (bytes : List Byte) : Kernel :=
  s.setPage f fun i => if o ≤ i then (bytes[i - o]?).getD (s.mem f i) else s.mem f i

/-- `inituvm`, loading `init` at address 0. -/
def inituvm (pgdir : Nat) (init : List Byte) : K Unit :=
  if PGSIZE ≤ init.length then throw (.panic .inituvm)
  else do
    match ← kalloc evict with
    | none => throw .nullPointer
    | some mem => do
      memset mem 0
      let _ ← mappages evict pgdir 0 PGSIZE (frameAddr mem) (PTE_W ||| PTE_U)
      modify fun s => s.copyIn mem 0 init
      let pte ← nonNull (← walkpgdir pgdir 0)
      incSharing pte mem

/-- The loop of `allocuvm`, with `left` pages to go from `a` on. -/
def allocuvmLoop (pgdir oldsz newsz : Nat) : Nat → Nat → K Nat
  | 0, _ => pure newsz
  | left + 1, a => do
    match ← kalloc evict with
    | none => do
      let _ ← deallocuvm pgdir newsz oldsz
      pure 0
    | some mem => do
      memset mem 0
      let r ← mappages evict pgdir a PGSIZE (frameAddr mem) (PTE_W ||| PTE_U)
      if r < 0 then do
        let _ ← deallocuvm pgdir newsz oldsz
        kfree mem
        pure 0
      else do
        let pte ← nonNull (← walkpgdir pgdir a)
        incSharing pte mem
        let s ← get
        addRss s.cur
        allocuvmLoop pgdir oldsz newsz left (a + PGSIZE)

/-- `allocuvm`: the new size, or 0. -/
def allocuvm (pgdir oldsz newsz : Nat) : K Nat :=
  if KERNBASE ≤ newsz then pure 0
  else if newsz < oldsz then pure oldsz
  else allocuvmLoop evict pgdir oldsz newsz (pagesOf newsz - pagesOf oldsz) (PGROUNDUP oldsz)

/-! ### The copy-on-write copy -/

/-- The loop of `copyuvm`: `false` stands for `goto bad`. -/
def copyuvmLoop (pgdir d child : Nat) : Nat → Nat → K Bool
  | 0, _ => pure true
  | left + 1, i => do
    match ← walkpgdir pgdir i with
    | none => throw (.panic .copyuvmPte)
    | some pte => do
      let w ← loadPte pte
      if !has w PTE_P then throw (.panic .copyuvmPresent)
      else do
        let r ← mappages evict d i PGSIZE (PTE_ADDR w) (PTE_FLAGS w)
        if r ≠ 0 then pure false
        else
          match ← walkpgdir d i with
          | none => pure false
          | some newPte => do
            let w' ← loadPte pte
            storePte pte (w' &&& ~~~PTE_W)
            let w' ← loadPte pte
            storePte newPte w'
            incSharing newPte (frameOf w)
            addRss child
            copyuvmLoop pgdir d child left (i + PGSIZE)

def copyuvm (pgdir sz child : Nat) : K (Option Nat) := do
  match ← setupkvm evict with
  | none => pure none
  | some d => do
    if ← copyuvmLoop evict pgdir d child (pagesOf sz) 0 then pure (some d)
    else do
      freevm d
      pure none

end

/-! ### Filling a new image -/

def clearpteu (pgdir uva : Nat) : K Unit := do
  match ← walkpgdir pgdir uva with
  | none => throw (.panic .clearpteu)
  | some pte => do
    let w ← loadPte pte
    storePte pte (w &&& ~~~PTE_U)

/-- `uva2ka`: the page behind a user address. The entry is read without a test
    for null. -/
def uva2ka (pgdir uva : Nat) : K (Option Nat) := do
  let pte ← nonNull (← walkpgdir pgdir uva)
  let w ← loadPte pte
  if !has w PTE_P then pure none
  else if !has w PTE_U then pure none
  else pure (some (frameOf w))

/-- The loop of `copyout`; `turns` bounds the number of turns, each of which
    copies at least one byte. -/
def copyoutLoop (pgdir : Nat) : Nat → Nat → List Byte → K Int
  | _, _, [] => pure 0
  | 0, _, _ :: _ => throw .spin
  | turns + 1, va, buf => do
    let va0 := PGROUNDDOWN va
    match ← uva2ka pgdir va0 with
    | none => pure (-1)
    | some pa0 => do
      let n := min (PGSIZE - (va - va0)) buf.length
      if pa0 < NFRAMES then do
        modify fun s => s.copyIn pa0 (va - va0) (buf.take n)
        copyoutLoop pgdir turns ((va0 + PGSIZE) % 2 ^ 32) (buf.drop n)
      else throw .wild

def copyout (pgdir va : Nat) (buf : List Byte) : K Int :=
  copyoutLoop pgdir buf.length va buf

/-- The loop of `loaduvm`, with `left` pages to go at offset `i`. -/
def loaduvmLoop (pgdir addr : Nat) (ip : File) (offset sz : Nat) : Nat → Nat → K Int
  | 0, _ => pure 0
  | left + 1, i => do
    match ← walkpgdir pgdir (addr + i) with
    | none => throw (.panic .loaduvmExist)
    | some pte => do
      let w ← loadPte pte
      let n := if sz - i < PGSIZE then sz - i else PGSIZE
      let off := (offset + i) % 2 ^ 32
      if frameOf w < NFRAMES then do
        let got := readi ip off n
        modify fun s => s.copyIn (frameOf w) 0
          ((List.range got.toNat).map fun k => ip.data (off + k))
        if got ≠ n then pure (-1)
        else loaduvmLoop pgdir addr ip offset sz left (i + PGSIZE)
      else throw .wild

def loaduvm (pgdir addr : Nat) (ip : File) (offset sz : Nat) : K Int :=
  if addr % PGSIZE ≠ 0 then throw (.panic .loaduvmAligned)
  else loaduvmLoop pgdir addr ip offset sz (pagesOf sz) 0

end CowPaging
