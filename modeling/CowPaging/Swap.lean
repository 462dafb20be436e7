import CowPaging.Kernel

/-!
# Swapping pages out

The eviction path of `proc.c`: the choice of a victim process by resident size,
the clock scan over its pages, the search for the other sharers of the victim
page, and `find_new_page_after_swapping`, which writes the page to a swap slot
and frees it. The eviction is cut where it may sleep: choosing, eight block
writes (`write_pag_to_disk`), finishing.
-/

namespace CowPaging

open Bytes StateExcept SlotTable

/-! ### Swap slots and their blocks -/

/-- `initswap`. -/
def initswap : K Unit :=
  modify fun s => { s with
    swaparray := fun i =>
      if i < NSLOTS then { s.swaparray i with isFree := true, cnt := 0 } else s.swaparray i }

/-- First disk block of slot `idx`. -/
def slotBlock (idx : Nat) : Nat := 2 + 8 * idx

/-- One turn of the loop in `write_pag_to_disk`: block `i` of the page. -/
def writeBlock (frame blockId i : Nat) : K Unit :=
  modify fun s => { s with
    disk := Function.update s.disk (blockId + i) fun o => s.mem frame (i * 512 + o) }

def writePagToDisk (frame blockId : Nat) : K Unit :=
  loopFrom (writeBlock frame blockId) 0 8

/-- One turn of the loop in `read_page_from_disk`. -/
def readBlock (slot frame i : Nat) : K Unit :=
  modify fun s => s.setPage frame fun o =>
    if i * 512 ≤ o ∧ o < i * 512 + 512 then s.disk (slot + i) (o - i * 512) else s.mem frame o

def readPageFromDisk (slot frame : Nat) : K Unit :=
  loopFrom (readBlock slot frame) 0 8

/-! ### Choosing a victim -/

/-- One turn of the loop of `select_victim_process`: the candidate so far is
    kept unless `p` has more resident memory, or as much and a smaller pid. -/
def betterVictim (s : Kernel) (best p : Nat) : Nat :=
  if (s.proc best).rss < (s.proc p).rss then p
  else if (s.proc best).rss = (s.proc p).rss ∧ (s.proc p).pid < (s.proc best).pid then p
  else best

def selectVictimProcess (s : Kernel) : Nat :=
  (List.range NPROC).foldl (betterVictim s) s.cur

/-- The inner loop of `make_acces_bit_0` over the pages of one process. -/
def clearAccessedIn (pgdir : Nat) (pteOrig : PtePtr) : Nat → Nat → K Unit
  | 0, _ => pure ()
  | left + 1, i => do
    match ← walkpgdir pgdir i with
    | none => throw (.panic .accesBit)
    | some pte => do
      let w ← loadPte pte
      let orig ← loadPte pteOrig
      if w = orig then storePte pte (w &&& ~~~PTE_A) else pure ()
      clearAccessedIn pgdir pteOrig left (i + PGSIZE)

/-- Pages of a process of size `sz`: the turns of `for (i = 0; i < sz; i += PGSIZE)`. -/
def pagesOf (sz : Nat) : Nat := PGROUNDUP sz / PGSIZE

/-- `make_acces_bit_0`: every table entry is scanned, whatever its state. -/
def makeAccesBit0 (pteOrig : PtePtr) : K Unit :=
  loopFrom (fun p => do
    let s ← get
    clearAccessedIn (s.proc p).pgdir pteOrig (pagesOf (s.proc p).sz) 0) 0 NPROC

/-- The first and third loop of `select_a_victim`: the first present page that
    was not accessed, and the number of accessed pages passed. -/
def scanVictim (pgdir rss : Nat) : Nat → Nat → Nat → K (Option PtePtr × Nat)
  | 0, _, total => pure (none, total)
  | left + 1, i, total => do
    let pte ← nonNull (← walkpgdir pgdir i)
    let w ← loadPte pte
    if has w PTE_P then
      if !has w PTE_A then
        if rss < PGSIZE then scanVictim pgdir rss left (i + PGSIZE) total
        else pure (some pte, total)
      else scanVictim pgdir rss left (i + PGSIZE) (total + 1)
    else scanVictim pgdir rss left (i + PGSIZE) total

/-- The second loop of `select_a_victim`: give up the accessed bit of pages
    until `total` of them have lost it. -/
def clearSome (pgdir total : Nat) : Nat → Nat → Nat → K Unit
  | 0, _, _ => pure ()
  | left + 1, i, cnt => do
    let pte ← nonNull (← walkpgdir pgdir i)
    let w ← loadPte pte
    if has w PTE_P && has w PTE_A then do
      makeAccesBit0 pte
      if total ≤ cnt + 1 then pure () else clearSome pgdir total left (i + PGSIZE) (cnt + 1)
    else
      if total ≤ cnt then pure () else clearSome pgdir total left (i + PGSIZE) cnt

def selectAVictim : K (Option PtePtr) := do
  let s ← get
  let p := s.proc (selectVictimProcess s)
  let pages := pagesOf p.sz
  match ← scanVictim p.pgdir p.rss pages 0 0 with
  | (some pte, _) => pure (some pte)
  | (none, total) => do
    clearSome p.pgdir ((total + 9) / 10) pages 0 0
    let (found, _) ← scanVictim p.pgdir p.rss pages 0 0
    pure found

/-! ### Taking the page from its owners -/

/-- `find_pte_swap_out`, from page address `i` on: record the first entry of `p`
    that is the same word as the victim's, and drop its reference. -/
def findPteSwapOut (p : Nat) (pteOrig : PtePtr) (idx : Nat) : Nat → Nat → K Unit
  | 0, _ => pure ()
  | left + 1, i => do
    let s ← get
    match ← walkpgdir (s.proc p).pgdir i with
    | none => throw (.panic .findPteSwapOut)
    | some pte => do
      let w ← loadPte pte
      let orig ← loadPte pteOrig
      if w = orig then do
        if (s.swaparray idx).cnt < NPROC then
          modify fun s => s.setSlot idx fun slot =>
            { slot with
              procId := Function.update slot.procId slot.cnt p
              pteId := Function.update slot.pteId slot.cnt pte
              cnt := slot.cnt + 1 }
        else throw .wild
        modify fun s => s.setProc p fun pr =>
          { pr with rss := (pr.rss + (2 ^ 32 - PGSIZE)) % 2 ^ 32 }
        let _ ← decSharing pte (frameOf w)
        pure ()
      else findPteSwapOut p pteOrig idx left (i + PGSIZE)

def makeOtherPteSwappedOut (pte : PtePtr) (idx : Nat) : K Unit :=
  loopFrom (fun p => do
    let s ← get
    if (s.proc p).state = .unused then pure ()
    else findPteSwapOut p pte idx (pagesOf (s.proc p).sz) 0) 0 NPROC

/-! ### `find_new_page_after_swapping` -/

/-- An eviction between its choice and its end: the victim's entry, the page the
    blocks are copied from, and the slot. -/
structure Eviction where
  pte : PtePtr
  frame : Nat
  idx : Nat
deriving DecidableEq, Repr

/-- Up to the call of `write_pag_to_disk`. -/
def beginEviction : K Eviction := do
  let pte ← selectAVictim
  let s ← get
  match firstSlot NSLOTS fun i => (s.swaparray i).isFree with
  | none => throw (.panic .noSlot)
  | some idx =>
    match pte with
    | none => throw (.panic .pteZero)
    | some pte => do
      let w ← loadPte pte
      pure { pte, frame := frameOf w, idx }

section

variable [KernelImage]

/-- From the return of `write_pag_to_disk` on. -/
def finishEviction (e : Eviction) : K Unit := do
  makeOtherPteSwappedOut e.pte e.idx
  let w ← loadPte e.pte
  modify fun s => s.setSlot e.idx fun slot =>
    { slot with pagePerm := PTE_FLAGS w, isFree := false }
  kfree (frameOf w)
  storePte e.pte (frameAddr e.idx ||| PTE_S)
  let w ← loadPte e.pte
  storePte e.pte (w &&& ~~~PTE_A)
  modify fun s => s.setSlot e.idx fun slot =>
    { slot with pteId := fun i => if i < slot.cnt then e.pte else slot.pteId i }

def findNewPageAfterSwapping : K Unit := do
  let e ← beginEviction
  writePagToDisk e.frame (slotBlock e.idx)
  finishEviction e

end

/-! ### Bringing a page back -/

/-- The loop of `handle_fage_fault` over the record of a slot. -/
def restoreSharers (blockNo frame : Nat) (pte : PtePtr) : Nat → Nat → K Unit
  | 0, _ => pure ()
  | left + 1, i => do
    let s ← get
    let slot := s.swaparray blockNo
    if NPROC ≤ i then throw .wild
    else if (s.proc (slot.procId i)).state = .unused then
      restoreSharers blockNo frame pte left (i + 1)
    else do
      incSharing (slot.pteId i) frame
      addRss (slot.procId i)
      let w ← loadPte pte
      storePte (slot.pteId i) w
      restoreSharers blockNo frame pte left (i + 1)

/-- `handle_fage_fault` for the address `va` in `%cr2`. -/
def handleFageFault (evict : K Unit) (va : Nat) : K Unit := do
  let s ← get
  let pgDir := (s.proc s.cur).pgdir
  let pte ← nonNull (← walkpgdir pgDir (PGROUNDDOWN va))
  let w ← loadPte pte
  if has w PTE_P then
    if ← checkRmap (frameOf w) then storePte pte (w ||| PTE_W)
    else
      match ← kalloc evict with
      | none => throw .nullPointer
      | some mem => do
        modify fun s => s.setPage mem (s.mem (frameOf w))
        let w' ← loadPte pte
        storePte pte (frameAddr mem ||| PTE_FLAGS w' ||| PTE_W)
        let _ ← decSharing pte (frameOf w)
        incSharing pte mem
  else
    let blockNo := frameOf w
    match ← kalloc evict with
    | none => throw .nullPointer
    | some mem => do
      -- the driver refuses blocks past the end of the disk
      if FSSIZE + SWAPBLOCKS ≤ slotBlock blockNo + 7 then throw (.panic .incorrectBlockno)
      else if NSLOTS ≤ blockNo then throw .wild
      else do
        readPageFromDisk (slotBlock blockNo) mem
        let s ← get
        let perm := (s.swaparray blockNo).pagePerm
        modify fun s => s.setSlot blockNo fun slot => { slot with isFree := true }
        storePte pte
          (((frameAddr mem ||| PTE_FLAGS perm) ||| PTE_A) &&& ~~~PTE_W &&& ~~~PTE_S)
        restoreSharers blockNo mem pte (s.swaparray blockNo).cnt 0
        modify fun s => s.setSlot blockNo fun slot => { slot with cnt := 0 }

/-! ### Releasing the slots of an exited process -/

/-- What `clean_proc_data` does for one page-table entry. -/
def cleanEntry (w : Word) : K Unit :=
  if has w PTE_S then
    if frameOf w < NSLOTS then
      modify fun s => s.setSlot (frameOf w) fun slot =>
        if slot.cnt = 1 then { slot with isFree := true, cnt := 0 }
        else { slot with cnt := decr32 slot.cnt }
    else throw .wild
  else pure ()

def cleanProcData (pgdir : Nat) : K Unit :=
  loopFrom (fun i => do
    let s ← get
    let pde := ldw (s.mem pgdir) i
    if has pde PTE_P then
      if frameOf pde < NFRAMES then
        loopFrom (fun j => do
          let w ← loadPte ⟨frameOf pde, j⟩
          cleanEntry w) 0 NPTENTRIES
      else throw .wild
    else pure ()) 0 NPDENTRIES

end CowPaging
