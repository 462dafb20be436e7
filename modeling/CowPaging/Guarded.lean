import CowPaging.Flat

/-!
# Two eviction routines in step

Everything that allocates takes the eviction routine as an argument. If one routine does
what another does or gives up, the same holds for every call of the kernel; so a run in
which the cautious routine never gives up is a run with the other one.

The two routines need to agree only where some property holds of the kernel, as long as
the memory system keeps it. `Resilient` says what such a property must survive: stores to
memory, to the reverse map, to the swap slots and to the disk, the resident sizes, and
pages that go to the free list and come from it. The lemmas below follow the functions of
`vm.c` and `proc.c` one by one.
-/

namespace CowPaging

open Bytes StateExcept SlotTable

/-- A property of the kernel that the memory system keeps. -/
structure Resilient (I : Kernel → Prop) : Prop where
  mem {s : Kernel} (mem : Nat → Page) : I s → I { s with mem := mem }
  rmap {s : Kernel} (rmap : Nat → Rmap) : I s → I { s with rmap := rmap }
  slots {s : Kernel} (slots : Nat → SwapSlot) : I s → I { s with swaparray := slots }
  disk {s : Kernel} (disk : Nat → Page) : I s → I { s with disk := disk }
  rss {s : Kernel} (p r : Nat) : I s → I (s.setProc p fun pr => { pr with rss := r })
  pop {s : Kernel} {f : Nat} {rest : List Nat} : s.freelist = f :: rest → I s →
    I { s with freelist := rest, numFreePages := decr32 s.numFreePages }
  push {s : Kernel} (f : Nat) : I s →
    I { s with freelist := f :: s.freelist, numFreePages := incr32 s.numFreePages }

theorem resilient_true : Resilient fun _ => True :=
  ⟨fun _ _ => trivial, fun _ _ => trivial, fun _ _ => trivial, fun _ _ => trivial,
    fun _ _ _ => trivial, fun _ _ => trivial, fun _ _ => trivial⟩

variable {I : Kernel → Prop} {x : Halt} {e e' : K Unit}

theorem stable_load (ptr : PtePtr) : Stable I (loadPte ptr) :=
  stable_get.bind fun _ => stable_pure

theorem stable_walkpgdir (d va : Nat) : Stable I (walkpgdir d va) :=
  stable_get.bind fun _ => Stable.ite (Stable.ite stable_pure stable_throw) stable_pure

theorem stable_nonNull (r : Option PtePtr) : Stable I (nonNull r) := by
  cases r with
  | none => exact stable_throw
  | some ptr => exact stable_pure

theorem stable_checkRmap (n : Nat) : Stable I (checkRmap n) :=
  stable_get.bind fun _ => stable_pure.ite stable_throw

section

variable (hI : Resilient I)
include hI

/-! ### Single steps -/

theorem Resilient.storePte (ptr : PtePtr) (w : Word) : Stable I (storePte ptr w) :=
  stable_modify fun _ hs => hI.mem _ hs

theorem Resilient.memset (f : Nat) (c : Byte) : Stable I (memset f c) :=
  stable_modify fun _ hs => hI.mem _ hs

theorem Resilient.changeRss (p : Nat) (f : Nat → Nat) :
    Stable I (modify fun s => s.setProc p fun pr => { pr with rss := f pr.rss } : K Unit) :=
  stable_modify fun s hs => hI.rss p (f (s.proc p).rss) hs

theorem Resilient.addRss (p : Nat) : Stable I (addRss p) :=
  hI.changeRss p fun r => (r + PGSIZE) % 2 ^ 32

theorem Resilient.dropRss (p : Nat) : Stable I (dropRss p) := by
  refine stable_modify fun s hs => ?_
  by_cases hpos : (s.proc p).rss > 0
  · have h := hI.rss p (((s.proc p).rss + (2 ^ 32 - PGSIZE)) % 2 ^ 32) hs
    simpa only [Kernel.setProc, if_pos hpos] using h
  · have h := hI.rss p (s.proc p).rss hs
    simpa only [Kernel.setProc, if_neg hpos] using h

theorem Resilient.incSharing (ptr : PtePtr) (n : Nat) : Stable I (incSharing ptr n) :=
  stable_read fun _ hs => wp_ite (fun _ => hI.rmap _ hs) fun _ => trivial

theorem Resilient.decSharing (ptr : PtePtr) (n : Nat) : Stable I (decSharing ptr n) := by
  refine stable_read fun s hs => wp_ite (fun _ => ?_) fun _ => trivial
  dsimp only
  cases (s.rmap n).slotOf ptr with
  | none => exact trivial
  | some i => exact hI.rmap _ hs

theorem Resilient.popFree : Stable I popFree := by
  refine stable_read fun s hs => ?_
  cases hlist : s.freelist with
  | nil => exact hs
  | cons f rest => exact hI.pop hlist hs

theorem Resilient.kfree [KernelImage] (f : Nat) : Stable I (kfree f) :=
  stable_throw.ite (stable_modify fun _ hs => hI.mem _ (hI.push f hs))

/-! ### Evictions -/

theorem Resilient.makeAccesBit0 (orig : PtePtr) : Stable I (makeAccesBit0 orig) := by
  have hclear : ∀ d left i, Stable I (clearAccessedIn d orig left i) := by
    intro d left
    induction left with
    | zero => exact fun i => stable_pure
    | succ left ih =>
      intro i
      refine (stable_walkpgdir d i).bind fun r => ?_
      cases r with
      | none => exact stable_throw
      | some ptr =>
        refine (stable_load ptr).bind fun w => (stable_load orig).bind fun w' => ?_
        apply Stable.ite
        · exact (hI.storePte ptr _).bind fun _ => ih _
        · exact ih _
  exact stable_loopFrom (fun p => stable_get.bind fun s => hclear _ _ _) _ _

omit hI in
theorem stable_scanVictim (d rss left i total : Nat) :
    Stable I (scanVictim d rss left i total) := by
  induction left generalizing i total with
  | zero => exact stable_pure
  | succ left ih =>
    refine (stable_walkpgdir d i).bind fun r => (stable_nonNull r).bind fun ptr => ?_
    refine (stable_load ptr).bind fun w => Stable.ite (Stable.ite ?_ (ih _ _)) (ih _ _)
    exact Stable.ite (ih _ _) stable_pure

theorem Resilient.selectAVictim : Stable I selectAVictim := by
  have hclear : ∀ d total left i cnt, Stable I (clearSome d total left i cnt) := by
    intro d total left
    induction left with
    | zero => exact fun i cnt => stable_pure
    | succ left ih =>
      intro i cnt
      refine (stable_walkpgdir d i).bind fun r => (stable_nonNull r).bind fun ptr => ?_
      refine (stable_load ptr).bind fun w => Stable.ite ?_ ?_
      · exact (hI.makeAccesBit0 ptr).bind fun _ => Stable.ite stable_pure (ih _ _)
      · exact Stable.ite stable_pure (ih _ _)
  refine stable_get.bind fun s => (stable_scanVictim _ _ _ _ _).bind fun r => ?_
  rcases r with ⟨_ | ptr, total⟩
  · exact (hclear _ _ _ _ _).bind fun _ =>
      (stable_scanVictim _ _ _ _ _).bind fun _ => stable_pure
  · exact stable_pure

theorem Resilient.makeOtherPteSwappedOut (orig : PtePtr) (idx : Nat) :
    Stable I (makeOtherPteSwappedOut orig idx) := by
  have hfind : ∀ p left i, Stable I (findPteSwapOut p orig idx left i) := by
    intro p left
    induction left with
    | zero => exact fun i => stable_pure
    | succ left ih =>
      intro i
      refine stable_get.bind fun s => (stable_walkpgdir _ i).bind fun r => ?_
      cases r with
      | none => exact stable_throw
      | some ptr =>
        refine (stable_load ptr).bind fun w => (stable_load orig).bind fun w' => ?_
        refine Stable.ite ?_ (ih _)
        have hrest : Stable I (do
            modify fun s => s.setProc p fun pr =>
              { pr with rss := (pr.rss + (2 ^ 32 - PGSIZE)) % 2 ^ 32 }
            let _ ← CowPaging.decSharing ptr (frameOf w)
            pure () : K Unit) :=
          (hI.changeRss p fun r => (r + (2 ^ 32 - PGSIZE)) % 2 ^ 32).bind fun _ =>
            (hI.decSharing ptr _).bind fun _ => stable_pure
        apply Stable.ite
        · exact Stable.bind (stable_modify fun _ hs => hI.slots _ hs) fun _ => hrest
        · exact Stable.bind stable_throw fun _ => hrest
  refine stable_loopFrom (fun p => stable_get.bind fun s => ?_) _ _
  exact Stable.ite stable_pure (hfind p _ _)

theorem Resilient.findNewPageAfterSwapping [KernelImage] :
    Stable I findNewPageAfterSwapping := by
  have hbegin : Stable I beginEviction := by
    refine hI.selectAVictim.bind fun r => stable_get.bind fun s => ?_
    cases firstSlot NSLOTS fun i => (s.swaparray i).isFree with
    | none => exact stable_throw
    | some idx =>
      cases r with
      | none => exact stable_throw
      | some ptr => exact (stable_load ptr).bind fun _ => stable_pure
  have hslot : ∀ i f, Stable I (modify fun s => s.setSlot i f : K Unit) :=
    fun i f => stable_modify fun _ hs => hI.slots _ hs
  have hfinish : ∀ ev, Stable I (finishEviction ev) := by
    intro ev
    refine (hI.makeOtherPteSwappedOut _ _).bind fun _ => (stable_load _).bind fun w => ?_
    refine (hslot _ _).bind fun _ => (hI.kfree _).bind fun _ => ?_
    refine (hI.storePte _ _).bind fun _ => (stable_load _).bind fun w => ?_
    exact (hI.storePte _ _).bind fun _ => hslot _ _
  refine hbegin.bind fun ev => Stable.bind ?_ fun _ => hfinish ev
  exact stable_loopFrom (fun i => stable_modify fun _ hs => hI.disk _ hs) _ _

theorem Resilient.cleanProcData (d : Nat) : Stable I (cleanProcData d) := by
  have hentry : ∀ w, Stable I (cleanEntry w) := fun w =>
    Stable.ite (Stable.ite (stable_modify fun _ hs => hI.slots _ hs) stable_throw) stable_pure
  refine stable_loopFrom (fun i => stable_get.bind fun s => ?_) _ _
  refine Stable.ite (Stable.ite ?_ stable_throw) stable_pure
  exact stable_loopFrom (fun j => (stable_load _).bind fun w => hentry w) _ _

/-! ### Taking address spaces apart -/

section

variable [KernelImage]

theorem Resilient.unmapPte (p : Nat) (ptr : PtePtr) : Stable I (unmapPte p ptr) := by
  have hend : Stable I (do CowPaging.dropRss p; CowPaging.storePte ptr 0) :=
    (hI.dropRss p).bind fun _ => hI.storePte ptr 0
  refine (stable_load ptr).bind fun w => Stable.ite (Stable.ite stable_throw ?_) stable_pure
  refine (hI.decSharing ptr _).bind fun doFree => Stable.ite ?_ hend
  exact (hI.kfree _).bind fun _ => hend

theorem Resilient.deallocuvm2 (d oldsz newsz p : Nat) :
    Stable I (deallocuvm2 d oldsz newsz p) := by
  have hloop : ∀ turns a, Stable I (deallocuvmLoop d p oldsz turns a) := by
    intro turns
    induction turns with
    | zero => exact fun a => Stable.ite stable_throw stable_pure
    | succ turns ih =>
      intro a
      refine Stable.ite ((stable_walkpgdir d a).bind fun r => ?_) stable_pure
      cases r with
      | none => exact ih _
      | some ptr => exact (hI.unmapPte p ptr).bind fun _ => ih _
  exact Stable.ite stable_pure ((hloop _ _).bind fun _ => stable_pure)

theorem Resilient.deallocuvm (d oldsz newsz : Nat) : Stable I (deallocuvm d oldsz newsz) :=
  stable_get.bind fun _ => hI.deallocuvm2 _ _ _ _

theorem Resilient.freevm2 (d p : Nat) : Stable I (freevm2 d p) := by
  refine (hI.deallocuvm2 _ _ _ _).bind fun _ => ?_
  refine (stable_loopFrom (fun i => ?_) _ _).bind fun _ => hI.kfree d
  exact stable_get.bind fun _ => (hI.kfree _).ite stable_pure

theorem Resilient.freevm (d : Nat) : Stable I (freevm d) :=
  stable_get.bind fun _ => hI.freevm2 _ _

end

/-! ### Filling an image -/

theorem Resilient.copyout (d va : Nat) (buf : List Byte) : Stable I (copyout d va buf) := by
  have huva : ∀ a, Stable I (uva2ka d a) := by
    intro a
    refine (stable_walkpgdir d a).bind fun r => (stable_nonNull r).bind fun ptr => ?_
    refine (stable_load ptr).bind fun w => ?_
    exact Stable.ite stable_pure (Stable.ite stable_pure stable_pure)
  have hloop : ∀ turns va buf, Stable I (copyoutLoop d turns va buf) := by
    intro turns
    induction turns with
    | zero =>
      intro va buf
      cases buf with
      | nil => exact stable_pure
      | cons b rest => exact stable_throw
    | succ turns ih =>
      intro va buf
      cases buf with
      | nil => exact stable_pure
      | cons b rest =>
        refine (huva _).bind fun r => ?_
        cases r with
        | none => exact stable_pure
        | some f =>
          refine Stable.ite ?_ stable_throw
          exact Stable.bind (stable_modify fun _ hs => hI.mem _ hs) fun _ => ih _ _
  exact hloop _ _ _

theorem Resilient.loaduvm (d addr offset sz : Nat) (ip : File) :
    Stable I (loaduvm d addr ip offset sz) := by
  have hloop : ∀ left i, Stable I (loaduvmLoop d addr ip offset sz left i) := by
    intro left
    induction left with
    | zero => exact fun i => stable_pure
    | succ left ih =>
      intro i
      refine (stable_walkpgdir _ _).bind fun r => ?_
      cases r with
      | none => exact stable_throw
      | some ptr =>
        refine (stable_load ptr).bind fun w => Stable.ite ?_ stable_throw
        refine Stable.bind (stable_modify fun _ hs => hI.mem _ hs) fun _ => ?_
        exact Stable.ite stable_pure (ih _)
  exact Stable.ite stable_throw (hloop _ _)

theorem Resilient.clearpteu (d va : Nat) : Stable I (clearpteu d va) := by
  refine (stable_walkpgdir _ _).bind fun r => ?_
  cases r with
  | none => exact stable_throw
  | some ptr => exact (stable_load ptr).bind fun w => hI.storePte ptr _

theorem Resilient.pushArgs (d : Nat) (args : List (List Byte)) (sp : Nat) (ustack : List Nat) :
    Stable I (pushArgs d args sp ustack) := by
  induction args generalizing sp ustack with
  | nil => exact stable_pure
  | cons arg rest ih =>
    refine Stable.ite stable_pure ((hI.copyout _ _ _).bind fun r => ?_)
    exact Stable.ite stable_pure (ih _ _)

/-! ### Accesses without an allocation -/

theorem Resilient.restoreSharers (blockNo frame : Nat) (ptr : PtePtr) (left i : Nat) :
    Stable I (restoreSharers blockNo frame ptr left i) := by
  induction left generalizing i with
  | zero => exact stable_pure
  | succ left ih =>
    refine stable_get.bind fun s => Stable.ite stable_throw (Stable.ite (ih _) ?_)
    refine (hI.incSharing _ _).bind fun _ => (hI.addRss _).bind fun _ => ?_
    exact (stable_load ptr).bind fun w => (hI.storePte _ _).bind fun _ => ih _

theorem Resilient.translate (write : Bool) (va : Nat) : Stable I (translate write va) := by
  refine stable_get.bind fun s => (stable_walkpgdir _ _).bind fun r => ?_
  cases r with
  | none => exact stable_pure
  | some ptr =>
    refine (stable_load ptr).bind fun w => Stable.ite ?_ stable_pure
    exact (hI.storePte _ _).bind fun _ => stable_pure

theorem Resilient.touch (va : Nat) : Stable I (touch va) := by
  refine stable_get.bind fun s => (stable_walkpgdir _ _).bind fun r => ?_
  cases r with
  | none => exact stable_pure
  | some ptr => exact (stable_load ptr).bind fun w => (hI.storePte _ _).ite stable_pure

/-! ### Building address spaces -/

variable (he : Follows x I e e' fun _ => I)
include he

theorem Resilient.kalloc : Follows x I (kalloc e) (kalloc e') fun _ => I := by
  refine hI.popFree.follows.bind fun r => ?_
  cases r with
  | some f => exact stable_pure.follows
  | none =>
    refine he.bind fun _ => (hI.popFree.bind fun r => ?_).follows
    cases r with
    | some f => exact stable_pure
    | none => exact stable_throw

theorem Resilient.walkpgdirAlloc (d va : Nat) :
    Follows x I (walkpgdirAlloc e d va) (walkpgdirAlloc e' d va) fun _ => I := by
  refine (stable_walkpgdir d va).follows.bind fun r => ?_
  cases r with
  | some ptr => exact stable_pure.follows
  | none =>
    refine (hI.kalloc he).bind fun r => Stable.follows ?_
    cases r with
    | none => exact stable_pure
    | some f =>
      exact (hI.memset f 0).bind fun _ =>
        Stable.bind (stable_modify fun _ hs => hI.mem _ hs) fun _ => stable_pure

theorem Resilient.mapOne (d a : Nat) (pa perm : Word) :
    Follows x I (mapOne e d a pa perm) (mapOne e' d a pa perm) fun _ => I := by
  refine (hI.walkpgdirAlloc he d a).bind fun r => Stable.follows ?_
  cases r with
  | none => exact stable_pure
  | some ptr =>
    refine (stable_load ptr).bind fun w => Stable.ite stable_throw ?_
    exact (hI.storePte ptr _).bind fun _ => stable_pure

theorem Resilient.mappages (d va size : Nat) (pa perm : Word) :
    Follows x I (mappages e d va size pa perm) (mappages e' d va size pa perm) fun _ => I := by
  have hloop : ∀ left a pa, Follows x I (mappagesLoop e d perm left a pa)
      (mappagesLoop e' d perm left a pa) fun _ => I := by
    intro left
    induction left with
    | zero => exact fun a pa => hI.mapOne he d a pa perm
    | succ left ih =>
      intro a pa
      exact (hI.mapOne he d a pa perm).bind fun _ => stable_pure.follows.ite (ih _ _)
  exact hloop _ _ _

theorem Resilient.inituvm (d : Nat) (init : List Byte) :
    Follows x I (inituvm e d init) (inituvm e' d init) fun _ => I := by
  refine stable_throw.follows.ite ((hI.kalloc he).bind fun r => ?_)
  cases r with
  | none => exact stable_throw.follows
  | some f =>
    refine (hI.memset f 0).follows.bind fun _ => (hI.mappages he _ _ _ _ _).bind fun _ => ?_
    refine (Stable.bind (stable_modify fun _ hs => hI.mem _ hs) fun _ => ?_).follows
    refine (stable_walkpgdir _ _).bind fun r => (stable_nonNull r).bind fun ptr => ?_
    exact hI.incSharing ptr f

variable [KernelImage]

theorem Resilient.setupkvm : Follows x I (setupkvm e) (setupkvm e') fun _ => I := by
  have hmap : ∀ d l, Follows x I (mapKernel e d l) (mapKernel e' d l) fun _ => I := by
    intro d l
    induction l with
    | nil => exact stable_pure.follows
    | cons k rest ih => exact (hI.mappages he _ _ _ _ _).bind fun _ => stable_pure.follows.ite ih
  refine (hI.kalloc he).bind fun r => ?_
  cases r with
  | none => exact stable_pure.follows
  | some d =>
    refine (hI.memset d 0).follows.bind fun _ => stable_throw.follows.ite ?_
    refine (hmap d kmap).bind fun ok => (Stable.ite stable_pure ?_).follows
    exact (hI.freevm d).bind fun _ => stable_pure

theorem Resilient.allocuvm (d oldsz newsz : Nat) :
    Follows x I (allocuvm e d oldsz newsz) (allocuvm e' d oldsz newsz) fun _ => I := by
  have hloop : ∀ left a, Follows x I (allocuvmLoop e d oldsz newsz left a)
      (allocuvmLoop e' d oldsz newsz left a) fun _ => I := by
    intro left
    induction left with
    | zero => exact fun a => stable_pure.follows
    | succ left ih =>
      intro a
      refine (hI.kalloc he).bind fun r => ?_
      cases r with
      | none => exact ((hI.deallocuvm _ _ _).bind fun _ => stable_pure).follows
      | some f =>
        refine (hI.memset f 0).follows.bind fun _ => ?_
        refine (hI.mappages he _ _ _ _ _).bind fun r => Follows.ite ?_ ?_
        · exact ((hI.deallocuvm _ _ _).bind fun _ =>
            (hI.kfree f).bind fun _ => stable_pure).follows
        · refine (stable_walkpgdir _ _).follows.bind fun r => ?_
          refine (stable_nonNull r).follows.bind fun ptr => ?_
          refine (hI.incSharing ptr f).follows.bind fun _ => stable_get.follows.bind fun s => ?_
          exact (hI.addRss _).follows.bind fun _ => ih _
  exact stable_pure.follows.ite (stable_pure.follows.ite (hloop _ _))

theorem Resilient.copyuvm (d sz child : Nat) :
    Follows x I (copyuvm e d sz child) (copyuvm e' d sz child) fun _ => I := by
  have hloop : ∀ c left i, Follows x I (copyuvmLoop e d c child left i)
      (copyuvmLoop e' d c child left i) fun _ => I := by
    intro c left
    induction left with
    | zero => exact fun i => stable_pure.follows
    | succ left ih =>
      intro i
      refine (stable_walkpgdir d i).follows.bind fun r => ?_
      cases r with
      | none => exact stable_throw.follows
      | some ptr =>
        refine (stable_load ptr).follows.bind fun w => stable_throw.follows.ite ?_
        refine (hI.mappages he _ _ _ _ _).bind fun r => stable_pure.follows.ite ?_
        refine (stable_walkpgdir c i).follows.bind fun r => ?_
        cases r with
        | none => exact stable_pure.follows
        | some q =>
          refine (stable_load ptr).follows.bind fun w => ?_
          refine (hI.storePte ptr _).follows.bind fun _ => ?_
          refine (stable_load ptr).follows.bind fun w => ?_
          refine (hI.storePte q _).follows.bind fun _ => ?_
          refine (hI.incSharing q _).follows.bind fun _ => ?_
          exact (hI.addRss child).follows.bind fun _ => ih _
  refine (hI.setupkvm he).bind fun r => ?_
  cases r with
  | none => exact stable_pure.follows
  | some c =>
    refine (hloop c _ _).bind fun ok => (Stable.ite stable_pure ?_).follows
    exact (hI.freevm c).bind fun _ => stable_pure

theorem Resilient.execLoad (d : Nat) (ip : File) (left off sz : Nat) :
    Follows x I (execLoad e d ip left off sz) (execLoad e' d ip left off sz) fun _ => I := by
  induction left generalizing off sz with
  | zero => exact stable_pure.follows
  | succ left ih =>
    refine stable_pure.follows.ite (Follows.ite (ih _ _) ?_)
    refine stable_pure.follows.ite (stable_pure.follows.ite ?_)
    refine (hI.allocuvm he _ _ _).bind fun sz => stable_pure.follows.ite ?_
    refine stable_pure.follows.ite ((hI.loaduvm _ _ _ _ _).follows.bind fun r => ?_)
    exact stable_pure.follows.ite (ih _ _)

theorem Resilient.execImage (d : Nat) (ip : File) (argv : List (List Byte)) :
    Follows x I (execImage e d ip argv) (execImage e' d ip argv) fun _ => I := by
  unfold CowPaging.execImage
  refine (hI.execLoad he d ip _ _ _).bind fun r => ?_
  cases r with
  | none => exact stable_pure.follows
  | some sz =>
    refine (hI.allocuvm he _ _ _).bind fun sz => (Stable.ite stable_pure ?_).follows
    refine (hI.clearpteu _ _).bind fun _ => (hI.pushArgs _ _ _ _).bind fun r => ?_
    cases r with
    | none => exact stable_pure
    | some r => exact (hI.copyout _ _ _).bind fun r => Stable.ite stable_pure stable_pure

/-! ### Accesses -/

omit [KernelImage] in
theorem Resilient.handleFageFault (va : Nat) :
    Follows x I (handleFageFault e va) (handleFageFault e' va) fun _ => I := by
  refine stable_get.follows.bind fun s => (stable_walkpgdir _ _).follows.bind fun r => ?_
  refine (stable_nonNull r).follows.bind fun ptr => (stable_load ptr).follows.bind fun w => ?_
  apply Follows.ite
  · refine (stable_checkRmap _).follows.bind fun one => (hI.storePte ptr _).follows.ite ?_
    refine (hI.kalloc he).bind fun r => Stable.follows ?_
    cases r with
    | none => exact stable_throw
    | some f =>
      refine Stable.bind (stable_modify fun _ hs => hI.mem _ hs) fun _ => ?_
      refine (stable_load ptr).bind fun w' => (hI.storePte ptr _).bind fun _ => ?_
      exact (hI.decSharing ptr _).bind fun _ => hI.incSharing ptr f
  · refine (hI.kalloc he).bind fun r => Stable.follows ?_
    cases r with
    | none => exact stable_throw
    | some f =>
      refine Stable.ite stable_throw (Stable.ite stable_throw ?_)
      have hread : Stable I (readPageFromDisk (slotBlock (frameOf w)) f) :=
        stable_loopFrom (fun i => stable_modify fun _ hs => hI.mem _ hs) 8 0
      have hslot : ∀ i g, Stable I (modify fun s => s.setSlot i g : K Unit) :=
        fun i g => stable_modify fun _ hs => hI.slots _ hs
      refine hread.bind fun _ => stable_get.bind fun s => (hslot _ _).bind fun _ => ?_
      refine (hI.storePte ptr _).bind fun _ => ?_
      exact (hI.restoreSharers _ _ _ _ _).bind fun _ => hslot _ _

omit [KernelImage] in
theorem Resilient.access (write : Bool) (va turns : Nat) :
    Follows x I (access e write va turns) (access e' write va turns) fun _ => I := by
  induction turns with
  | zero => exact stable_throw.follows
  | succ turns ih =>
    refine (hI.translate write va).follows.bind fun r => ?_
    cases r with
    | some f => exact stable_pure.follows
    | none => exact (hI.handleFageFault he va).bind fun _ => ih

omit [KernelImage] in
theorem Resilient.userRead (va : Nat) :
    Follows x I (userRead e va) (userRead e' va) fun _ => I :=
  (hI.access he false va 3).bind fun _ => stable_get.follows.bind fun _ => stable_pure.follows

omit [KernelImage] in
theorem Resilient.userWrite (va : Nat) (b : Byte) :
    Follows x I (userWrite e va b) (userWrite e' va b) fun _ => I :=
  (hI.access he true va 3).bind fun _ => (stable_modify fun _ hs => hI.mem _ hs).follows

end

/-! ### Calls

For properties of the free list and its count, the process table may change in any way. -/

/-- A property of the free list and its count. -/
structure OfFreeList (I : Kernel → Prop) : Prop extends Resilient I where
  only {s s' : Kernel} : I s → s'.freelist = s.freelist → s'.numFreePages = s.numFreePages → I s'

theorem ofFreeList_true : OfFreeList fun _ => True := ⟨resilient_true, fun _ _ _ => trivial⟩

section

variable (hI : OfFreeList I)
include hI

theorem OfFreeList.setProc (p : Nat) (f : Proc → Proc) :
    Stable I (modify fun s => s.setProc p f : K Unit) :=
  stable_modify fun _ hs => hI.only hs rfl rfl

theorem OfFreeList.exit : Stable I exit :=
  stable_read fun _ hs => wp_ite (fun _ => trivial) fun _ => hI.only hs rfl rfl

theorem OfFreeList.wait [KernelImage] : Stable I wait := by
  refine stable_get.bind fun s => ?_
  cases firstSlot NPROC fun p =>
      decide ((s.proc p).parent = some s.cur) && decide ((s.proc p).state = .zombie) with
  | none => exact Stable.ite stable_pure stable_pure
  | some p =>
    refine (hI.cleanProcData _).bind fun _ => (hI.kfree _).bind fun _ => ?_
    refine (hI.setProc p _).bind fun _ => (hI.freevm2 _ _).bind fun _ => ?_
    exact (hI.setProc p _).bind fun _ => stable_pure

variable (he : Follows x I e e' fun _ => I)
include he

theorem OfFreeList.allocproc : Follows x I (allocproc e) (allocproc e') fun _ => I := by
  have hget : Follows x I get get fun s t => t = s ∧ I t := follows_self fun s hs => ⟨rfl, hs⟩
  refine hget.bind fun s => ?_
  cases firstSlot NPROC fun p => decide ((s.proc p).state = .unused) with
  | none => exact follows_self fun _ hs => hs.2
  | some p =>
    refine (follows_self (J := fun _ => I) ?_).bind fun _ => (hI.kalloc he).bind fun r => ?_
    · rintro _ ⟨rfl, hs⟩
      exact hI.only hs rfl rfl
    · cases r with
      | none => exact ((hI.setProc p _).bind fun _ => stable_pure).follows
      | some f => exact ((hI.setProc p _).bind fun _ => stable_pure).follows

variable [KernelImage]

theorem OfFreeList.fork : Follows x I (fork e) (fork e') fun _ => I := by
  refine (hI.allocproc he).bind fun r => ?_
  cases r with
  | none => exact stable_pure.follows
  | some np =>
    refine stable_get.follows.bind fun s => (hI.copyuvm he _ _ _).bind fun r => Stable.follows ?_
    cases r with
    | none =>
      refine stable_get.bind fun s => (hI.kfree _).bind fun _ => ?_
      exact (hI.setProc np _).bind fun _ => stable_pure
    | some c =>
      refine Stable.bind (stable_modify fun _ hs => hI.only hs rfl rfl) fun _ => ?_
      exact stable_get.bind fun _ => stable_pure

theorem OfFreeList.growproc (n : Int) :
    Follows x I (growproc e n) (growproc e' n) fun _ => I := by
  have hsize : ∀ sz, Stable I (do
      modify fun s => s.setProc s.cur fun pr => { pr with sz := sz }
      pure 0 : K Int) := fun sz =>
    Stable.bind (stable_modify fun _ hs => hI.only hs rfl rfl) fun _ => stable_pure
  refine stable_get.follows.bind fun s => Follows.ite ?_ (Stable.follows ?_)
  · exact (hI.allocuvm he _ _ _).bind fun sz => (Stable.ite stable_pure (hsize sz)).follows
  · refine Stable.ite ?_ stable_pure
    exact (hI.deallocuvm _ _ _).bind fun sz => Stable.ite stable_pure (hsize sz)

theorem OfFreeList.exec (ip : Option File) (argv : List (List Byte)) :
    Follows x I (exec e ip argv) (exec e' ip argv) fun _ => I := by
  cases ip with
  | none => exact stable_pure.follows
  | some ip =>
    refine stable_pure.follows.ite (stable_pure.follows.ite ((hI.setupkvm he).bind fun r => ?_))
    cases r with
    | none => exact stable_pure.follows
    | some d =>
      refine (hI.execImage he d ip argv).bind fun r => Stable.follows ?_
      cases r with
      | none => exact (hI.freevm d).bind fun _ => stable_pure
      | some sz =>
        refine stable_get.bind fun s => ?_
        refine Stable.bind (stable_modify fun _ hs => hI.only hs rfl rfl) fun _ => ?_
        exact (hI.freevm _).bind fun _ => stable_pure

theorem OfFreeList.perform (p : Nat) (op : Op) :
    Follows x I (perform e p op) (perform e' p op) fun _ => I := by
  have hcur : Stable I (modify fun s => { s with cur := p } : K Unit) :=
    stable_modify fun _ hs => hI.only hs rfl rfl
  refine hcur.follows.bind fun _ => ?_
  cases op with
  | fork => exact (hI.fork he).bind fun _ => stable_pure.follows
  | exec ip argv => exact (hI.exec he ip argv).bind fun _ => stable_pure.follows
  | sbrk n => exact (hI.growproc he n).bind fun _ => stable_pure.follows
  | exit => exact (hI.exit.bind fun _ => stable_pure).follows
  | wait =>
    refine (hI.wait.bind fun r => ?_).follows
    cases r with
    | none => exact stable_pure
    | some r => exact stable_pure
  | read va => exact (hI.userRead he va).bind fun _ => stable_pure.follows
  | write va b => exact (hI.userWrite he va b).bind fun _ => stable_pure.follows
  | fault va => exact (hI.handleFageFault he va).bind fun _ => stable_pure.follows
  | touch va => exact ((hI.touch va).bind fun _ => stable_pure).follows

end

/-! ### A routine that may give up -/

/-- `e` does what `e'` does, or gives up. -/
abbrev Cautious (e e' : K Unit) : Prop := StopsOr Halt.noEvict e e'

theorem cautious_noEvict (e' : K Unit) : Cautious noEvict e' := fun _ => .inl rfl

theorem Cautious.follows (h : Cautious e e') :
    Follows Halt.noEvict (fun _ => True) e e' fun _ _ => True :=
  ⟨fun s _ => h s, fun _ _ => wp_trivial e⟩

section

variable (h : Cautious e e')
include h

theorem Cautious.walkpgdirAlloc (d va : Nat) :
    StopsOr .noEvict (walkpgdirAlloc e d va) (walkpgdirAlloc e' d va) :=
  (resilient_true.walkpgdirAlloc h.follows d va).stopsOr

theorem Cautious.mappages (d va size : Nat) (pa perm : Word) :
    StopsOr .noEvict (mappages e d va size pa perm) (mappages e' d va size pa perm) :=
  (resilient_true.mappages h.follows d va size pa perm).stopsOr

variable [KernelImage]

theorem Cautious.growproc (n : Int) : StopsOr .noEvict (growproc e n) (growproc e' n) :=
  (ofFreeList_true.growproc h.follows n).stopsOr

theorem Cautious.perform (p : Nat) (op : Op) :
    StopsOr .noEvict (perform e p op) (perform e' p op) :=
  (ofFreeList_true.perform h.follows p op).stopsOr

end

end CowPaging
