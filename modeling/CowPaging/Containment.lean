import CowPaging.EvictSpec
import CowPaging.ResidentSize

/-!
# Faults on addresses that are not the process's

`trap` gives every page fault to `handle_fage_fault`, which looks at the present bit
of the entry and at nothing else: not at the size of the process, nor at the user
bit, nor at the address. For an address that the process may not use it should mark
the process killed and change nothing. `trap_contains_iff` says for every state
exactly when it does: the process was marked killed before, and the entry of the
address is present, writable and the only mapping of its page, so that there is
nothing to change.
-/

namespace CowPaging

open Bytes StateExcept SlotTable
open Function (update_of_ne update_self update_eq_self update)

/-! ### The property -/

/-- The processor faults on the access: the entry is not present, not for user code,
    or not writable. -/
def Faults (s : Kernel) (write : Bool) (va : Nat) : Prop :=
  let w := entry s (s.proc s.cur).pgdir (va / PGSIZE)
  ¬ (has w PTE_P = true ∧ has w PTE_U = true ∧ (write = true → has w PTE_W = true))

/-- A fault that the handler is not for: neither a write to a page of the process that
    lacks `PTE_W`, nor an access to a page of the process that is swapped out. -/
def InvalidAccess (s : Kernel) (write : Bool) (va : Nat) : Prop :=
  let w := entry s (s.proc s.cur).pgdir (va / PGSIZE)
  Faults s write va ∧
    ¬ (write = true ∧ va < (s.proc s.cur).sz ∧ has w PTE_P = true ∧ has w PTE_U = true ∧
      has w PTE_W = false) ∧
    ¬ (va < (s.proc s.cur).sz ∧ has w PTE_S = true)

/-- The faulting process is marked killed and nothing else happened to the memory
    system: the page tables of all processes, the reverse map, the swap slots, the
    free list and the process table are the same. -/
structure Contained (s s' : Kernel) : Prop where
  killed : s'.proc s.cur = { s.proc s.cur with killed := true }
  others : ∀ p, p ≠ s.cur → s'.proc p = s.proc p
  dirs : ∀ p, p < NPROC → (s.proc p).state.live = true →
    s'.mem (s.proc p).pgdir = s.mem (s.proc p).pgdir
  tables : ∀ p i t, p < NPROC → (s.proc p).state.live = true → i < NPDENTRIES →
    tableOf s (s.proc p).pgdir i = some t → s'.mem t = s.mem t
  rmap : s'.rmap = s.rmap
  slots : s'.swaparray = s.swaparray
  freelist : s'.freelist = s.freelist

section

variable [KernelImage]

/-- The page fault at `va` returns, and is contained. -/
def Contains (s : Kernel) (va : Nat) : Prop :=
  ∃ s', trapPgflt findNewPageAfterSwapping va s = .ok ((), s') ∧ Contained s s'

end

/-- The entry of `va` in the tables of the current process, as `walkpgdir` finds it. -/
structure EntryOf (s : Kernel) (va : Nat) (ptr : PtePtr) : Prop where
  table : tableOf s (s.proc s.cur).pgdir (PDX va) = some ptr.table
  index : ptr.index = PTX va
  lt : ptr.table < NFRAMES

/-- The entry of `va` is present and writable, and its page has this mapping only. -/
def Harmless (s : Kernel) (va : Nat) : Prop :=
  ∃ ptr, EntryOf s va ptr ∧ has (pteAt s ptr) PTE_P = true ∧ has (pteAt s ptr) PTE_W = true ∧
    frameOf (pteAt s ptr) < NFRAMES ∧ (s.rmap (frameOf (pteAt s ptr))).refcount = 1

/-! ### What an eviction leaves behind -/

section

variable {s s' : Kernel} {ptr : PtePtr}

theorem leaves_load {γ : Type} {g : Kernel → γ} (ptr : PtePtr) :
    Leaves g (loadPte ptr) fun _ => True := fun _ => ⟨trivial, rfl⟩

theorem leaves_walk {γ : Type} {g : Kernel → γ} (d va : Nat) :
    Leaves g (walkpgdir d va) fun _ => True := by
  refine leaves_get fun s => ?_
  refine wp_ite (fun _ => wp_ite (fun _ => ?_) fun _ => trivial) fun _ => ?_
  · exact ⟨trivial, rfl⟩
  · exact ⟨trivial, rfl⟩

theorem scanVictim_present {d rss : Nat} :
    ∀ {left i total : Nat}, wp (scanVictim d rss left i total) s (fun r s' => s' = s ∧
      ∀ ptr, r.1 = some ptr → has (pteAt s ptr) PTE_P = true)
      fun _ => True := by
  intro left
  induction left with
  | zero => exact ⟨rfl, fun ptr h => (Option.some_ne_none _ h.symm).elim⟩
  | succ left ih =>
    intro i total
    rw [scanVictim, wp_bind]
    refine wp_conseq (leaves_walk (g := id) d i s) ?_
    rintro r s1 ⟨-, rfl⟩
    cases r with
    | none => exact trivial
    | some q =>
      simp only [nonNull, pure_bind, wp_bind, wp_loadPte]
      refine wp_ite (fun hp => wp_ite (fun _ => wp_ite (fun _ => ih) fun _ => ?_)
        fun _ => ih) fun _ => ih
      refine ⟨rfl, fun ptr h => ?_⟩
      rw [← Option.some.inj h]
      exact hp

theorem leaves_makeAccesBit0 {γ : Type} {g : Kernel → γ} (orig : PtePtr)
    (hg : ∀ s t i w, g (Kernel.storeWord s t i w) = g s) :
    Leaves g (makeAccesBit0 orig) fun _ => True := by
  have hclear : ∀ d left i, Leaves g (clearAccessedIn d orig left i) fun _ => True := by
    intro d left
    induction left with
    | zero => exact fun i => leaves_pure trivial
    | succ left ih =>
      intro i
      refine (leaves_walk d i).bind fun r _ => ?_
      cases r with
      | none => exact leaves_throw
      | some q =>
        refine (leaves_load q).bind fun w _ => (leaves_load orig).bind fun w' _ => ?_
        refine Leaves.ite (Leaves.bind (leaves_modify fun s => ?_) fun _ _ => ih _) ?_
        · exact hg s _ _ _
        · exact ih _
  exact leaves_loopFrom (fun p => leaves_get fun s => hclear _ _ _ s) _ _

theorem leaves_clearSome {γ : Type} {g : Kernel → γ} {d total : Nat}
    (hg : ∀ s t i w, g (Kernel.storeWord s t i w) = g s) :
    ∀ left i cnt, Leaves g (clearSome d total left i cnt) fun _ => True := by
  intro left
  induction left with
  | zero => exact fun i cnt => leaves_pure trivial
  | succ left ih =>
    intro i cnt
    refine (leaves_walk d i).bind fun r _ => ?_
    refine Leaves.bind (P := fun _ => True) ?_ fun q _ => ?_
    · cases r with
      | none => exact leaves_throw
      | some q => exact leaves_pure trivial
    refine (leaves_load q).bind fun w _ => Leaves.ite ?_ ?_
    · exact (leaves_makeAccesBit0 q hg).bind fun _ _ =>
        Leaves.ite (leaves_pure trivial) (ih _ _)
    · exact Leaves.ite (leaves_pure trivial) (ih _ _)

theorem selectAVictim_present :
    wp selectAVictim s (fun r s' => s'.swaparray = s.swaparray ∧
      ∀ ptr, r = some ptr → has (pteAt s' ptr) PTE_P = true)
      fun _ => True := by
  unfold selectAVictim
  rw [wp_bind, wp_get, wp_bind]
  refine wp_conseq scanVictim_present ?_
  rintro ⟨r, total⟩ s1 ⟨rfl, hr⟩
  cases r with
  | some ptr => exact ⟨rfl, hr⟩
  | none =>
    dsimp only
    rw [wp_bind]
    refine wp_conseq (leaves_clearSome (g := Kernel.swaparray) (fun _ _ _ _ => rfl) _ _ _ _) ?_
    rintro - s2 ⟨-, hslots⟩
    rw [wp_bind]
    refine wp_conseq scanVictim_present ?_
    rintro ⟨r, total⟩ s3 ⟨rfl, hr⟩
    exact ⟨hslots, hr⟩

theorem leaves_decSharing {γ : Type} {g : Kernel → γ} (q : PtePtr) (n : Nat)
    (hrmap : ∀ s n r, g (Kernel.setRmap s n r) = g s) :
    Leaves g (decSharing q n) fun _ => True := by
  refine leaves_get fun s => ?_
  refine wp_ite (fun _ => ?_) fun _ => trivial
  dsimp only
  cases (s.rmap n).slotOf q with
  | none => exact trivial
  | some i => exact ⟨trivial, hrmap s n _⟩

theorem leaves_makeOther {γ : Type} {g : Kernel → γ} (ptr : PtePtr) (idx : Nat)
    (hproc : ∀ s p, g (Kernel.setProc s p fun pr =>
      { pr with rss := (pr.rss + (2 ^ 32 - PGSIZE)) % 2 ^ 32 }) = g s)
    (hrmap : ∀ s n r, g (Kernel.setRmap s n r) = g s)
    (hslot : ∀ s p q, g (Kernel.setSlot s idx fun slot =>
      { slot with
        procId := update slot.procId slot.cnt p
        pteId := update slot.pteId slot.cnt q
        cnt := slot.cnt + 1 }) = g s) :
    Leaves g (makeOtherPteSwappedOut ptr idx) fun _ => True := by
  have hfind : ∀ p left i, Leaves g (findPteSwapOut p ptr idx left i) fun _ => True := by
    intro p left
    induction left with
    | zero => exact fun i => leaves_pure trivial
    | succ left ih =>
      intro i
      refine leaves_get fun s => ?_
      refine Leaves.bind (leaves_walk _ i) (fun r _ => ?_) s
      cases r with
      | none => exact leaves_throw
      | some q =>
        refine (leaves_load q).bind fun w _ => (leaves_load ptr).bind fun w' _ => ?_
        refine Leaves.ite ?_ (ih _)
        have hrest : ∀ n, Leaves g (do
            modify fun s => s.setProc p fun pr =>
              { pr with rss := (pr.rss + (2 ^ 32 - PGSIZE)) % 2 ^ 32 }
            let _ ← decSharing q n
            pure () : K Unit) fun _ => True := fun n =>
          Leaves.bind (leaves_modify fun s => hproc s p) fun _ _ =>
            (leaves_decSharing q n hrmap).bind fun _ _ => leaves_pure trivial
        refine Leaves.ite (Leaves.bind (leaves_modify fun s => hslot s p q) fun _ _ => hrest _) ?_
        exact Leaves.bind (P := fun _ => True) leaves_throw fun _ _ => hrest _
  refine leaves_loopFrom (fun p => leaves_get fun s => ?_) _ _
  exact Leaves.ite (leaves_pure trivial) (hfind p _ _) s

variable [KernelImage]

/-- After an eviction a slot that was free is in use; it holds the flags of a present
    page, and its record names one entry only. This needs no invariant. -/
structure SlotTaken (s s' : Kernel) (idx : Nat) : Prop where
  free : (s.swaparray idx).isFree = true
  busy : (s'.swaparray idx).isFree = false
  perm : has (s'.swaparray idx).pagePerm PTE_P = true
  entry : ∃ ptr, ∀ i, i < (s'.swaparray idx).cnt → (s'.swaparray idx).pteId i = ptr

theorem finishEviction_takes {e : Eviction} (hp : has (pteAt s e.pte) PTE_P = true) :
    wp (finishEviction e) s (fun _ s' => (s'.swaparray e.idx).isFree = false ∧
      has (s'.swaparray e.idx).pagePerm PTE_P = true ∧
      ∀ i, i < (s'.swaparray e.idx).cnt → (s'.swaparray e.idx).pteId i = e.pte)
      fun _ => True := by
  unfold finishEviction
  rw [wp_bind]
  refine wp_conseq (leaves_makeOther (g := Kernel.mem) e.pte e.idx (fun _ _ => rfl)
    (fun _ _ _ => rfl) (fun _ _ _ => rfl) s) ?_
  rintro - s1 ⟨-, hmem⟩
  have hp1 : has (pteAt s1 e.pte) PTE_P = true := by rw [pteAt, hmem]; exact hp
  simp only [wp_bind, wp_loadPte, wp_modify, kfree]
  refine wp_ite (fun _ => trivial) fun _ => ?_
  simp only [wp_modify, wp_storePte]
  simp only [Kernel.setSlot, Kernel.storeWord, Kernel.setPage, update_self]
  refine ⟨trivial, ?_, fun i hi => if_pos hi⟩
  rw [has_P, getLsbD_PTE_FLAGS, ← has_P, hp1]
  rfl

theorem findNewPageAfterSwapping_takes :
    wp findNewPageAfterSwapping s (fun _ s' => ∃ idx, SlotTaken s s' idx) fun _ => True := by
  unfold findNewPageAfterSwapping beginEviction
  rw [wp_bind, wp_bind]
  refine wp_conseq selectAVictim_present ?_
  rintro r s1 ⟨hslots, hr⟩
  rw [wp_bind, wp_get]
  cases hfirst : firstSlot NSLOTS fun i => (s1.swaparray i).isFree with
  | none => exact trivial
  | some idx =>
    cases r with
    | none => exact trivial
    | some ptr =>
      have hp := hr ptr rfl
      have hfree : (s1.swaparray idx).isFree = true := (firstSlot_some hfirst).2
      simp only [wp_bind, wp_loadPte, wp_pure]
      refine wp_writePag ?_
      refine wp_conseq (finishEviction_takes hp) ?_
      rintro - s2 ⟨hbusy, hperm, hptr⟩
      exact ⟨idx, by rw [← hslots]; exact hfree, hbusy, hperm, ptr, hptr⟩

/-! ### The handler -/

theorem kalloc_takes :
    wp (kalloc findNewPageAfterSwapping) s (fun _ s' =>
      (∃ f, s.freelist = f :: s'.freelist) ∨ ∃ idx, SlotTaken s s' idx) fun _ => True := by
  unfold kalloc
  rw [wp_bind]
  cases hlist : s.freelist with
  | cons f rest =>
    refine (wp_popFree_cons hlist).2 ?_
    exact .inl ⟨f, rfl⟩
  | nil =>
    refine (wp_popFree_nil hlist).2 ?_
    dsimp only
    rw [wp_bind]
    refine wp_conseq findNewPageAfterSwapping_takes ?_
    rintro - s1 ⟨idx, htaken⟩
    rw [wp_bind]
    cases hlist1 : s1.freelist with
    | nil =>
      refine (wp_popFree_nil hlist1).2 ?_
      exact trivial
    | cons f rest =>
      refine (wp_popFree_cons hlist1).2 ?_
      exact .inr ⟨idx, htaken.free, htaken.busy, htaken.perm, htaken.entry⟩

omit [KernelImage] in
/-- Storing the word of `ptr` anywhere keeps the word of `ptr`. -/
theorem pteAt_copy (q : PtePtr) :
    pteAt (s.storeWord q.table q.index (pteAt s ptr)) ptr = pteAt s ptr := by
  simp only [pteAt, Kernel.storeWord, Kernel.setPage]
  by_cases ht : ptr.table = q.table
  · rw [ht, update_self, ldw_stw]
    split
    · rfl
    · rfl
  · rw [update_of_ne ht]

omit [KernelImage] in
theorem restoreSharers_keeps {b f : Nat} :
    ∀ {left i : Nat} {s : Kernel}, wp (restoreSharers b f ptr left i) s (fun _ s' =>
      s'.freelist = s.freelist ∧ s'.swaparray = s.swaparray ∧ pteAt s' ptr = pteAt s ptr)
      fun _ => True := by
  intro left
  induction left with
  | zero => exact ⟨rfl, rfl, rfl⟩
  | succ left ih =>
    intro i s
    rw [restoreSharers, wp_bind, wp_get]
    refine wp_ite (fun _ => trivial) fun _ => wp_ite (fun _ => ih) fun _ => ?_
    rw [wp_bind]
    unfold incSharing
    rw [wp_bind, wp_get]
    refine wp_ite (fun _ => ?_) fun _ => trivial
    simp only [addRss, wp_bind, wp_set, wp_modify, wp_loadPte, wp_storePte]
    refine wp_conseq ih ?_
    rintro - s' ⟨hlist, hslots, hptr⟩
    refine ⟨hlist, hslots, hptr.trans ?_⟩
    exact pteAt_copy (s := (s.setRmap f _).setProc _ _) _

/-- A change that shows: in the free list, in the slots, or in the page table that has
    the entry of `va`. -/
def Disturbs (s s' : Kernel) (va : Nat) : Prop :=
  s'.freelist ≠ s.freelist ∨ s'.swaparray ≠ s.swaparray ∨
    ∃ t, tableOf s (s.proc s.cur).pgdir (PDX va) = some t ∧ s'.mem t ≠ s.mem t

omit [KernelImage] in
theorem PDX_PTX_rounddown (va : Nat) :
    PDX (PGROUNDDOWN va) = PDX va ∧ PTX (PGROUNDDOWN va) = PTX va := by
  simp only [PDX, PTX, PGROUNDDOWN, PGSIZE]
  omega

omit [KernelImage] in
theorem wp_walk_cur {va : Nat} {Q : Option PtePtr → Kernel → Prop} (hnone : Q none s)
    (hsome : ∀ ptr, EntryOf s va ptr → Q (some ptr) s) :
    wp (walkpgdir (s.proc s.cur).pgdir (PGROUNDDOWN va)) s Q fun _ => True := by
  obtain ⟨hpdx, hptx⟩ := PDX_PTX_rounddown va
  unfold walkpgdir
  rw [wp_bind, wp_get, hpdx, hptx]
  refine wp_ite (fun hp => wp_ite (fun hlt => ?_) fun _ => trivial) fun _ => hnone
  exact hsome _ ⟨if_pos hp, rfl, hlt⟩

omit [KernelImage] in
theorem EntryOf.walk {va : Nat} (h : EntryOf s va ptr) :
    walkpgdir (s.proc s.cur).pgdir (PGROUNDDOWN va) s = .ok (some ptr, s) := by
  obtain ⟨hpdx, hptx⟩ := PDX_PTX_rounddown va
  have htab := h.table
  unfold tableOf at htab
  split at htab
  · next hp =>
      have hframe := Option.some.inj htab
      have hlt : frameOf (ldw (s.mem (s.proc s.cur).pgdir) (PDX va)) < NFRAMES := by
        rw [hframe]
        exact h.lt
      have hptr : ptr = ⟨ptr.table, PTX va⟩ := by rw [← h.index]
      have hwp : wp (walkpgdir (s.proc s.cur).pgdir (PGROUNDDOWN va)) s
          (fun r s' => r = some ptr ∧ s' = s) fun _ => False := by
        unfold walkpgdir
        rw [wp_bind, wp_get, hpdx, hptx, if_pos hp, if_pos hlt, hframe]
        exact ⟨by rw [hptr], rfl⟩
      obtain ⟨_, _, hok, rfl, rfl⟩ := exists_ok_of_wp hwp
      exact hok
  · cases htab

omit [KernelImage] in
theorem perm_present {f : Nat} {perm : Word} (h : has perm PTE_P = true) :
    has (((frameAddr f ||| PTE_FLAGS perm) ||| PTE_A) &&& ~~~PTE_W &&& ~~~PTE_S) PTE_P = true := by
  rw [has_P] at h
  rw [has_P, BitVec.getLsbD_and, BitVec.getLsbD_and, BitVec.getLsbD_or, BitVec.getLsbD_or,
    getLsbD_PTE_FLAGS, h]
  have hlow : decide (0 < 12) = true := rfl
  rw [hlow, Bool.and_true, Bool.or_true, Bool.true_or]
  rfl

omit [KernelImage] in
/-- The part of the handler that brings a page in, after `kalloc`. -/
theorem swapIn_effect {blockNo f : Nat} :
    wp (do
      readPageFromDisk (slotBlock blockNo) f
      let s ← get
      let perm := (s.swaparray blockNo).pagePerm
      modify fun s => s.setSlot blockNo fun slot => { slot with isFree := true }
      storePte ptr
        (((frameAddr f ||| PTE_FLAGS perm) ||| PTE_A) &&& ~~~PTE_W &&& ~~~PTE_S)
      restoreSharers blockNo f ptr (s.swaparray blockNo).cnt 0
      modify fun s => s.setSlot blockNo fun slot => { slot with cnt := 0 } : K Unit) s
      (fun _ s' => s'.freelist = s.freelist ∧
        (∀ i, i ≠ blockNo → s'.swaparray i = s.swaparray i) ∧
        (has (s.swaparray blockNo).pagePerm PTE_P = true → has (pteAt s' ptr) PTE_P = true))
      fun _ => True := by
  rw [wp_bind]
  refine wp_readPage ?_
  simp only [wp_bind, wp_get, wp_modify, wp_storePte]
  refine wp_conseq restoreSharers_keeps ?_
  rintro - s' ⟨hlist, hslots, hptr⟩
  refine ⟨hlist, fun i hi => ?_, fun hperm => ?_⟩
  · have hold : (s'.setSlot blockNo fun slot => { slot with cnt := 0 }).swaparray i =
        s'.swaparray i := update_of_ne hi _ _
    rw [hold, hslots]
    exact update_of_ne hi _ _
  · have hword : pteAt s' ptr = _ := hptr
    have hsame : pteAt (s'.setSlot blockNo fun slot => { slot with cnt := 0 }) ptr =
        pteAt s' ptr := rfl
    rw [hsame, hword]
    simp only [pteAt, Kernel.storeWord, Kernel.setPage, update_self, ldw_stw_self]
    exact perm_present hperm

omit [KernelImage] in
/-- The part of the handler that copies a shared page, after `kalloc`. -/
theorem copy_keeps (f n : Nat) :
    Leaves (fun s : Kernel => (s.freelist, s.swaparray)) (do
      modify fun s => s.setPage f (s.mem n)
      let w' ← loadPte ptr
      storePte ptr (frameAddr f ||| PTE_FLAGS w' ||| PTE_W)
      let _ ← decSharing ptr n
      incSharing ptr f : K Unit) fun _ => True := by
  refine Leaves.bind (leaves_modify fun _ => rfl) fun _ _ => ?_
  refine (leaves_load ptr).bind fun _ _ => ?_
  refine Leaves.bind (leaves_modify fun _ => rfl) fun _ _ => ?_
  refine Leaves.bind (leaves_decSharing ptr n fun _ _ _ => rfl) fun _ _ => ?_
  refine leaves_get fun s => ?_
  exact wp_ite (fun _ => ⟨trivial, rfl⟩) fun _ => trivial

/-- The handler makes the entry of a page with one mapping writable, or does something
    that shows. -/
theorem handleFageFault_shows (va : Nat) :
    wp (handleFageFault findNewPageAfterSwapping va) s (fun _ s' =>
      (∃ ptr, EntryOf s va ptr ∧ has (pteAt s ptr) PTE_P = true ∧
        frameOf (pteAt s ptr) < NFRAMES ∧ (s.rmap (frameOf (pteAt s ptr))).refcount = 1 ∧
        s' = s.storeWord ptr.table ptr.index (pteAt s ptr ||| PTE_W)) ∨ Disturbs s s' va)
      fun _ => True := by
  unfold handleFageFault
  rw [wp_bind, wp_get, wp_bind]
  refine wp_walk_cur trivial fun ptr hwalk => ?_
  simp only [nonNull, pure_bind, wp_bind, wp_loadPte]
  refine wp_ite (fun hp => ?_) fun hp => ?_
  · -- a page in memory
    unfold checkRmap
    rw [wp_bind, wp_bind, wp_get]
    refine wp_ite (fun hlt => ?_) fun _ => trivial
    rw [wp_pure]
    refine wp_ite (fun hone => ?_) fun _ => ?_
    · exact .inl ⟨ptr, hwalk, hp, hlt, beq_iff_eq.1 hone, rfl⟩
    · rw [wp_bind]
      refine wp_conseq kalloc_takes fun r s1 htakes => ?_
      cases r with
      | none => exact trivial
      | some f =>
        refine wp_conseq (copy_keeps f (frameOf (pteAt s ptr)) s1) ?_
        rintro - s2 ⟨-, hkeep⟩
        obtain ⟨hlist, hslots⟩ := Prod.mk.inj hkeep
        refine .inr (htakes.elim ?_ ?_)
        · rintro ⟨g, hg⟩
          refine .inl fun heq => ?_
          rw [heq, hg] at hlist
          exact absurd (congrArg List.length hlist) (by simp)
        · rintro ⟨idx, htaken⟩
          refine .inr (.inl fun heq => ?_)
          have hbusy := htaken.busy
          rw [← hslots, heq, htaken.free] at hbusy
          cases hbusy
  · -- a page that is not in memory
    rw [wp_bind]
    refine wp_conseq kalloc_takes fun r s1 htakes => ?_
    cases r with
    | none => exact trivial
    | some f =>
      refine wp_ite (fun _ => trivial) fun _ => wp_ite (fun _ => trivial) fun _ => ?_
      refine wp_conseq swapIn_effect ?_
      rintro - s2 ⟨hlist, hslots, hpte⟩
      refine .inr (htakes.elim ?_ ?_)
      · rintro ⟨g, hg⟩
        refine .inl fun heq => ?_
        rw [heq, hg] at hlist
        exact absurd (congrArg List.length hlist) (by simp)
      · rintro ⟨idx, htaken⟩
        by_cases hidx : idx = frameOf (pteAt s ptr)
        · -- the slot just taken is the one the entry names: the entry is now present
          subst hidx
          refine .inr (.inr ⟨ptr.table, hwalk.table, fun hmem => hp ?_⟩)
          have hword : pteAt s2 ptr = pteAt s ptr := by rw [pteAt, pteAt, hmem]
          rw [← hword]
          exact hpte htaken.perm
        · refine .inr (.inl fun heq => ?_)
          have hbusy := htaken.busy
          rw [← hslots idx hidx, heq, htaken.free] at hbusy
          cases hbusy

omit [KernelImage] in
theorem Disturbs.not_contained {va : Nat} (h : Disturbs s s' va) (hrun : Runs s s.cur) :
    ¬ Contained s s' := by
  intro hc
  rcases h with hlist | hslots | ⟨t, ht, hmem⟩
  · exact hlist hc.freelist
  · exact hslots hc.slots
  · obtain ⟨hlt, hlive, -⟩ := attachOf_eq_some.1 hrun.live
    exact hmem (hc.tables s.cur _ t hlt hlive (Nat.mod_lt _ (by decide)) ht)

omit [KernelImage] in
theorem or_W_eq {w : Word} : w ||| PTE_W = w ↔ has w PTE_W = true := by
  constructor
  · intro h
    rw [has_W, ← h, BitVec.getLsbD_or, getLsbD_W]
    simp
  · intro h
    refine BitVec.eq_of_getLsbD_eq fun i hi => ?_
    rw [BitVec.getLsbD_or, getLsbD_W]
    by_cases h1 : i = 1
    · simp_all
    · simp [h1]

/-- A page fault at an address is contained, in a running process and whatever the
    state, exactly when the process was marked killed before and there was nothing to
    change: the entry is present, writable and the only mapping of its page. This is
    about every address, so in particular about those the process may not use. -/
theorem trap_contains_iff (hrun : Runs s s.cur) (va : Nat) :
    Contains s va ↔ (s.proc s.cur).killed = true ∧ Harmless s va := by
  constructor
  · rintro ⟨s', hok, hc⟩
    rcases wp_ok (handleFageFault_shows va) hok with
      ⟨ptr, hwalk, hp, hlt, hone, rfl⟩ | hshows
    · have hkilled : s.proc s.cur = { s.proc s.cur with killed := true } := hc.killed
      refine ⟨by rw [hkilled], ptr, hwalk, hp, ?_, hlt, hone⟩
      obtain ⟨hcur, hlive, -⟩ := attachOf_eq_some.1 hrun.live
      have hmem := hc.tables s.cur _ _ hcur hlive (Nat.mod_lt _ (by decide)) hwalk.table
      have hword := congrArg (fun page => ldw page ptr.index) hmem
      simp only [Kernel.storeWord, Kernel.setPage, update_self, ldw_stw_self] at hword
      exact or_W_eq.1 hword
    · exact (hshows.not_contained hrun hc).elim
  · rintro ⟨hkilled, ptr, hwalk, hp, hW, hlt, hone⟩
    have hwp : wp (handleFageFault findNewPageAfterSwapping va) s (fun _ s' => s' = s)
        fun _ => False := by
      unfold handleFageFault checkRmap
      rw [wp_bind, wp_get, wp_bind, wp_of_ok hwalk.walk]
      simp only [nonNull, pure_bind, wp_bind, wp_loadPte]
      rw [if_pos hp, wp_bind, wp_bind, wp_get, if_pos hlt, wp_pure, hone, beq_self_eq_true,
        if_pos rfl, wp_storePte, or_W_eq.2 hW]
      simp only [Kernel.storeWord, Kernel.setPage, pteAt, stw_ldw, update_eq_self]
    obtain ⟨_, s', hok, rfl⟩ := exists_ok_of_wp hwp
    exact ⟨s', hok, by rw [← hkilled], fun _ _ => rfl, fun _ _ _ => rfl, fun _ _ _ _ _ _ _ => rfl,
      rfl, rfl, rfl⟩


theorem not_contains_of_alive (hrun : Runs s s.cur) (halive : (s.proc s.cur).killed = false)
    (va : Nat) : ¬ Contains s va := by
  rintro ⟨s', hok, hc⟩
  rcases wp_ok (handleFageFault_shows va) hok with ⟨ptr, -, -, -, -, rfl⟩ | hshows
  · have hkilled : s.proc s.cur = { s.proc s.cur with killed := true } := hc.killed
    rw [hkilled] at halive
    cases halive
  · exact hshows.not_contained hrun hc

theorem read_above_size_invalid {otherCpus : Nat} {init : List Byte}
    (hboot : boot otherCpus init Kernel.zero = .ok ((), s)) :
    Runs { s with cur := 0 } 0 ∧ (s.proc 0).killed = false ∧
      InvalidAccess { s with cur := 0 } false PGSIZE := by
  obtain ⟨own, h⟩ := refines_of_boot hboot
  have hstate : (s.proc 0).state = .runnable := by rw [← h.table.state]; rfl
  have hsize : (s.proc 0).sz = PGSIZE := by
    rw [← h.seesAs.size 0 (by decide) (by rw [hstate]; rfl)]
    rfl
  have hrun : Runs s 0 := ⟨by decide, .inr (.inl hstate)⟩
  have habove : has (entry s (s.proc 0).pgdir 1) PTE_P = false :=
    h.kinv.above 0 _ _ 1 hrun.live (by rw [hsize]; decide) (by decide)
  refine ⟨hrun, by rw [← h.table.killed]; rfl, ?_, ?_, ?_⟩
  · rintro ⟨hp, -⟩
    exact Bool.noConfusion (habove.symm.trans hp)
  · grind
  · grind

end

theorem trap_contains_iff_sample : letI := KernelImage.sample
    ∃ s, Runs s s.cur ∧ (Contains s PGSIZE ↔ (s.proc s.cur).killed = true ∧ Harmless s PGSIZE) := by
  let _ := KernelImage.sample
  obtain ⟨s₀, _, hboot, -⟩ := sample_run (by decide)
  have hrun := (read_above_size_invalid hboot).1
  exact ⟨{ s₀ with cur := 0 }, hrun, trap_contains_iff hrun PGSIZE⟩

/-- The first process, right after boot, reads one byte past its memory: the access is
    not its own, and it is not stopped for it. -/
theorem read_above_size_uncontained : letI := KernelImage.sample
    ∃ s, boot 1 [7] Kernel.zero = .ok ((), s) ∧
      InvalidAccess { s with cur := 0 } false PGSIZE ∧ ¬ Contains { s with cur := 0 } PGSIZE := by
  let _ := KernelImage.sample
  obtain ⟨s₀, _, hboot, -⟩ := sample_run (by decide)
  obtain ⟨hrun, halive, hinvalid⟩ := read_above_size_invalid hboot
  exact ⟨s₀, hboot, hinvalid, not_contains_of_alive hrun halive PGSIZE⟩

end CowPaging
