import CowPaging.EvictSpec

/-!
# An eviction keeps the invariant

From the return of `write_pag_to_disk` on, `find_new_page_after_swapping` turns an
entry that maps a page of its own into one that names a slot. `SwappedOut` says what
has changed then. The invariant survives, and everybody sees what they saw before. With the
choice of the victim in front, this is the contract of an eviction routine wherever
pages are not shared.
-/

namespace CowPaging

open Bytes StateExcept SlotTable
open Function (update_of_ne update_self update_idem update_comm update)

variable [KernelImage] {mode : Mode} {own : Owners} {att : Attach} {s s' t : Kernel}
  {d v q z idx : Nat} {ptr : PtePtr} {E : Halt → Prop}

/-! ### The end of an eviction -/

/-- The page behind `ptr`, page `v` of process `q` in directory `d`, is in slot `idx`. -/
structure SwappedOut (own : Owners) (q d v : Nat) (ptr : PtePtr) (idx : Nat)
    (s s' : Kernel) : Prop where
  store : PteStore own d v (swapWord idx) s s'
  rmap : ∃ r, r.Lists ∅ ∧ s'.rmap = update s.rmap (frameOf (pteAt s ptr)) r
  freelist : s'.freelist = frameOf (pteAt s ptr) :: s.freelist
  procs : SameProcs s s'
  other : ∀ i, i ≠ idx → s'.swaparray i = s.swaparray i
  busy : (s'.swaparray idx).isFree = false
  perm : (s'.swaparray idx).pagePerm = PTE_FLAGS (pteAt s ptr)
  cnt : (s'.swaparray idx).cnt = 1
  pteId : (s'.swaparray idx).pteId 0 = ptr
  procId : (s'.swaparray idx).procId 0 = q
  mem : ∀ f, f ≠ frameOf (pteAt s ptr) → ¬ (own f).isMap → s'.mem f = s.mem f
  disk : s'.disk = s.disk

omit [KernelImage] in
theorem swapOut_mem {f : Nat} {junk : Page} {w : Word} (hf : ptr.table ≠ f) :
    ((s.setPage f junk).storeWord ptr.table ptr.index w).storeWord ptr.table ptr.index w =
      (s.storeWord ptr.table ptr.index w).setPage f junk := by
  simp only [Kernel.storeWord, Kernel.setPage, update_self, update_idem,
    stw_stw, update_of_ne hf]
  rw [update_comm hf]

theorem finishEviction_spec (h : Inv mode own (attachOf s) s) (hh : Hatched s ∨ ∀ e, E e)
    (hu : Unshared s q d z v ptr) (hidx : idx < NSLOTS)
    (hfree : (s.swaparray idx).isFree = true) (frame : Nat) :
    wp (finishEviction ⟨ptr, frame, idx⟩) s (fun _ s' => SwappedOut own q d v ptr idx s s') E := by
  have hcnt := h.procs.slotFree idx hidx hfree
  have hup := hu.upte h
  have huser := (h.maps.user d v _ hup hu.present).1
  have htab := h.tables.slot_owner hup.1 (upages_lt hup.2.1) hu.slot
  have hne : ptr.table ≠ frameOf (pteAt s ptr) := by grind
  obtain ⟨hframe, hP, hS, hA⟩ := swapWord_bits (nslots_lt hidx)
  unfold finishEviction
  rw [wp_bind]
  refine wp_conseq (makeOther_spec h hh hu hcnt) ?_
  rintro - t ⟨r, hr, rfl⟩
  simp only [wp_bind, wp_loadPte, wp_modify]
  have hword : pteAt (s.taken q ptr idx r) ptr = pteAt s ptr := rfl
  rw [hword]
  obtain ⟨t, ht⟩ : ∃ t, t = (s.taken q ptr idx r).setSlot idx fun slot =>
    { slot with pagePerm := PTE_FLAGS (pteAt s ptr), isFree := false } := ⟨_, rfl⟩
  rw [← ht]
  have hF : FrameInv own t := h.frames.congr (by rw [ht]; rfl)
  rw [wp_of_ok (kfree_eq hF (by rw [huser]; simp))]
  simp only [wp_storePte]
  -- the second store clears a bit that is not set
  have hload : pteAt ((t.freed (frameOf (pteAt s ptr))).storeWord ptr.table ptr.index
      (swapWord idx)) ptr = swapWord idx := pteAt_storeWord_self
  rw [show frameAddr idx ||| PTE_S = swapWord idx from rfl, hload, hA]
  have hslot : t.swaparray idx =
      { s.swaparray idx with
        pagePerm := PTE_FLAGS (pteAt s ptr)
        isFree := false
        procId := update (s.swaparray idx).procId (s.swaparray idx).cnt q
        pteId := update (s.swaparray idx).pteId (s.swaparray idx).cnt ptr
        cnt := (s.swaparray idx).cnt + 1 } := by
    rw [ht]
    simp only [Kernel.setSlot, Kernel.taken, Kernel.setProc, Kernel.setRmap, update_self]
  obtain ⟨s', hs'⟩ : ∃ s', s' = (((t.freed (frameOf (pteAt s ptr))).storeWord ptr.table ptr.index
    (swapWord idx)).storeWord ptr.table ptr.index (swapWord idx)).setSlot idx fun slot =>
      { slot with pteId := fun i => if i < slot.cnt then ptr else slot.pteId i } := ⟨_, rfl⟩
  rw [← hs']
  have hmem : s'.mem = ((s.storeWord ptr.table ptr.index (swapWord idx)).setPage
      (frameOf (pteAt s ptr)) (stw (fun _ => 1) 0 (linkWord t.freelist))).mem := by
    rw [← swapOut_mem hne, hs', ht]
    rfl
  have hself : s'.swaparray idx =
      { t.swaparray idx with pteId := fun i =>
          if i < (t.swaparray idx).cnt then ptr else (t.swaparray idx).pteId i } := by
    rw [hs']
    exact update_self _ _ _
  rw [hslot] at hself
  refine ⟨?_, ⟨r, hr, ?_⟩, ?_, ?_, ?_, by rw [hself], by rw [hself], ?_, ?_, ?_, ?_, ?_⟩
  · refine pteStore_of_mem h.tables hup.1 (upages_lt hup.2.1) hu.slot fun f hf => ?_
    rw [hmem]
    refine update_of_ne ?_ _ _
    rintro rfl
    rw [huser] at hf
    exact hf
  · rw [hs', ht]
    rfl
  · rw [hs', ht]
    rfl
  · have hprocs : SameProcs s (s.taken q ptr idx r) := taken_procs idx r
    rw [hs', ht]
    exact ⟨hprocs.proc, rfl, rfl, rfl⟩
  · intro i hi
    rw [hs', ht]
    simp only [Kernel.setSlot, Kernel.storeWord, Kernel.setPage, Kernel.freed, Kernel.taken,
      Kernel.setProc, Kernel.setRmap, update_of_ne hi]
  · rw [hself, hcnt]
  · rw [hself, hcnt]
    rfl
  · rw [hself, hcnt]
    simp only [update_self]
  · intro f hf hplain
    have htf : f ≠ ptr.table := by
      rintro rfl
      rw [htab] at hplain
      exact hplain trivial
    rw [hmem]
    exact (update_of_ne hf _ _).trans (update_of_ne htf _ _)
  · rw [hs', ht]
    rfl

/-! ### The invariant -/

theorem SwappedOut.inv (ho : SwappedOut own q d v ptr idx s s') (h : Inv mode own (attachOf s) s)
    (hu : Unshared s q d z v ptr) (hidx : idx < NSLOTS)
    (hfree : (s.swaparray idx).isFree = true) (hmode : mode.resident = false) :
    Inv mode (update own (frameOf (pteAt s ptr)) .free) (attachOf s) s' := by
  have hup := hu.upte h
  have hlt := h.frame_lt hup hu.present
  obtain ⟨huser, hS0⟩ := h.maps.user d v _ hup hu.present
  obtain ⟨hframe, hP, hS, -⟩ := swapWord_bits (nslots_lt hidx)
  obtain ⟨r, hr, hrmap⟩ := ho.rmap
  have hroles : SameMapRoles own (update own (frameOf (pteAt s ptr)) .free) :=
    sameMapRoles_update (by rw [huser]; exact id) id
  have hempty : mappers own s (frameOf (pteAt s ptr)) \ {ptr} = ∅ := by
    rw [Set.sdiff_eq_empty]
    exact fun x hx => (h.maps.exact _ hlt).eq_of_count_one hu.one hx
      (hup.mem_mappers hu.present hu.slot)
  have hother : ∀ n, n ≠ frameOf (pteAt s ptr) → s'.rmap n = s.rmap n := by
    intro n hn
    rw [hrmap, update_of_ne hn]
  have hself : s'.rmap (frameOf (pteAt s ptr)) = r := by rw [hrmap, update_self]
  have hpte : ∀ p e y u, attachOf s p = some (e, y) → u < UPAGES →
      pteOf s' e u = if e = d ∧ u = v then some (swapWord idx) else pteOf s e u :=
    fun p e y u hatt hlt => ho.store.pte e u (h.procs.dir p e y hatt) (upages_lt hlt)
  -- a slot in use is not the one that was free
  have hne : ∀ p e y u w, attachOf s p = some (e, y) → u < UPAGES → pteOf s e u = some w →
      isSwapped w = true → frameOf w ≠ idx := by
    rintro p e y u w hatt hlt hw hsw rfl
    have hbusy := (h.procs.slot p e y u w hatt hlt hw hsw).busy
    rw [hfree] at hbusy
    cases hbusy
  refine ⟨?_, h.tables.store hroles ho.store.table, ?_, ⟨?_, h.procs.inj, h.procs.size, ?_, ?_, ?_⟩,
    ?_, ho.procs.idle h, ?_, ?_⟩
  · exact h.frames.push (by rw [huser]; simp) (by rw [huser]; simp) ho.freelist
  · refine h.maps.unmap h.tables ho.store hroles hup hu.slot hu.present hP hlt ?_ hother
      (fun n hn => update_of_ne hn _ _) ?_
    · rw [hself, hempty]
      exact hr
    · rw [hempty, update_self]
      exact iff_of_false (by simp) Set.not_nonempty_empty
  · intro p e y hatt
    exact (hroles.dir e).2 (h.procs.dir p e y hatt)
  · intro p e y u hatt hlt
    have hupg : u < UPAGES := Tracked.upages h.procs ⟨p, y, hatt, hlt⟩
    rw [hpte p e y u hatt hupg]
    by_cases heq : e = d ∧ u = v
    · rw [if_pos heq]
      exact ⟨_, rfl, .inr (by rw [isSwapped, hP, hS]; rfl)⟩
    · rw [if_neg heq]
      exact h.procs.page p e y u hatt hlt
  · intro p e y u w hatt hlt hw hsw
    have hslotEq : pteSlot s' e u = pteSlot s e u := ho.store.slot (h.procs.dir p e y hatt)
    rw [hpte p e y u hatt hlt] at hw
    by_cases heq : e = d ∧ u = v
    · obtain ⟨rfl, rfl⟩ := heq
      rw [if_pos ⟨rfl, rfl⟩] at hw
      cases hw
      rw [← h.procs.inj p q _ _ _ hatt hu.attached] at ho
      refine ⟨?_, ?_, ?_, ?_, ?_, ?_, ?_⟩ <;> rw [hframe]
      · exact hidx
      · exact ho.busy
      · exact ho.cnt
      · rw [hslotEq, hu.slot, ho.pteId]
      · exact ho.procId
      · rw [ho.perm, has_P, getLsbD_PTE_FLAGS, ← has_P, hu.present]
        rfl
      · rw [ho.perm, has_S, getLsbD_PTE_FLAGS, ← has_S, hS0]
        rfl
    · rw [if_neg heq] at hw
      have hrec := h.procs.slot p e y u w hatt hlt hw hsw
      have hold := ho.other _ (hne p e y u w hatt hlt hw hsw)
      refine ⟨hrec.slot, ?_, ?_, ?_, ?_, ?_, ?_⟩ <;> rw [hold]
      · exact hrec.busy
      · exact hrec.cnt
      · rw [hslotEq]
        exact hrec.pte
      · exact hrec.proc
      · exact hrec.permP
      · exact hrec.permS
  · intro i hi hfi
    by_cases hii : i = idx
    · rw [hii, ho.busy] at hfi
      cases hfi
    · rw [ho.other i hii] at hfi ⊢
      exact h.procs.slotFree i hi hfi
  · intro hm n hn
    by_cases hnf : n = frameOf (pteAt s ptr)
    · rw [hnf, hself, hr.count_eq_zero.2 rfl]
      exact Nat.zero_le 1
    · rw [hother n hnf]
      exact h.unshared hm n hn
  · grind
  · intro hm
    have hexact := h.slots hm
    refine ⟨?_, ?_⟩
    · intro p e y u w hatt hlt hw hsw
      rw [hpte p e y u hatt hlt] at hw
      by_cases heq : e = d ∧ u = v
      · obtain ⟨rfl, rfl⟩ := heq
        obtain rfl := h.procs.inj p q _ _ _ hatt hu.attached
        rw [hu.attached] at hatt
        rw [← (Prod.mk.inj (Option.some.inj hatt)).2]
        exact hu.below
      · rw [if_neg heq] at hw
        exact hexact.tracked p e y u w hatt hlt hw hsw
    · intro i hi hbusy
      by_cases hii : i = idx
      · refine ⟨q, d, z, v, swapWord idx, hu.attached, hup.2.1, ?_, ?_, by rw [hframe, hii]⟩
        · rw [hpte q d z v hu.attached hup.2.1, if_pos ⟨rfl, rfl⟩]
        · rw [isSwapped, hP, hS]
          rfl
      · rw [ho.other i hii] at hbusy
        obtain ⟨p, e, y, u, w, hatt, hlt, hw, hsw, hi⟩ := hexact.used i hi hbusy
        refine ⟨p, e, y, u, w, hatt, hlt, ?_, hsw, hi⟩
        rw [hpte p e y u hatt hlt, if_neg, hw]
        -- the swapped-out entry is not the one that was present
        rintro ⟨rfl, rfl⟩
        rw [hup.2.2] at hw
        rw [← Option.some.inj hw, isSwapped_of_present hu.present] at hsw
        cases hsw

/-! ### What everybody sees -/

theorem drift_aged {V : Nat → Nat → Prop} (ha : Aged mode own s s') (hclean : Clean s)
    (h : Inv mode own (attachOf s) s) : Drift own (attachOf s) V s s' := by
  refine ⟨ha.rest.procs, fun e i t he ht => (ha.table e i he).trans ht, ?_,
    fun e u w he hu hw _ => ha.pte e u w he hu hw, fun _ _ _ _ _ _ => by rw [ha.rmap], ?_, ?_⟩
  · intro e u he _ hnone
    rw [pteOf_none_iff] at hnone
    exact .inl (pteOf_none_iff.2 ((ha.table e _ he).trans hnone))
  · intro e u he hu hvis
    obtain ⟨w, hw, hcase⟩ := hvis
    obtain ⟨w', hw', hsim⟩ := ha.pte e u w he (upages_lt hu) hw
    obtain ⟨x, hx⟩ := h.view_some ⟨w, hw, hcase⟩
    refine SameView.of_eq hx ?_
    rw [view, view, hw, hw', Option.bind_some, Option.bind_some, viewOf, viewOf, hsim.present]
    by_cases hp : has w PTE_P = true
    · have huser := (h.maps.user e u w ⟨he, hu, hw⟩ hp).1
      rw [if_pos hp, if_pos hp, hsim.frame, ha.mem hclean _ (by rw [huser]; exact id), has_U, has_U,
        hsim.bit (by decide)]
    · rw [Bool.not_eq_true] at hp
      rw [hsim.eq_of_absent hp, ha.rest.slots, slotPage_congr ha.rest.disk, hp]
      rfl
  · intro f hf
    refine ha.mem hclean f ?_
    rcases hf with hf | ⟨p, hf⟩ <;> rw [hf] <;> exact id

theorem Inv.written (h : Inv mode own att s) (frame b n : Nat) :
    Inv mode own att (s.written frame b n) :=
  h.congr (SameRoles.refl own) (sameMaps_of_mem rfl) rfl rfl (h.frames.congr rfl) h.idle

omit [KernelImage] in
theorem Unshared.written (h : Unshared s q d z v ptr) (frame b n : Nat) :
    Unshared (s.written frame b n) q d z v ptr :=
  ⟨h.attached, h.below, h.slot, h.present, h.one⟩

theorem SwappedOut.drift {V : Nat → Nat → Prop}
    (ho : SwappedOut own q d v ptr idx
      (s.written (frameOf (pteAt s ptr)) (slotBlock idx) 8) s')
    (h : Inv mode own (attachOf s) s) (hu : Unshared s q d z v ptr) (hidx : idx < NSLOTS)
    (hfree : (s.swaparray idx).isFree = true) (hV : V d v) :
    Drift own (attachOf s) V s s' := by
  have hup := hu.upte h
  have hevict : Evictable V s d v (pteAt s ptr) := ⟨hup.2.1, hu.present, hV, hu.one⟩
  have huser := (h.maps.user d v _ hup hu.present).1
  obtain ⟨hframe, hP, hS, -⟩ := swapWord_bits (nslots_lt hidx)
  obtain ⟨r, -, hrmap⟩ := ho.rmap
  have hpte : ∀ e u, own e = .dir → u < 2 ^ 20 →
      pteOf s' e u = if e = d ∧ u = v then some (swapWord idx) else pteOf s e u :=
    fun e u he hu' => ho.store.pte e u he hu'
  -- an entry that may not be evicted is another one, of another page
  have hother : ∀ e u w, pteOf s e u = some w → ¬ Evictable V s e u w → ¬ (e = d ∧ u = v) := by
    rintro e u w hw hnot ⟨rfl, rfl⟩
    rw [hup.2.2] at hw
    rw [← Option.some.inj hw] at hnot
    exact hnot hevict
  have hframes : ∀ e u w, Upte own s e u w → has w PTE_P = true → ¬ (e = d ∧ u = v) →
      frameOf w ≠ frameOf (pteAt s ptr) := fun e u w hw hp hne heq =>
    hne (h.sole_mapper hup hu.present hu.one hw hp heq)
  have hprocs : SameProcs s s' := ⟨ho.procs.proc, ho.procs.cur, ho.procs.nextpid, ho.procs.initproc⟩
  refine ⟨hprocs, fun e i t he ht => (ho.store.table e i he).trans ht, ?_, ?_, ?_, ?_, ?_⟩
  · intro e u he hu' hnone
    refine .inl ?_
    rw [hpte e u he hu', if_neg, hnone]
    rintro ⟨rfl, rfl⟩
    exact Option.some_ne_none _ (hup.2.2.symm.trans hnone)
  · grind [PteSim.refl]
  · intro e u w hw hp hnot
    have hne := hframes e u w hw hp (hother e u w hw.2.2 hnot)
    rw [hrmap]
    exact congrArg Rmap.refcount (update_of_ne hne _ _)
  · rintro e u he hu' ⟨w, hw, hcase⟩
    by_cases heq : e = d ∧ u = v
    · obtain ⟨rfl, rfl⟩ := heq
      refine ⟨s.mem (frameOf (pteAt s ptr)), slotPage s' idx, has (pteAt s ptr) PTE_U, ?_, ?_, ?_⟩
      · rw [view, hup.2.2, Option.bind_some, viewOf, if_pos hu.present]
      · have hbit : has (s'.swaparray idx).pagePerm PTE_U = has (pteAt s ptr) PTE_U := by
          rw [ho.perm, has_U, has_U, getLsbD_PTE_FLAGS]
          rfl
        rw [view, hpte e u he (upages_lt hu'), if_pos ⟨rfl, rfl⟩, Option.bind_some, viewOf, hP, hS,
          hframe, hbit]
        rfl
      · intro o hlt
        rw [slotPage_congr ho.disk]
        exact slotPage_written hlt
    · have hw' : pteOf s' e u = some w := by rw [hpte e u he (upages_lt hu'), if_neg heq, hw]
      by_cases hp : has w PTE_P = true
      · have hu1 : Upte own s e u w := ⟨he, hu', hw⟩
        have huser1 := (h.maps.user e u w hu1 hp).1
        have hmem : s'.mem (frameOf w) = s.mem (frameOf w) :=
          ho.mem _ (hframes e u w hu1 hp heq) (by rw [huser1]; exact id)
        refine SameView.of_eq (x := (s.mem (frameOf w), has w PTE_U)) ?_ ?_
        · rw [view, hw, Option.bind_some, viewOf, if_pos hp]
        · rw [view, view, hw, hw', Option.bind_some, Option.bind_some, viewOf, viewOf, if_pos hp,
            if_pos hp, hmem]
      · -- a page in another slot
        obtain ⟨p, y, hatt, hlt⟩ := hcase.resolve_left hp
        obtain ⟨w1, hw1, hcase1⟩ := h.procs.page p e y u hatt hlt
        obtain rfl : w1 = w := Option.some.inj (hw1.symm.trans hw)
        have hsw := hcase1.resolve_left hp
        have hrec := h.procs.slot p e y u w1 hatt hu' hw hsw
        have hne : frameOf w1 ≠ idx := by grind [hrec.busy]
        refine ⟨slotPage s (frameOf w1), slotPage s' (frameOf w1),
          has (s.swaparray (frameOf w1)).pagePerm PTE_U, ?_, ?_, ?_⟩
        · rw [view, hw, Option.bind_some, viewOf, if_neg hp, if_pos (swapped_flag hsw)]
        · rw [view, hw', Option.bind_some, viewOf, if_neg hp, if_pos (swapped_flag hsw),
            ho.other _ hne]
          rfl
        · intro o hlt'
          rw [slotPage_congr ho.disk]
          exact slotPage_written_ne hne (Nat.le_refl 8) hlt'
  · intro f hf
    refine ho.mem f ?_ ?_
    · rintro rfl
      rcases hf with hf | ⟨p, hf⟩ <;> rw [show frameOf (pteAt (s.written _ _ _) ptr) =
        frameOf (pteAt s ptr) from rfl, huser] at hf <;> cases hf
    · rcases hf with hf | ⟨p, hf⟩ <;> rw [hf] <;> exact id

/-! ### The whole eviction -/

/-- From `s` to `s'`: accessed bits were given up, the page of one entry of the process
    `q` went to a slot, and the slot was free before. -/
structure Evicted (mode : Mode) (own : Owners) (q d z v : Nat) (ptr : PtePtr) (idx : Nat)
    (s s₁ s' : Kernel) : Prop where
  aged : Aged mode own s s₁
  unshared : Unshared s₁ q d z v ptr
  lt : idx < NSLOTS
  free : (s₁.swaparray idx).isFree = true
  out : SwappedOut own q d v ptr idx
    (s₁.written (frameOf (pteAt s₁ ptr)) (slotBlock idx) 8) s'

/-- What the routine asks of the process table: the process chosen by resident size has
    an address space, and entries without one are not scanned. Otherwise the kernel may
    stop anywhere. -/
structure Tidy (E : Halt → Prop) (s : Kernel) : Prop where
  chosen : Clean s ∨ (selectVictimProcess s < NPROC ∧
    (s.proc (selectVictimProcess s)).state.live = true)
  scanned : Clean s ∨ (E .wild ∧ E (.panic .accesBit))
  hatched : Hatched s ∨ ∀ e, E e

omit [KernelImage] in
theorem Clean.tidy (h : Clean s) : Tidy E s where
  chosen := .inl h
  scanned := .inl h
  hatched := .inl fun p hp hst => h.2 p hp (by rw [hst]; rfl)

omit [KernelImage] in
theorem Victim.entry {p v : Nat} (h : Victim s p v ptr) :
    attachOf s p = some ((s.proc p).pgdir, (s.proc p).sz) :=
  attachOf_eq_some.2 ⟨h.lt, h.live, rfl, rfl⟩

/-- `find_new_page_after_swapping`, when the page it picks is not shared. It panics only
    if no slot is free, or if the chosen process is charged for no page or has none in
    memory. -/
theorem findNewPage_spec (h : Inv mode own (attachOf s) s) (ht : Tidy E s)
    (hone : ∀ ptr s1, selectAVictim s = .ok (some ptr, s1) →
      (s1.rmap (frameOf (pteAt s1 ptr))).refcount = 1)
    (hslot : (∃ i, i < NSLOTS ∧ (s.swaparray i).isFree = true) ∨ E (.panic .noSlot))
    (hpage : (PGSIZE ≤ (s.proc (selectVictimProcess s)).rss ∧
      ∃ d z v, attachOf s (selectVictimProcess s) = some (d, z) ∧ v * PGSIZE < z ∧
        PageIn s d v) ∨ E (.panic .pteZero)) :
    wp findNewPageAfterSwapping s (fun _ s' => ∃ d z v ptr idx s1,
      selectAVictim s = .ok (some ptr, s1) ∧
      Evicted mode own (selectVictimProcess s) d z v ptr idx s s1 s') E := by
  unfold findNewPageAfterSwapping beginEviction
  rw [wp_bind, wp_bind]
  refine wp_conseq_ok (selectAVictim_spec h ht.chosen ht.scanned) ?_
  rintro r s1 hsel ⟨ha, hsome, hnone⟩
  rw [wp_bind, wp_get]
  cases hfirst : firstSlot NSLOTS fun i => (s1.swaparray i).isFree with
  | none =>
    refine hslot.resolve_left ?_
    rintro ⟨i, hi, hfree⟩
    have hbusy := firstSlot_none hfirst hi
    rw [ha.rest.slots, hfree] at hbusy
    cases hbusy
  | some idx =>
    obtain ⟨hidx, hfree⟩ := firstSlot_some hfirst
    cases r with
    | none =>
      refine hpage.resolve_left ?_
      rintro ⟨hrss, d, z, v, hatt, hv, hin⟩
      rcases hnone rfl with hlow | hall
      · omega
      · exact hall d z v hatt hv hin
    | some ptr =>
      obtain ⟨-, v, hvic⟩ := hsome ptr rfl
      have hu : Unshared s1 (selectVictimProcess s) _ _ v ptr :=
        ⟨hvic.entry, hvic.below, hvic.found.slot, hvic.found.present, hone ptr s1 hsel⟩
      have hh : Hatched s1 ∨ ∀ e, E e := by
        refine ht.hatched.imp (fun hh p hp hst => ?_) id
        rw [ha.rest.procs.sz]
        exact hh p hp ((ha.rest.procs.state p).symm.trans hst)
      simp only [wp_bind, wp_loadPte, wp_pure]
      refine wp_writePag ?_
      refine wp_conseq (finishEviction_spec (s := s1.written _ _ 8) (ha.next.written _ _ 8) hh
        (hu.written _ _ 8) hidx hfree _) fun _ s' ho => ?_
      exact ⟨_, _, v, ptr, idx, s1, hsel, ha, hu, hidx, hfree, ho⟩

theorem Evicted.inv {s1 : Kernel} (he : Evicted mode own q d z v ptr idx s s1 s')
    (hmode : mode.resident = false) :
    Inv mode (update own (frameOf (pteAt s1 ptr)) .free) (attachOf s) s' := by
  have hu := he.unshared
  have hinv := he.out.inv (he.aged.next.written _ _ _) (hu.written _ _ 8) he.lt he.free hmode
  rw [← he.aged.rest.procs.attach]
  exact hinv

/-- Where nothing stale is left in the process table and the page it picks is not shared,
    the kernel's own routine keeps the contract of an eviction; with `keep`, where it does
    not pick from the current process. -/
theorem findNewPage_keeps (h : Inv mode own (attachOf s) s) (hempty : s.freelist = [])
    (hres : mode.resident = false) (hclean : Clean s)
    (hone : ∀ ptr s1, selectAVictim s = .ok (some ptr, s1) →
      (s1.rmap (frameOf (pteAt s1 ptr))).refcount = 1)
    (hslot : (∃ i, i < NSLOTS ∧ (s.swaparray i).isFree = true) ∨ E (.panic .noSlot))
    (hpage : (PGSIZE ≤ (s.proc (selectVictimProcess s)).rss ∧
      ∃ d z v, attachOf s (selectVictimProcess s) = some (d, z) ∧ v * PGSIZE < z ∧
        PageIn s d v) ∨ E (.panic .pteZero))
    (hkeep : keep = true → (s.proc (selectVictimProcess s)).pgdir ≠ (s.proc s.cur).pgdir) :
    wp findNewPageAfterSwapping s (fun _ s' => ∃ f, own f = .user ∧ s'.freelist = [f] ∧
      Inv mode (update own f .free) (attachOf s) s' ∧
      Drift own (attachOf s) (Victims keep s) s s' ∧ SameTables own s s') E := by
  refine wp_conseq (findNewPage_spec h hclean.tidy hone hslot hpage) ?_
  rintro - s' ⟨d, z, v, ptr, idx, s1, -, he⟩
  have hu := he.unshared
  have hup := hu.upte he.aged.next
  have hatt : attachOf s (selectVictimProcess s) = some (d, z) := by
    rw [← he.aged.rest.procs.attach]
    exact hu.attached
  have hpg : (s.proc (selectVictimProcess s)).pgdir = d := (attachOf_eq_some.1 hatt).2.2.1
  refine ⟨frameOf (pteAt s1 ptr), (he.aged.inv.maps.user d v _ hup hu.present).1, ?_, he.inv hres,
    ?_, ?_⟩
  · rw [he.out.freelist, ← hempty, ← he.aged.rest.freelist]
    rfl
  · refine (drift_aged he.aged hclean h).trans (fun _ _ hV => hV.1) (fun _ _ _ => rfl) ?_
    rw [← he.aged.rest.procs.attach]
    refine he.out.drift he.aged.next hu he.lt he.free ⟨⟨_, z, hatt, hu.below⟩, fun hk => ?_⟩
    rw [← hpg]
    exact hkeep hk
  · intro e i he'
    exact (he.out.store.table e i he').trans (he.aged.table e i he')

end CowPaging
