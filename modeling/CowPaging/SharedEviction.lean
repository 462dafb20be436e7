import CowPaging.DemandPaging

/-!
# Evicting a shared page

`find_new_page_after_swapping` looks for the sharers of its victim by comparing whole
entries, counts them, and then rewrites the victim's entry only. If the page has other
sharers, their entries still map it when it is on the free list. So the sharers are
updated exactly when there is one.
-/

namespace CowPaging

open Bytes StateExcept SlotTable
open Function (update_of_ne update_self update_idem update)

/-- After the page `frame` went to slot `idx`: nobody maps it, every entry that did names
    the slot, the record of the slot lists these entries with their owners, and the page
    is free. -/
structure SharersUpdated (s s' : Kernel) (frame idx : Nat) : Prop where
  unmapped : userPtes s' frame = ∅
  rewritten : ∀ ptr ∈ userPtes s frame, pteAt s' ptr = swapWord idx
  count : (s'.swaparray idx).cnt = (userPtes s frame).ncard
  complete : ∀ ptr ∈ userPtes s frame, ∃ i, i < (s'.swaparray idx).cnt ∧
    (s'.swaparray idx).pteId i = ptr
  owners : ∀ i, i < (s'.swaparray idx).cnt → (s'.swaparray idx).pteId i ∈ userPtes s frame ∧
    (s'.swaparray idx).procId i < NPROC ∧
    (s.proc ((s'.swaparray idx).procId i)).state.live = true ∧
    ∃ v, v < UPAGES ∧ pteSlot s (s.proc ((s'.swaparray idx).procId i)).pgdir v =
      some ((s'.swaparray idx).pteId i)
  refcount : (s'.rmap frame).refcount = 0
  freed : frame ∈ s'.freelist

/-- Pages may be shared and swapped out. -/
def Mode.shared : Mode := ⟨false, false, false, none⟩

section

variable [KernelImage] {mode : Mode} {own : Owners} {s s₁ s' : Kernel} {d v z q idx : Nat}
  {ptr : PtePtr}

theorem Inv.shared {att : Attach} (h : Inv mode own att s) : Inv Mode.shared own att s :=
  ⟨h.frames, h.tables, h.maps, h.procs, fun hm => Bool.noConfusion hm,
    fun hm => Bool.noConfusion hm, fun hm => Bool.noConfusion hm, fun hm => Bool.noConfusion hm⟩

/-! ### The victim before and after the accessed bits were given up -/

/-- Page `v` of the directory `d` has the entry `ptr`, which `select_a_victim` returns in
    the state `s₁`. -/
structure Chosen (mode : Mode) (own : Owners) (s s₁ : Kernel) (ptr : PtePtr) (d v : Nat) :
    Prop where
  aged : Aged mode own s s₁
  upte : Upte own s d v (pteAt s ptr)
  slot : pteSlot s d v = some ptr
  present : has (pteAt s ptr) PTE_P = true
  sim : PteSim (pteAt s₁ ptr) (pteAt s ptr)

theorem selectAVictim_chosen (h : Inv mode own (attachOf s) s)
    (hlive : selectVictimProcess s < NPROC ∧ (s.proc (selectVictimProcess s)).state.live = true)
    (hsel : selectAVictim s = .ok (some ptr, s₁)) :
    ∃ v, v * PGSIZE < (s.proc (selectVictimProcess s)).sz ∧
      Chosen mode own s s₁ ptr (s.proc (selectVictimProcess s)).pgdir v := by
  obtain ⟨ha, hsome, -⟩ := wp_ok (selectAVictim_spec (E := fun _ => True) h (.inr hlive)
    (.inr ⟨trivial, trivial⟩)) hsel
  obtain ⟨-, v, hvic⟩ := hsome ptr rfl
  have htr : Tracked (attachOf s₁) (s₁.proc (selectVictimProcess s)).pgdir v :=
    ⟨_, _, hvic.entry, hvic.below⟩
  have hd := htr.dir ha.next.procs
  have hv := htr.upages ha.next.procs
  have hslot := (ha.slot hd).symm.trans hvic.found.slot
  obtain ⟨w', hw', hsim⟩ := ha.pte _ v _ hd (upages_lt hv) (pteOf_of_slot hslot)
  rw [pteOf_of_slot hvic.found.slot] at hw'
  rw [← Option.some.inj hw'] at hsim
  rw [ha.rest.procs.pgdir] at hd hslot
  refine ⟨v, ?_, ha, ⟨hd, hv, pteOf_of_slot hslot⟩, hslot, ?_, hsim⟩
  · rw [← ha.rest.procs.sz]
    exact hvic.below
  · rw [← hsim.present, hvic.found.present]

theorem Chosen.slot_after (hc : Chosen mode own s s₁ ptr d v) : pteSlot s₁ d v = some ptr :=
  (hc.aged.slot hc.upte.1).trans hc.slot

/-! ### One sharer -/

theorem Evicted.procs (he : Evicted mode own q d z v ptr idx s s₁ s') : SameProcs s s' := by
  have hout := he.out.procs
  exact he.aged.rest.procs.trans ⟨hout.proc, hout.cur, hout.nextpid, hout.initproc⟩

theorem Evicted.frame (he : Evicted mode own q d z v ptr idx s s₁ s') :
    Unshared s q d z v ptr ∧ frameOf (pteAt s₁ ptr) = frameOf (pteAt s ptr) := by
  have hu := he.unshared
  have hd := (hu.upte he.aged.next).1
  have hslot : pteSlot s d v = some ptr := (he.aged.slot hd).symm.trans hu.slot
  have hv := (hu.upte he.aged.next).2.1
  obtain ⟨w', hw', hsim⟩ := he.aged.pte d v _ hd (upages_lt hv) (pteOf_of_slot hslot)
  rw [pteOf_of_slot hu.slot] at hw'
  have hword := Option.some.inj hw'
  have hframe : frameOf (pteAt s₁ ptr) = frameOf (pteAt s ptr) := by rw [hword, hsim.frame]
  refine ⟨⟨?_, hu.below, hslot, ?_, ?_⟩, hframe⟩
  · rw [← he.aged.rest.procs.attach]
    exact hu.attached
  · rw [← hsim.present, ← hword]
    exact hu.present
  · rw [← hframe, ← he.aged.rmap]
    exact hu.one

theorem Evicted.sharersUpdated (he : Evicted mode own q d z v ptr idx s s₁ s')
    (h : Inv mode own (attachOf s) s) (hatt : Attached own s) (hmode : mode.resident = false) :
    SharersUpdated s s' (frameOf (pteAt s ptr)) idx := by
  obtain ⟨hu, hframe⟩ := he.frame
  have hup := hu.upte h
  have hlt := h.frame_lt hup hu.present
  have hmem := hup.mem_mappers hu.present hu.slot
  have hptr : userPtes s (frameOf (pteAt s ptr)) = {ptr} := by
    rw [← h.mappers_eq hatt]
    refine Set.eq_singleton_iff_unique_mem.2 ⟨hmem, fun x hx => ?_⟩
    exact (h.maps.exact _ hlt).eq_of_count_one hu.one hx hmem
  have hinv := he.inv hmode
  rw [hframe, ← he.procs.attach] at hinv
  have hatt' : Attached (update own (frameOf (pteAt s ptr)) .free) s' := by
    intro e hdir
    rw [he.procs.attach]
    by_cases hef : e = frameOf (pteAt s ptr)
    · grind
    · rw [update_of_ne hef] at hdir
      exact hatt e hdir
  have hslot' : pteSlot s' d v = some ptr := by
    rw [he.out.store.slot hup.1]
    exact (he.aged.slot hup.1).trans hu.slot
  have hword : pteAt s' ptr = swapWord idx := by
    have hpte := he.out.store.pte d v hup.1 (upages_lt hup.2.1)
    rw [if_pos ⟨rfl, rfl⟩, pteOf_of_slot hslot'] at hpte
    exact Option.some.inj hpte
  obtain ⟨r, hr, hrmap⟩ := he.out.rmap
  obtain ⟨hq, hlive, hpg, -⟩ := attachOf_eq_some.1 hu.attached
  refine ⟨?_, ?_, ?_, ?_, ?_, ?_, ?_⟩
  · rw [← hinv.mappers_eq hatt']
    exact hinv.maps.mappers_eq_empty (by rw [update_self]; simp)
  · grind
  · rw [he.out.cnt, hptr, Set.ncard_singleton]
  · intro x hx
    rw [hptr, Set.mem_singleton_iff] at hx
    exact ⟨0, by rw [he.out.cnt]; decide, by rw [he.out.pteId, hx]⟩
  · intro i hi
    rw [he.out.cnt, Nat.lt_one_iff] at hi
    rw [hi, he.out.pteId, he.out.procId, hptr, hpg]
    exact ⟨rfl, hq, hlive, v, hup.2.1, hu.slot⟩
  · rw [hrmap, ← hframe]
    have hself : update s₁.rmap (frameOf (pteAt s₁ ptr)) r (frameOf (pteAt s₁ ptr)) = r :=
      update_self _ _ _
    exact (congrArg Rmap.refcount hself).trans (hr.count_eq_zero.2 rfl)
  · rw [he.out.freelist, ← hframe]
    exact List.mem_cons_self

/-! ### More sharers -/

/-- What `find_new_page_after_swapping` does to memory, whoever else maps the page: the
    victim's entry and the page itself are written, and nothing else; and the page is
    free, filled with the junk of `kfree`. -/
theorem findNewPage_mem :
    wp findNewPageAfterSwapping s (fun _ s' => ∃ ptr s₁ w,
      selectAVictim s = .ok (some ptr, s₁) ∧
      (∀ p, (s'.proc p).state = (s₁.proc p).state ∧ (s'.proc p).pgdir = (s₁.proc p).pgdir) ∧
      s'.freelist = frameOf (pteAt s₁ ptr) :: s₁.freelist ∧
      (ptr.table ≠ frameOf (pteAt s₁ ptr) →
        ∀ o, 4 ≤ o → s'.mem (frameOf (pteAt s₁ ptr)) o = 1) ∧
      ∀ f, f ≠ frameOf (pteAt s₁ ptr) →
        s'.mem f = (s₁.storeWord ptr.table ptr.index w).mem f) fun _ => True := by
  unfold findNewPageAfterSwapping beginEviction
  rw [wp_bind, wp_bind]
  refine wp_conseq_ok (wp_trivial _) fun r s₁ hsel _ => ?_
  rw [wp_bind, wp_get]
  cases firstSlot NSLOTS fun i => (s₁.swaparray i).isFree with
  | none => exact trivial
  | some idx =>
    cases r with
    | none => exact trivial
    | some ptr =>
      simp only [wp_bind, wp_loadPte, wp_pure]
      refine wp_writePag ?_
      unfold finishEviction
      rw [wp_bind]
      refine wp_conseq (leaves_makeOther
        (g := fun s => (s.mem, s.freelist, fun p => ((s.proc p).state, (s.proc p).pgdir)))
        ptr idx ?_
        (fun _ _ _ => rfl) (fun _ _ _ => rfl) _) ?_
      · intro s p
        have hrss := sameProcs_setRss s p
          (f := fun pr => { pr with rss := (pr.rss + (2 ^ 32 - PGSIZE)) % 2 ^ 32 }) fun _ => rfl
        exact congrArg (fun x => (s.mem, s.freelist, x))
          (funext fun q => by rw [hrss.state, hrss.pgdir])
      rintro - s2 ⟨-, hkeep⟩
      obtain ⟨hmem, hlist⟩ := Prod.mk.inj hkeep
      obtain ⟨hfree, hprocs⟩ := Prod.mk.inj hlist
      simp only [wp_bind, wp_loadPte, wp_modify, kfree]
      refine wp_ite (fun _ => trivial) fun _ => ?_
      simp only [wp_modify, wp_storePte, pteAt_storeWord_self]
      have hmem1 : s2.mem = s₁.mem := hmem
      have hword : pteAt s2 ptr = pteAt s₁ ptr := by rw [pteAt, pteAt, hmem1]
      refine ⟨ptr, s₁, (frameAddr idx ||| PTE_S) &&& ~~~PTE_A, hsel,
        fun p => Prod.mk.inj (congrFun hprocs p), ?_, fun hne o ho => ?_, fun f hf => ?_⟩
      · simp only [Kernel.setSlot, Kernel.storeWord, Kernel.setPage]
        exact congrArg₂ List.cons (congrArg frameOf hword) hfree
      · simp only [Kernel.setSlot, Kernel.storeWord, Kernel.setPage, hword,
          update_self, update_idem, update_of_ne (Ne.symm hne)]
        exact if_neg (by omega)
      simp only [Kernel.setSlot, Kernel.storeWord, Kernel.setPage, hword, hmem1,
        update_self, update_idem, stw_stw]
      by_cases hft : f = ptr.table
      · subst hft
        rw [update_self, update_self, update_of_ne hf]
      · rw [update_of_ne hft, update_of_ne hft, update_of_ne hf]

theorem Chosen.others_stay {x : PtePtr} (hc : Chosen mode own s s₁ ptr d v)
    (h : Inv mode own (attachOf s) s) (hatt : Attached own s)
    (hsel : selectAVictim s = .ok (some ptr, s₁))
    (hok : findNewPageAfterSwapping s = .ok ((), s'))
    (hx : x ∈ userPtes s (frameOf (pteAt s ptr))) (hne : x ≠ ptr) :
    x ∈ userPtes s' (frameOf (pteAt s ptr)) := by
  obtain ⟨ptr', s₁', w, hsel', hprocs, -, -, hmem⟩ := wp_ok findNewPage_mem hok
  obtain ⟨hptr, rfl⟩ := Prod.mk.inj (Except.ok.inj (hsel.symm.trans hsel'))
  cases hptr
  have hup := hc.upte
  have huser := (h.maps.user d v _ hup hc.present).1
  have hst : PteStore own d v w s₁ s' := by
    refine pteStore_of_mem hc.aged.next.tables hup.1 (upages_lt hup.2.1) hc.slot_after
      fun f hf => hmem f ?_
    rintro rfl
    rw [hc.sim.frame, huser] at hf
    exact hf
  obtain ⟨p, u, hp, hlive, hu, hslot, hpres, hfr⟩ := hx
  have hd := (h.dir_iff hatt).2 ⟨p, hp, hlive, rfl⟩
  obtain ⟨w', hw', hsim⟩ := hc.aged.pte _ u _ hd (upages_lt hu) (pteOf_of_slot hslot)
  have hslot' : pteSlot s' (s.proc p).pgdir u = some x :=
    (hst.slot hd).trans ((hc.aged.slot hd).trans hslot)
  have hother : ¬ ((s.proc p).pgdir = d ∧ u = v) := by grind [hc.slot]
  have hword : pteAt s' x = w' := by
    have hpte := hst.pte _ u hd (upages_lt hu)
    rw [if_neg hother, hw', pteOf_of_slot hslot'] at hpte
    exact Option.some.inj hpte
  have hpg : (s'.proc p).pgdir = (s.proc p).pgdir := by
    rw [(hprocs p).2, hc.aged.rest.procs.pgdir]
  refine ⟨p, u, hp, ?_, hu, ?_, ?_, ?_⟩
  · rw [(hprocs p).1, hc.aged.rest.procs.state, hlive]
  · rw [hpg, hslot']
  · rw [hword, hsim.present, hpres]
  · rw [hword, hsim.frame, hfr]

/-- Swapping out updates every sharer exactly when there is one. This is about every state
    with an exact reverse map, whatever the accessed and dirty bits are, in which the
    process chosen by resident size has an address space and the eviction returns. -/
theorem swap_out_updates_sharers_iff {own : Owners} {s s₁ s' : Kernel} {ptr : PtePtr}
    (h : Inv Mode.shared own (attachOf s) s) (hatt : Attached own s)
    (hlive : selectVictimProcess s < NPROC ∧ (s.proc (selectVictimProcess s)).state.live = true)
    (hsel : selectAVictim s = .ok (some ptr, s₁))
    (hok : findNewPageAfterSwapping s = .ok ((), s')) :
    (∃ idx, idx < NSLOTS ∧ SharersUpdated s s' (frameOf (pteAt s ptr)) idx) ↔
      (s.rmap (frameOf (pteAt s ptr))).refcount = 1 := by
  obtain ⟨v, -, hc⟩ := selectAVictim_chosen h hlive hsel
  have hlist := h.maps.exact _ (h.frame_lt hc.upte hc.present)
  have hmem := hc.upte.mem_mappers hc.present hc.slot
  rw [h.mappers_eq hatt] at hlist hmem
  constructor
  · rintro ⟨idx, -, hup⟩
    refine hlist.count_one_of_subsingleton hmem fun x hx => ?_
    by_contra hne
    have hstays := hc.others_stay h hatt hsel hok hx hne
    rw [hup.unmapped] at hstays
    exact hstays
  · intro hone
    have hspec := findNewPage_spec (E := fun _ => True) h
      ⟨.inr hlive, .inr ⟨trivial, trivial⟩, .inr fun _ => trivial⟩ (fun ptr' s₁' hsel' => ?_)
      (.inr trivial) (.inr trivial)
    · obtain ⟨d, z, v, ptr', idx, s₁', hsel', he⟩ := wp_ok hspec hok
      obtain ⟨hptr, rfl⟩ := Prod.mk.inj (Except.ok.inj (hsel.symm.trans hsel'))
      cases hptr
      exact ⟨idx, he.lt, he.sharersUpdated h hatt rfl⟩
    · obtain ⟨hptr, rfl⟩ := Prod.mk.inj (Except.ok.inj (hsel.symm.trans hsel'))
      cases hptr
      rw [hc.sim.frame, hc.aged.rmap, hone]

/-! ### A state with one sharer -/

omit [KernelImage] in
theorem selectVictimProcess_of_max {p : Nat} (hp : p < NPROC)
    (hmax : ∀ q, q ≠ p → (s.proc q).rss < (s.proc p).rss) : selectVictimProcess s = p := by
  have hstep : ∀ q, betterVictim s p q = p := by
    intro q
    by_cases hq : q = p
    · subst hq
      simp [betterVictim]
    · grind [betterVictim]
  have hfold : ∀ (l : List Nat) (best : Nat), best = p ∨ p ∈ l →
      l.foldl (betterVictim s) best = p := by
    intro l
    induction l with
    | nil => exact fun best hb => hb.resolve_right (List.not_mem_nil)
    | cons q l ih =>
      intro best hb
      refine ih _ ?_
      by_cases hbest : best = p
      · subst hbest
        exact .inl (hstep q)
      · grind [betterVictim]
  exact hfold _ _ (.inr (List.mem_range.2 hp))

theorem boot_evicts (hmem : 12 + 1 + 23 ≤ NFRAMES - KernelImage.endPage) :
    ∃ own s s₁ s' ptr, Inv Mode.shared own (attachOf s) s ∧ Attached own s ∧
      (selectVictimProcess s < NPROC ∧ (s.proc (selectVictimProcess s)).state.live = true) ∧
      selectAVictim s = .ok (some ptr, s₁) ∧ findNewPageAfterSwapping s = .ok ((), s') := by
  obtain ⟨s0, _, hboot, -⟩ := sample_run hmem
  obtain ⟨own, halone⟩ := boot_alone hboot
  obtain ⟨_, href⟩ := refines_of_boot hboot
  have hfirst := boot_first hboot
  obtain ⟨hstate, -, -⟩ := first_page_present hboot
  have hsize : (s0.proc 0).sz = PGSIZE := by
    rw [← href.seesAs.size 0 (by decide) (by rw [hstate]; rfl)]
    rfl
  obtain ⟨s, hs⟩ : ∃ s, s = ({ s0 with cur := 0 } : Kernel).setProc 0 fun pr =>
    { pr with rss := PGSIZE } := ⟨_, rfl⟩
  have hinv : Inv Mode.alone own (attachOf { s0 with cur := 0 }) s := by
    rw [hs]
    exact halone.inv.setRss 0 fun _ => rfl
  have hprocs : SameProcs { s0 with cur := 0 } s := by
    rw [hs]
    exact sameProcs_setRss _ 0 fun _ => rfl
  rw [← hprocs.attach] at hinv
  have hclean := hinv.idle rfl
  have hrss : ∀ q, (s.proc q).rss = if q = 0 then PGSIZE else 0 := by
    intro q
    rw [hs]
    by_cases hq : q = 0
    · subst hq
      simp only [Kernel.setProc, update_self, if_true]
    · simp only [Kernel.setProc, update_of_ne hq, if_neg hq]
      exact congrArg Proc.rss (hfirst.others q hq)
  have hsel : selectVictimProcess s = 0 := by
    refine selectVictimProcess_of_max (by decide) fun q hq => ?_
    rw [hrss, hrss, if_neg hq, if_pos rfl]
    decide
  have hlive : (s.proc 0).state.live = true := by
    rw [hprocs.state]
    exact congrArg ProcState.live hstate
  have hatt : attachOf s 0 = some ((s0.proc 0).pgdir, PGSIZE) := by
    rw [hprocs.attach]
    exact attachOf_eq_some.2 ⟨by decide, congrArg ProcState.live hstate, rfl, hsize⟩
  have hfree : ∀ i, i < NSLOTS → (s.swaparray i).isFree = true := by
    rw [hs]
    exact href.kinv.inv.resident rfl
  have hin : PageIn s (s0.proc 0).pgdir 0 := by
    obtain ⟨w, hw, hp | hsw⟩ := hinv.procs.page 0 _ _ 0 hatt (by decide)
    · obtain ⟨ptr, hptr, rfl⟩ := pteOf_eq_some.1 hw
      exact ⟨ptr, hptr, hp⟩
    · have hrec := hinv.procs.slot 0 _ _ 0 w hatt (by decide) hw hsw
      exact Bool.noConfusion ((hfree _ hrec.slot).symm.trans hrec.busy)
  have hone : ∀ ptr s₁, selectAVictim s = .ok (some ptr, s₁) →
      (s₁.rmap (frameOf (pteAt s₁ ptr))).refcount = 1 := by
    intro ptr s₁ hvic
    obtain ⟨v, -, hc⟩ := selectAVictim_chosen hinv
      (by rw [hsel]; exact ⟨by decide, hlive⟩) hvic
    have hlt := hinv.frame_lt hc.upte hc.present
    have hpos := (hinv.maps.exact _ hlt).count_pos (hc.upte.mem_mappers hc.present hc.slot)
    have hle := hinv.unshared rfl _ hlt
    rw [hc.sim.frame, hc.aged.rmap]
    omega
  have hspec := findNewPage_spec (E := fun _ => False) hinv hclean.tidy hone
    (.inl ⟨0, by decide, hfree 0 (by decide)⟩)
    (.inl ⟨by rw [hsel, hrss, if_pos rfl], _, _, 0, by rw [hsel]; exact hatt, by decide, hin⟩)
  obtain ⟨_, s', hok, d, z, v, ptr, idx, s₁, hvic, -⟩ := exists_ok_of_wp hspec
  refine ⟨own, s, s₁, s', ptr, hinv.shared, ?_, ?_, hvic, hok⟩
  · intro d hd
    rw [hprocs.attach]
    exact halone.attached d hd
  · rw [hsel]
    exact ⟨by decide, hlive⟩

end

theorem swap_out_updates_sharers_iff_sample : letI := KernelImage.sample
    ∃ s s' ptr s₁, selectAVictim s = .ok (some ptr, s₁) ∧
      findNewPageAfterSwapping s = .ok ((), s') ∧
      ((∃ idx, idx < NSLOTS ∧ SharersUpdated s s' (frameOf (pteAt s ptr)) idx) ↔
        (s.rmap (frameOf (pteAt s ptr))).refcount = 1) := by
  let _ := KernelImage.sample
  obtain ⟨own, s, s₁, s', ptr, hinv, hatt, hlive, hsel, hok⟩ := boot_evicts (by decide)
  exact ⟨s, s', ptr, s₁, hsel, hok, swap_out_updates_sharers_iff hinv hatt hlive hsel hok⟩

/-! ### A state with two sharers -/

/-- Processes 0 and 1 share the page 510, as after a `fork`. -/
def twoSharers : Kernel where
  mem := fun f =>
    if f = 500 then stw (fun _ => 0) 0 (frameAddr 501 ||| PTE_P ||| PTE_W ||| PTE_U)
    else if f = 501 then stw (fun _ => 0) 0 (frameAddr 510 ||| PTE_P ||| PTE_U)
    else if f = 502 then stw (fun _ => 0) 0 (frameAddr 503 ||| PTE_P ||| PTE_W ||| PTE_U)
    else if f = 503 then stw (fun _ => 0) 0 (frameAddr 510 ||| PTE_P ||| PTE_U)
    else fun _ => 0
  freelist := []
  numFreePages := 0
  rmap := fun n =>
    if n = 510 then ⟨2, fun i => if i = 0 then ⟨501, 0⟩ else ⟨503, 0⟩, fun i => decide (i < 2)⟩
    else ⟨0, fun _ => ⟨0, 0⟩, fun _ => false⟩
  swaparray := fun _ => ⟨0, true, fun _ => ⟨0, 0⟩, fun _ => 0, 0⟩
  disk := fun _ _ => 0
  proc := fun p =>
    if p = 0 then ⟨PGSIZE, 0, 500, 0, .running, 1, none, false⟩
    else if p = 1 then ⟨PGSIZE, PGSIZE, 502, 0, .runnable, 2, some 0, false⟩
    else ⟨0, 0, 0, 0, .unused, 0, none, false⟩
  nextpid := 3
  initproc := some 0
  cur := 0

theorem ldw_single (w : Word) (i : Nat) :
    ldw (stw (fun _ => 0) 0 w) i = if i = 0 then w else 0 := by
  rw [ldw_stw, ldw_zero]

theorem single_entry {s : Kernel} {d t v : Nat} {ptr : PtePtr} (pde w : Word)
    (hd : s.mem d = stw (fun _ => 0) 0 pde) (ht : s.mem t = stw (fun _ => 0) 0 w)
    (hpde : has pde PTE_P = true ∧ frameOf pde = t) (hw : has w PTE_P = true) :
    (pteSlot s d v = some ptr ∧ has (pteAt s ptr) PTE_P = true) ↔ v = 0 ∧ ptr = ⟨t, 0⟩ := by
  have htab : ∀ i, tableOf s d i = if i = 0 then some t else none := by
    intro i
    rw [tableOf, hd, ldw_single]
    by_cases hi : i = 0
    · rw [if_pos hi, if_pos hi, if_pos hpde.1, hpde.2]
    · rw [if_neg hi, if_neg hi]
      rfl
  rw [pteSlot_eq_some, htab]
  constructor
  · rintro ⟨⟨htable, hidx⟩, hp⟩
    by_cases hv : v / 1024 = 0
    · rw [if_pos hv] at htable
      have hpt : ptr.table = t := (Option.some.inj htable).symm
      rw [pteAt, hpt, ht, ldw_single] at hp
      by_cases hi : ptr.index = 0
      · refine ⟨by omega, ?_⟩
        cases ptr
        simp only [PtePtr.mk.injEq]
        exact ⟨hpt, hi⟩
      · rw [if_neg hi] at hp
        simp at hp
    · grind
  · rintro ⟨rfl, rfl⟩
    refine ⟨⟨rfl, rfl⟩, ?_⟩
    rw [pteAt, ht, ldw_single]
    exact hw

theorem twoSharers_entry {p v : Nat} {ptr : PtePtr} :
    ((twoSharers.proc p).state.live = true ∧ pteSlot twoSharers (twoSharers.proc p).pgdir v =
      some ptr ∧ has (pteAt twoSharers ptr) PTE_P = true) ↔
      v = 0 ∧ ((p = 0 ∧ ptr = ⟨501, 0⟩) ∨ (p = 1 ∧ ptr = ⟨503, 0⟩)) := by
  have hfirst : (pteSlot twoSharers 500 v = some ptr ∧
      has (pteAt twoSharers ptr) PTE_P = true) ↔ v = 0 ∧ ptr = ⟨501, 0⟩ :=
    single_entry (frameAddr 501 ||| PTE_P ||| PTE_W ||| PTE_U) (frameAddr 510 ||| PTE_P ||| PTE_U)
      rfl rfl (by decide) (by decide)
  have hsecond : (pteSlot twoSharers 502 v = some ptr ∧
      has (pteAt twoSharers ptr) PTE_P = true) ↔ v = 0 ∧ ptr = ⟨503, 0⟩ :=
    single_entry (frameAddr 503 ||| PTE_P ||| PTE_W ||| PTE_U) (frameAddr 510 ||| PTE_P ||| PTE_U)
      rfl rfl (by decide) (by decide)
  by_cases h0 : p = 0
  · subst h0
    have hlive : (twoSharers.proc 0).state.live = true := rfl
    simp only [hlive, true_and, false_and, or_false, zero_ne_one]
    exact hfirst
  · by_cases h1 : p = 1
    · subst h1
      have hlive : (twoSharers.proc 1).state.live = true := rfl
      simp only [hlive, true_and, false_and, false_or, one_ne_zero]
      exact hsecond
    · have hidle : (twoSharers.proc p).state.live = false := by
        simp only [twoSharers, if_neg h0, if_neg h1]
        rfl
      simp only [hidle, h0, h1, Bool.false_eq_true, false_and, or_self, and_false]

theorem twoSharers_userPtes (n : Nat) :
    userPtes twoSharers n = if n = 510 then {⟨501, 0⟩, ⟨503, 0⟩} else ∅ := by
  have hframe : frameOf (pteAt twoSharers ⟨501, 0⟩) = 510 ∧
      frameOf (pteAt twoSharers ⟨503, 0⟩) = 510 := by decide +kernel
  ext ptr
  constructor
  · rintro ⟨p, v, -, hlive, -, hslot, hp, rfl⟩
    obtain ⟨-, ⟨-, rfl⟩ | ⟨-, rfl⟩⟩ := twoSharers_entry.1 ⟨hlive, hslot, hp⟩
    · rw [hframe.1]
      exact .inl rfl
    · rw [hframe.2]
      exact .inr rfl
  · intro hptr
    by_cases hn : n = 510
    · rw [if_pos hn] at hptr
      subst hn
      rcases hptr with rfl | rfl
      · obtain ⟨hlive, hslot, hp⟩ := twoSharers_entry.2 ⟨rfl, .inl ⟨rfl, rfl⟩⟩
        exact ⟨0, 0, by decide, hlive, by decide, hslot, hp, hframe.1⟩
      · obtain ⟨hlive, hslot, hp⟩ := twoSharers_entry.2 ⟨rfl, .inr ⟨rfl, rfl⟩⟩
        exact ⟨1, 0, by decide, hlive, by decide, hslot, hp, hframe.2⟩
    · rw [if_neg hn] at hptr
      exact hptr.elim

theorem twoSharers_exact : RmapExact twoSharers := by
  have hcard : ({⟨501, 0⟩, ⟨503, 0⟩} : Set PtePtr).ncard = 2 := Set.ncard_pair (by decide)
  have hlist : ∀ n i, (twoSharers.rmap n).presentId i = true → n = 510 ∧ (i = 0 ∨ i = 1) := by
    intro n i hi
    by_cases hn : n = 510
    · subst hn
      have hlt : i < 2 := of_decide_eq_true hi
      exact ⟨rfl, by omega⟩
    · simp only [twoSharers, if_neg hn] at hi
      cases hi
  refine ⟨?_, ?_, ?_, ?_, ?_, ?_, ?_⟩
  · intro n _
    rw [twoSharers_userPtes]
    by_cases hn : n = 510
    · rw [if_pos hn, hcard, hn]
      rfl
    · rw [if_neg hn, Set.ncard_empty]
      simp only [twoSharers, if_neg hn]
  · intro n _
    rw [twoSharers_userPtes]
    split
    · exact Set.toFinite _
    · exact Set.finite_empty
  · intro n _ ptr
    rw [twoSharers_userPtes]
    constructor
    · intro hptr
      by_cases hn : n = 510
      · rw [if_pos hn] at hptr
        subst hn
        rcases hptr with rfl | rfl
        · exact ⟨0, by decide, rfl, rfl⟩
        · exact ⟨1, by decide, rfl, rfl⟩
      · grind
    · rintro ⟨i, -, hi, rfl⟩
      obtain ⟨rfl, rfl | rfl⟩ := hlist n i hi
      · exact .inl rfl
      · exact .inr rfl
  · intro n i j _ _ _ hi hj heq
    obtain ⟨rfl, rfl | rfl⟩ := hlist n i hi <;> obtain ⟨-, rfl | rfl⟩ := hlist _ j hj
    · rfl
    · exact absurd heq (by decide +kernel)
    · exact absurd heq (by decide +kernel)
    · rfl
  · intro n ptr hptr
    rw [twoSharers_userPtes] at hptr
    split at hptr
    · next hn => rw [hn]; decide
    · exact hptr.elim
  · intro n ptr hptr hW
    rw [twoSharers_userPtes] at hptr
    split at hptr
    · rcases hptr with rfl | rfl
      · exact absurd hW (by decide +kernel)
      · exact absurd hW (by decide +kernel)
    · exact hptr.elim
  · intro n _
    rw [twoSharers_userPtes]
    by_cases hn : n = 510
    · subst hn
      rw [if_pos rfl]
      exact iff_of_false (by decide +kernel) (Set.insert_nonempty _ _).ne_empty
    · rw [if_neg hn]
      simp only [twoSharers, if_neg hn]

/-- What the eviction leaves of the first process's mapping. -/
def keepsFreedPage (r : Except Halt (Unit × Kernel)) : Bool :=
  match r with
  | .ok (_, s') =>
    decide (510 ∈ s'.freelist) && decide (tableOf s' (s'.proc 0).pgdir 0 = some 501) &&
      (s'.proc 0).state.live && has (pteAt s' ⟨501, 0⟩) PTE_P &&
      decide (frameOf (pteAt s' ⟨501, 0⟩) = 510)
  | .error _ => false

/-- The page of two processes goes to a slot. The first process still maps it when it is
    on the free list, so the sharers are not updated, whichever slot is meant. -/
theorem second_sharer_keeps_freed_page : letI := KernelImage.sample
    RmapExact twoSharers ∧ ∃ s', findNewPageAfterSwapping twoSharers = .ok ((), s') ∧
      510 ∈ s'.freelist ∧ ⟨501, 0⟩ ∈ userPtes s' 510 ∧
      ∀ idx, ¬ SharersUpdated twoSharers s' 510 idx := by
  let _ := KernelImage.sample
  refine ⟨twoSharers_exact, ?_⟩
  have heval : keepsFreedPage (findNewPageAfterSwapping twoSharers) = true := by decide +kernel
  cases hr : findNewPageAfterSwapping twoSharers with
  | error e =>
    rw [hr] at heval
    cases heval
  | ok r =>
    obtain ⟨u, s'⟩ := r
    rw [hr] at heval
    simp only [keepsFreedPage, Bool.and_eq_true, decide_eq_true_eq] at heval
    obtain ⟨⟨⟨⟨hfree, htab⟩, hlive⟩, hp⟩, hframe⟩ := heval
    have hmapped : ⟨501, 0⟩ ∈ userPtes s' 510 :=
      ⟨0, 0, by decide, hlive, by decide, pteSlot_eq_some.2 ⟨htab, rfl⟩, hp, hframe⟩
    refine ⟨s', rfl, hfree, hmapped, fun idx hup => ?_⟩
    rw [hup.unmapped] at hmapped
    exact hmapped

end CowPaging
