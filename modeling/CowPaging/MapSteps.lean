import CowPaging.Invariant

/-!
# Steps that keep the invariant

The primitive changes the kernel makes to the memory system, each with the proof
that `Inv` survives it: a page on or off the free list, new flags on an entry, a
page mapped for the first time, a page shared with one more directory, an entry
moved from a shared page to a fresh one, an entry dropped, a new page table, a
new directory, and a directory that is given up.
-/

namespace CowPaging

open Bytes StateExcept SlotTable
open Function (update_of_ne update_self update)

variable {own own' : Owners} {att : Attach} {s s' : Kernel}

/-! ### The reverse-map calls -/

theorem Rmap.inc_refcount (r : Rmap) (ptr : PtePtr) :
    (r.inc ptr).refcount = incr32 r.refcount := by
  unfold Rmap.inc
  split <;> rfl

theorem Rmap.Lists.inc {r : Rmap} {A : Set PtePtr} {ptr : PtePtr} (h : r.Lists A)
    (hptr : ptr ∉ A) (hroom : r.refcount < NPROC) : (r.inc ptr).Lists (insert ptr A) := by
  obtain ⟨j, hj, hfree⟩ := h.exists_free hroom
  obtain ⟨k, hk⟩ : ∃ k, firstSlot NPROC (fun i => !r.presentId i) = some k :=
    exists_firstSlot hj (by simp [hfree])
  obtain ⟨hklt, hkfree⟩ := firstSlot_some hk
  have hcount : incr32 r.refcount = r.refcount + 1 := by
    simp only [incr32, NPROC] at *
    omega
  have hadd := h.add hklt (by simpa using hkfree) hptr
  rw [Rmap.inc, hk, Rmap.Lists]
  simp only [hcount]
  exact hadd

theorem incSharing_eq {ptr : PtePtr} {n : Nat} (hn : n < NFRAMES) :
    incSharing ptr n s = .ok ((), s.setRmap n ((s.rmap n).inc ptr)) := by
  simp only [incSharing, bind, StateT.bind, Except.bind, get, getThe, MonadStateOf.get,
    StateT.get, pure, Except.pure, if_pos hn]
  rfl

/-- `dec_sharing` of a listed entry does not panic, takes it out, and reports
    whether it was the last one. -/
theorem decSharing_eq {ptr : PtePtr} {n : Nat} {A : Set PtePtr} (hn : n < NFRAMES)
    (h : (s.rmap n).Lists A) (hptr : ptr ∈ A) :
    ∃ r, decSharing ptr n s = .ok (r.refcount == 0, s.setRmap n r) ∧ r.Lists (A \ {ptr}) ∧
      r.refcount = (s.rmap n).refcount - 1 := by
  obtain ⟨j, hj, hused, hitem⟩ := (h.mem ptr).1 hptr
  obtain ⟨k, hk⟩ : ∃ k, (s.rmap n).slotOf ptr = some k :=
    exists_firstSlot hj (by simp [hused, hitem])
  obtain ⟨hklt, htest⟩ := firstSlot_some hk
  simp only [Bool.and_eq_true, decide_eq_true_eq] at htest
  have hpos := h.count_pos hptr
  have hle := h.count_le
  have hcount : decr32 (s.rmap n).refcount = (s.rmap n).refcount - 1 := by
    simp only [decr32, NPROC] at *
    omega
  have herase := h.erase hklt htest.1
  rw [htest.2] at herase
  refine ⟨{ (s.rmap n) with
    refcount := (s.rmap n).refcount - 1
    presentId := update (s.rmap n).presentId k false }, ?_, herase, rfl⟩
  simp only [decSharing, bind, StateT.bind, Except.bind, get, getThe, MonadStateOf.get,
    StateT.get, pure, Except.pure, if_pos hn, hk, hcount]
  rfl

/-! ### Processes and slots under a change of entries -/

/-- Every entry of an attached process stays as it is or becomes present, and the
    slots of the swapped-out ones keep their records. -/
theorem ProcInv.of_slots (h : ProcInv own att s) (hdir : ∀ d, own d = .dir → own' d = .dir)
    (hslot : ∀ d v ptr, own d = .dir → pteSlot s d v = some ptr → pteSlot s' d v = some ptr)
    (hpte : ∀ p d z v w, att p = some (d, z) → v < UPAGES → pteOf s d v = some w →
      ∃ w', pteOf s' d v = some w' ∧ (w' = w ∨ has w' PTE_P = true))
    (hnew : ∀ p d z v w, att p = some (d, z) → v < UPAGES → pteOf s d v = none →
      pteOf s' d v = some w → isSwapped w = false)
    (hrec : ∀ p d z v w, att p = some (d, z) → v < UPAGES → isSwapped w = true →
      pteOf s d v = some w → pteOf s' d v = some w →
      s'.swaparray (frameOf w) = s.swaparray (frameOf w))
    (hfree : ∀ i, i < NSLOTS → (s'.swaparray i).isFree = true → (s'.swaparray i).cnt = 0) :
    ProcInv own' att s' where
  dir p d z hatt := hdir d (h.dir p d z hatt)
  inj := h.inj
  size := h.size
  page p d z v hatt hv := by
    obtain ⟨w, hw, hcase⟩ := h.page p d z v hatt hv
    have hup : v < UPAGES := Tracked.upages h ⟨p, z, hatt, hv⟩
    obtain ⟨w', hw', hcase'⟩ := hpte p d z v w hatt hup hw
    refine ⟨w', hw', ?_⟩
    rcases hcase' with rfl | hp
    · exact hcase
    · exact .inl hp
  slot p d z v w hatt hv hw hsw := by
    cases hold : pteOf s d v with
    | none =>
      rw [hnew p d z v w hatt hv hold hw] at hsw
      cases hsw
    | some w0 =>
      obtain ⟨w', hw', hcase⟩ := hpte p d z v w0 hatt hv hold
      have heq : w' = w := Option.some.inj (hw'.symm.trans hw)
      subst heq
      rcases hcase with rfl | hp
      · have hr := h.slot p d z v w' hatt hv hold hsw
        refine ⟨hr.slot, ?_, ?_, ?_, ?_, ?_, ?_⟩ <;> rw [hrec p d z v w' hatt hv hsw hold hw]
        · exact hr.busy
        · exact hr.cnt
        · exact hslot d v _ (h.dir p d z hatt) hr.pte
        · exact hr.proc
        · exact hr.permP
        · exact hr.permS
      · rw [swapped_absent hsw] at hp
        cases hp
  slotFree := hfree

theorem ProcInv.of_pte (h : ProcInv own att s) (hdir : ∀ d, own d = .dir → own' d = .dir)
    (hslot : ∀ d v ptr, own d = .dir → pteSlot s d v = some ptr → pteSlot s' d v = some ptr)
    (hpte : ∀ p d z v w, att p = some (d, z) → v < UPAGES → pteOf s d v = some w →
      ∃ w', pteOf s' d v = some w' ∧ (w' = w ∨ has w' PTE_P = true))
    (hnew : ∀ p d z v w, att p = some (d, z) → v < UPAGES → pteOf s d v = none →
      pteOf s' d v = some w → isSwapped w = false)
    (hslots : s'.swaparray = s.swaparray) : ProcInv own' att s' := by
  refine h.of_slots hdir hslot hpte hnew (fun _ _ _ _ _ _ _ _ _ _ => by rw [hslots]) ?_
  intro i hi hfree
  rw [hslots] at hfree ⊢
  exact h.slotFree i hi hfree

theorem SlotExact.of_pte (h : SlotExact att s)
    (hpte : ∀ p d z v w, att p = some (d, z) → v < UPAGES → isSwapped w = true →
      (pteOf s' d v = some w ↔ pteOf s d v = some w))
    (hslots : s'.swaparray = s.swaparray) : SlotExact att s' where
  tracked p d z v w hatt hv hw hsw :=
    h.tracked p d z v w hatt hv ((hpte p d z v w hatt hv hsw).1 hw) hsw
  used i hi hbusy := by
    rw [hslots] at hbusy
    obtain ⟨p, d, z, v, w, hatt, hv, hw, hsw, hi⟩ := h.used i hi hbusy
    exact ⟨p, d, z, v, w, hatt, hv, (hpte p d z v w hatt hv hsw).2 hw, hsw, hi⟩

/-- Free list, slots, disk and processes are the same (up to resident sizes). -/
structure SameRest (s s' : Kernel) : Prop where
  freelist : s'.freelist = s.freelist
  slots : s'.swaparray = s.swaparray
  disk : s'.disk = s.disk
  procs : SameProcs s s'

theorem SameRest.refl (s : Kernel) : SameRest s s := ⟨rfl, rfl, rfl, SameProcs.refl s⟩

theorem SameRest.trans {s1 s2 : Kernel} (h : SameRest s s1) (h' : SameRest s1 s2) :
    SameRest s s2 :=
  ⟨h'.freelist.trans h.freelist, h'.slots.trans h.slots, h'.disk.trans h.disk,
    h.procs.trans h'.procs⟩

theorem sameRest_storeWord (s : Kernel) (f i : Nat) (w : Word) :
    SameRest s (s.storeWord f i w) := ⟨rfl, rfl, rfl, ⟨fun _ => rfl, rfl, rfl, rfl⟩⟩

theorem sameRest_setPage (s : Kernel) (f : Nat) (page : Page) :
    SameRest s (s.setPage f page) := ⟨rfl, rfl, rfl, ⟨fun _ => rfl, rfl, rfl, rfl⟩⟩

theorem sameRest_setRmap (s : Kernel) (n : Nat) (r : Rmap) :
    SameRest s (s.setRmap n r) := ⟨rfl, rfl, rfl, ⟨fun _ => rfl, rfl, rfl, rfl⟩⟩

theorem sameProcs_setRss (s : Kernel) (p : Nat) {f : Proc → Proc}
    (hf : ∀ pr, f pr = { pr with rss := (f pr).rss }) : SameProcs s (s.setProc p f) where
  proc q := by
    by_cases hq : q = p
    · subst hq
      simp only [Kernel.setProc, update_self]
      exact hf _
    · simp only [Kernel.setProc, update_of_ne hq]
  cur := rfl
  nextpid := rfl
  initproc := rfl

theorem nframes_lt {f : Nat} (h : f < NFRAMES) : f < 2 ^ 20 := by
  simp only [NFRAMES, PHYSTOP, PGSIZE] at h
  omega

section

variable [KernelImage] {mode : Mode}

theorem SameProcs.idle (h : Inv mode own att s) (hprocs : SameProcs s s') :
    mode.single = true → Clean s' := fun hm => hprocs.clean.2 (h.idle hm)

/-! ### Roles and the free list -/

theorem Inv.resident_congr (h : Inv mode own att s) (hslots : s'.swaparray = s.swaparray) :
    mode.resident = true → ∀ i, i < NSLOTS → (s'.swaparray i).isFree = true := by
  rw [hslots]
  exact h.resident

theorem FrameInv.congr (h : FrameInv own s) (hfree : s'.freelist = s.freelist) :
    FrameInv own s' where
  nodup := by rw [hfree]; exact h.nodup
  free_iff f := by rw [hfree]; exact h.free_iff f
  range := h.range

theorem FrameInv.update (h : FrameInv own s) {f : Nat} {o : Owner} (hf : own f ≠ .free)
    (hm : own f ≠ .unmanaged) (ho : o ≠ .free) : FrameInv (Function.update own f o) s where
  nodup := h.nodup
  free_iff g := by grind [Function.update_apply, h.free_iff]
  range g hg := by
    by_cases hgf : g = f
    · subst hgf
      exact h.range g hm
    · rw [update_of_ne hgf] at hg
      exact h.range g hg

theorem FrameInv.push (h : FrameInv own s) {f : Nat} (hf : own f ≠ .free)
    (hm : own f ≠ .unmanaged) (hlist : s'.freelist = f :: s.freelist) :
    FrameInv (Function.update own f .free) s' where
  nodup := by grind [h.free_iff, h.nodup, List.nodup_cons.2]
  free_iff g := by grind [Function.update_apply, h.free_iff]
  range g hg := by
    by_cases hgf : g = f
    · subst hgf
      exact h.range g hm
    · rw [update_of_ne hgf] at hg
      exact h.range g hg

theorem FrameInv.pop (h : FrameInv own s) {f : Nat} {rest : List Nat}
    (hlist : s.freelist = f :: rest) (hlist' : s'.freelist = rest) :
    FrameInv (Function.update own f .held) s' := by
  have hnodup := h.nodup
  rw [hlist, List.nodup_cons] at hnodup
  have hfree : own f = .free := (h.free_iff f).1 (by rw [hlist]; exact List.mem_cons_self)
  refine ⟨by rw [hlist']; exact hnodup.2, fun g => ?_, fun g hg => ?_⟩
  · grind [Function.update_apply, h.free_iff]
  · by_cases hgf : g = f
    · subst hgf
      exact h.range g (by rw [hfree]; simp)
    · rw [update_of_ne hgf] at hg
      exact h.range g hg

theorem Inv.user_lt (h : Inv mode own att s) {f : Nat} (hf : own f ≠ .unmanaged) :
    f < NFRAMES := (h.frames.range f hf).2

theorem Inv.frame_lt (h : Inv mode own att s) {d v : Nat} {w : Word} (hu : Upte own s d v w)
    (hp : has w PTE_P = true) : frameOf w < NFRAMES :=
  h.user_lt (by rw [(h.maps.user d v w hu hp).1]; simp)

theorem Inv.congr (h : Inv mode own att s) (hroles : SameRoles own own')
    (hmaps : SameMaps own s s') (hrmap : s'.rmap = s.rmap)
    (hslots : s'.swaparray = s.swaparray) (hframes : FrameInv own' s')
    (hidle : mode.single = true → Clean s') : Inv mode own' att s' where
  frames := hframes
  tables := h.tables.congr hroles hmaps
  maps := h.maps.congr h.tables hroles hmaps hrmap
  procs := by
    have hpte : ∀ p d z v, att p = some (d, z) → v < UPAGES → pteOf s' d v = pteOf s d v :=
      fun p d z v hatt hv => hmaps.pte h.tables (h.procs.dir p d z hatt) (upages_lt hv)
    refine h.procs.of_pte (fun d => (hroles.dir d).2) ?_ ?_ ?_ hslots
    · intro d v ptr hd hslot
      rw [hmaps.slot hd, hslot]
    · intro p d z v w hatt hv hw
      exact ⟨w, by rw [hpte p d z v hatt hv, hw], .inl rfl⟩
    · intro p d z v w hatt hv hnone hw
      rw [hpte p d z v hatt hv, hnone] at hw
      exact (Option.some_ne_none w hw.symm).elim
  unshared hm n hn := by rw [hrmap]; exact h.unshared hm n hn
  idle := hidle
  resident := h.resident_congr hslots
  slots hm := by
    refine (h.slots hm).of_pte ?_ hslots
    intro p d z v w hatt hv _
    rw [hmaps.pte h.tables (h.procs.dir p d z hatt) (upages_lt hv)]

theorem Inv.setPage (h : Inv mode own att s) {f : Nat} {page : Page}
    (hf : ¬ (own f).isMap) : Inv mode own att (s.setPage f page) :=
  h.congr (SameRoles.refl own) (sameMaps_setPage hf) rfl rfl (h.frames.congr rfl)
    ((sameRest_setPage s f page).procs.idle h)

theorem Inv.setRss (h : Inv mode own att s) (p : Nat) {f : Proc → Proc}
    (hf : ∀ pr, f pr = { pr with rss := (f pr).rss }) : Inv mode own att (s.setProc p f) :=
  h.congr (SameRoles.refl own) (sameMaps_of_mem rfl) rfl rfl (h.frames.congr rfl)
    ((sameProcs_setRss s p hf).idle h)

theorem Inv.recast (h : Inv mode own att s) {f : Nat} {o : Owner} (hf : (own f).isPlain)
    (hfree : own f ≠ .free) (hm : own f ≠ .unmanaged) (ho : o.isPlain) (ho' : o ≠ .free) :
    Inv mode (update own f o) att s :=
  h.congr (sameRoles_update hf ho) (SameMaps.refl own s) rfl rfl
    (h.frames.update hfree hm ho') h.idle

/-! ### One entry -/

variable {d0 v0 : Nat} {w0 w1 : Word} {ptr : PtePtr}

omit [KernelImage] in
theorem isSwapped_of_present {w : Word} (h : has w PTE_P = true) : isSwapped w = false := by
  rw [isSwapped, h]
  rfl

omit [KernelImage] in
/-- A store that maps a page, or that changes a directory no process is attached
    to; slots named by other entries keep their records. -/
theorem ProcInv.store_slots (h : ProcInv own att s) (hst : PteStore own d0 v0 w1 s s')
    (hdir : ∀ d, own d = .dir → own' d = .dir)
    (hnew : has w1 PTE_P = true ∨ ∀ p z, att p ≠ some (d0, z))
    (hrec : ∀ p d z v w, att p = some (d, z) → v < UPAGES → ¬ (d = d0 ∧ v = v0) →
      isSwapped w = true → pteOf s d v = some w →
      s'.swaparray (frameOf w) = s.swaparray (frameOf w))
    (hfree : ∀ i, i < NSLOTS → (s'.swaparray i).isFree = true → (s'.swaparray i).cnt = 0) :
    ProcInv own' att s' := by
  have hpte : ∀ p d z v, att p = some (d, z) → v < UPAGES →
      pteOf s' d v = if d = d0 ∧ v = v0 then some w1 else pteOf s d v :=
    fun p d z v hatt hv => hst.pte d v (h.dir p d z hatt) (upages_lt hv)
  have hself : ∀ p z, att p = some (d0, z) → has w1 PTE_P = true :=
    fun p z hatt => hnew.resolve_right fun hdet => hdet p z hatt
  refine h.of_slots hdir ?_ ?_ ?_ ?_ hfree
  · intro d v q hd hq
    rw [hst.slot hd, hq]
  · intro p d z v w hatt hv hw
    rw [hpte p d z v hatt hv]
    by_cases heq : d = d0 ∧ v = v0
    · rw [if_pos heq]
      exact ⟨w1, rfl, .inr (hself p z (heq.1 ▸ hatt))⟩
    · rw [if_neg heq]
      exact ⟨w, hw, .inl rfl⟩
  · intro p d z v w hatt hv hnone hw
    rw [hpte p d z v hatt hv] at hw
    by_cases heq : d = d0 ∧ v = v0
    · rw [if_pos heq] at hw
      rw [← Option.some.inj hw]
      exact isSwapped_of_present (hself p z (heq.1 ▸ hatt))
    · rw [if_neg heq, hnone] at hw
      exact (Option.some_ne_none w hw.symm).elim
  · intro p d z v w hatt hv hsw hw hw'
    refine hrec p d z v w hatt hv ?_ hsw hw
    intro heq
    rw [hpte p d z v hatt hv, if_pos heq] at hw'
    rw [← Option.some.inj hw', isSwapped_of_present (hself p z (heq.1 ▸ hatt))] at hsw
    cases hsw

omit [KernelImage] in
theorem ProcInv.store (h : ProcInv own att s) (hst : PteStore own d0 v0 w1 s s')
    (hdir : ∀ d, own d = .dir → own' d = .dir)
    (hnew : has w1 PTE_P = true ∨ ∀ p z, att p ≠ some (d0, z))
    (hslots : s'.swaparray = s.swaparray) : ProcInv own' att s' := by
  refine h.store_slots hst hdir hnew (fun _ _ _ _ _ _ _ _ _ _ => by rw [hslots]) ?_
  intro i hi hfree
  rw [hslots] at hfree ⊢
  exact h.slotFree i hi hfree

omit [KernelImage] in
theorem SlotExact.store (h : SlotExact att s) (hprocs : ProcInv own att s)
    (hst : PteStore own d0 v0 w1 s s') (hnew : isSwapped w1 = false)
    (hold : ∀ p z w, att p = some (d0, z) → pteOf s d0 v0 = some w → isSwapped w = false)
    (hslots : s'.swaparray = s.swaparray) : SlotExact att s' := by
  refine h.of_pte ?_ hslots
  intro p d z v w hatt hv hsw
  rw [hst.pte d v (hprocs.dir p d z hatt) (upages_lt hv)]
  by_cases heq : d = d0 ∧ v = v0
  · grind
  · rw [if_neg heq]

omit [KernelImage] in
theorem PteStore.rebase {w : Word} {sv : Kernel} (h : PteStore own d0 v0 w s sv)
    (h' : PteStore own d0 v0 w1 s s') : PteStore own d0 v0 w1 sv s' where
  table d i hd := by rw [h'.table d i hd, h.table d i hd]
  pte d v hd hv := by
    rw [h'.pte d v hd hv, h.pte d v hd hv]
    split <;> rfl

omit [KernelImage] in
theorem MapInv.mappers_eq_empty (h : MapInv own s) {n : Nat} (hn : own n ≠ .user) :
    mappers own s n = ∅ := by
  rw [Set.eq_empty_iff_forall_notMem]
  rintro q ⟨d, v, w, hu, hp, rfl, -⟩
  exact hn (h.user d v w hu hp).1

theorem Inv.flags (h : Inv mode own att s) (hst : PteStore own d0 v0 w1 s s')
    (hrest : SameRest s s') (hrmap : s'.rmap = s.rmap) (hu : Upte own s d0 v0 w0)
    (hp0 : has w0 PTE_P = true) (hp1 : has w1 PTE_P = true) (hframe : frameOf w1 = frameOf w0)
    (hS : has w1 PTE_S = false)
    (hW : has w1 PTE_W = true → (s.rmap (frameOf w0)).refcount = 1) : Inv mode own att s' where
  frames := h.frames.congr hrest.freelist
  tables := h.tables.store (SameMapRoles.refl own) hst.table
  maps := h.maps.setFlags h.tables hst hrmap hu hp0 hp1 hframe hS hW
  procs := h.procs.store hst (fun _ hd => hd) (.inl hp1) hrest.slots
  unshared hm n hn := by rw [hrmap]; exact h.unshared hm n hn
  idle := hrest.procs.idle h
  resident := h.resident_congr hrest.slots
  slots hm := by
    refine (h.slots hm).store h.procs hst (isSwapped_of_present hp1) ?_ hrest.slots
    intro p z w _ hw
    rw [← Option.some.inj (hu.2.2.symm.trans hw)]
    exact isSwapped_of_present hp0

theorem Inv.map (h : Inv mode own att s) (hst : PteStore own d0 v0 w1 s s')
    (hrest : SameRest s s') (hheld : own (frameOf w1) = .held)
    (hrmap : s'.rmap =
      update s.rmap (frameOf w1) ((s.rmap (frameOf w1)).inc ptr))
    (hu : Upte own s d0 v0 w0) (hslot : pteSlot s d0 v0 = some ptr)
    (hp0 : has w0 PTE_P = false) (hp1 : has w1 PTE_P = true) (hS : has w1 PTE_S = false)
    (hleak : mode.strict = true → ∀ p z, att p = some (d0, z) → isSwapped w0 = false) :
    Inv mode (update own (frameOf w1) .user) att s' := by
  have hlt : frameOf w1 < NFRAMES := h.user_lt (by rw [hheld]; simp)
  have hempty : mappers own s (frameOf w1) = ∅ :=
    h.maps.mappers_eq_empty (by rw [hheld]; simp)
  have hzero : (s.rmap (frameOf w1)).refcount = 0 :=
    (h.maps.exact _ hlt).count_eq_zero.2 hempty
  have hlist : (s'.rmap (frameOf w1)).Lists (insert ptr (mappers own s (frameOf w1))) := by
    rw [hrmap, update_self]
    exact (h.maps.exact _ hlt).inc (by rw [hempty]; exact Set.notMem_empty ptr)
      (by rw [hzero]; decide)
  have hother : ∀ n, n ≠ frameOf w1 → s'.rmap n = s.rmap n := by
    intro n hn
    rw [hrmap, update_of_ne hn]
  have hroles : SameMapRoles own (update own (frameOf w1) .user) :=
    sameMapRoles_update (by rw [hheld]; exact id) id
  have hnone : ∀ d v w, Upte own s d v w → has w PTE_P = true → frameOf w ≠ frameOf w1 := by
    intro d v w hu' hp heq
    have huser := (h.maps.user d v w hu' hp).1
    rw [heq, hheld] at huser
    cases huser
  refine ⟨?_, h.tables.store hroles hst.table, ?_, ?_, ?_, hrest.procs.idle h,
    h.resident_congr hrest.slots, ?_⟩
  · exact (h.frames.update (by rw [hheld]; simp) (by rw [hheld]; simp) (by simp)).congr
      hrest.freelist
  · refine h.maps.map h.tables hst hroles hu hslot hp0 hp1 hS hlist hother ?_ ?_ ?_ ?_ ?_
    · intro n hn
      exact update_of_ne hn _ _
    · exact update_self _ _ _
    · exact hnone d0
    · intro d v w hu' hp heq
      exact (hnone d v w hu' hp heq).elim
    · intro _
      exact hempty
  · exact h.procs.store hst (fun d => (hroles.dir d).2) (.inl hp1) hrest.slots
  · intro hm n hn
    by_cases heq : n = frameOf w1
    · subst heq
      refine Nat.le_of_eq (hlist.count_one_of_subsingleton (Set.mem_insert _ _) ?_)
      rw [hempty]
      rintro b (rfl | hb)
      · rfl
      · exact hb.elim
    · rw [hother n heq]
      exact h.unshared hm n hn
  · intro hm
    refine (h.slots hm).store h.procs hst (isSwapped_of_present hp1) ?_ hrest.slots
    intro p z w hatt hw
    rw [← Option.some.inj (hu.2.2.symm.trans hw)]
    exact hleak hm p z hatt

theorem Inv.share (h : Inv mode own att s) (hmode : mode.single = false)
    (hst : PteStore own d0 v0 w1 s s') (hrest : SameRest s s')
    (huser : own (frameOf w1) = .user)
    (hrmap : s'.rmap =
      update s.rmap (frameOf w1) ((s.rmap (frameOf w1)).inc ptr))
    (hroom : (s.rmap (frameOf w1)).refcount < NPROC)
    (hu : Upte own s d0 v0 w0) (hslot : pteSlot s d0 v0 = some ptr)
    (hp0 : has w0 PTE_P = false) (hp1 : has w1 PTE_P = true) (hS : has w1 PTE_S = false)
    (hW : has w1 PTE_W = false)
    (honce : ∀ v w, Upte own s d0 v w → has w PTE_P = true → frameOf w ≠ frameOf w1)
    (hro : ∀ d v w, Upte own s d v w → has w PTE_P = true → frameOf w = frameOf w1 →
      has w PTE_W = false)
    (hleak : mode.strict = true → ∀ p z, att p = some (d0, z) → isSwapped w0 = false) :
    Inv mode own att s' := by
  have hlt : frameOf w1 < NFRAMES := h.user_lt (by rw [huser]; simp)
  have hroles := SameMapRoles.refl own
  have hnot : ptr ∉ mappers own s (frameOf w1) := by
    rintro ⟨d, v, w, hu', hp, hn, hq⟩
    obtain ⟨rfl, rfl⟩ :=
      h.tables.slot_inj hu'.1 hu.1 (upages_lt hu'.2.1) (upages_lt hu.2.1) hq hslot
    exact honce v w hu' hp hn
  refine ⟨h.frames.congr hrest.freelist, h.tables.store hroles hst.table, ?_, ?_, ?_,
    hrest.procs.idle h, h.resident_congr hrest.slots, ?_⟩
  · refine h.maps.map h.tables hst hroles hu hslot hp0 hp1 hS ?_ ?_ (fun _ _ => rfl) huser
      honce hro ?_
    · rw [hrmap, update_self]
      exact (h.maps.exact _ hlt).inc hnot hroom
    · intro n hn
      rw [hrmap, update_of_ne hn]
    · intro hw
      rw [hW] at hw
      cases hw
  · exact h.procs.store hst (fun _ hd => hd) (.inl hp1) hrest.slots
  · intro hm
    rw [hmode] at hm
    cases hm
  · intro hm
    refine (h.slots hm).store h.procs hst (isSwapped_of_present hp1) ?_ hrest.slots
    intro p z w hatt hw
    rw [← Option.some.inj (hu.2.2.symm.trans hw)]
    exact hleak hm p z hatt

omit [KernelImage] in
theorem has_zero (flag : Word) : has 0 flag = false := by
  simp [has]

omit [KernelImage] in
theorem pteStore_storeWord (hT : TableInv own s) (hd : own d0 = .dir) (hv : v0 < 2 ^ 20)
    (hslot : pteSlot s d0 v0 = some ptr) (w : Word) :
    PteStore own d0 v0 w s (s.storeWord ptr.table ptr.index w) :=
  pteStore_of_mem hT hd hv hslot fun _ _ => rfl

/-- An entry leaves a shared page for a held one: the end of copy-on-write. The
    proof goes through the state in which the entry maps nothing. -/
theorem Inv.remap (h : Inv mode own att s) (hst : PteStore own d0 v0 w1 s s')
    (hrest : SameRest s s') (hu : Upte own s d0 v0 w0) (hslot : pteSlot s d0 v0 = some ptr)
    (hp0 : has w0 PTE_P = true) (hp1 : has w1 PTE_P = true) (hS : has w1 PTE_S = false)
    (hheld : own (frameOf w1) = .held) {r : Rmap}
    (hdec : r.Lists (mappers own s (frameOf w0) \ {ptr}))
    (hshared : 1 < (s.rmap (frameOf w0)).refcount)
    (hcount : r.refcount = (s.rmap (frameOf w0)).refcount - 1)
    (hrmap : s'.rmap = update (update s.rmap (frameOf w0) r) (frameOf w1)
      ((s.rmap (frameOf w1)).inc ptr)) :
    Inv mode (update own (frameOf w1) .user) att s' := by
  have huser := (h.maps.user d0 v0 w0 hu hp0).1
  have hlt0 := h.frame_lt hu hp0
  have hlt1 : frameOf w1 < NFRAMES := h.user_lt (by rw [hheld]; simp)
  have hne : frameOf w1 ≠ frameOf w0 := by grind
  have hroles : SameMapRoles own (update own (frameOf w1) .user) :=
    sameMapRoles_update (by rw [hheld]; exact id) id
  obtain ⟨sv, hsv⟩ : ∃ sv, sv = (s.storeWord ptr.table ptr.index 0).setRmap (frameOf w0) r :=
    ⟨_, rfl⟩
  have hstv : PteStore own d0 v0 0 s sv := by
    rw [hsv]
    exact pteStore_of_mem h.tables hu.1 (upages_lt hu.2.1) hslot fun _ _ => rfl
  have hrmapv : sv.rmap = update s.rmap (frameOf w0) r := by rw [hsv]; rfl
  have hTv : TableInv own sv := h.tables.store (SameMapRoles.refl own) hstv.table
  have hmv : MapInv own sv := by
    refine h.maps.unmap h.tables hstv (SameMapRoles.refl own) hu hslot hp0 (has_zero _) hlt0
      ?_ ?_ (fun _ _ => rfl) (iff_of_true huser ?_)
    · rw [hrmapv, update_self]
      exact hdec
    · intro n hn
      rw [hrmapv, update_of_ne hn]
    · by_contra hempty
      have := hdec.count_eq_zero.2 (Set.not_nonempty_iff_eq_empty.1 hempty)
      omega
  have huv : Upte own sv d0 v0 0 := by
    refine ⟨hu.1, hu.2.1, ?_⟩
    rw [hstv.pte d0 v0 hu.1 (upages_lt hu.2.1), if_pos ⟨rfl, rfl⟩]
  have hempty : mappers own sv (frameOf w1) = ∅ :=
    hmv.mappers_eq_empty (by rw [hheld]; simp)
  have hzero : (sv.rmap (frameOf w1)).refcount = 0 :=
    (hmv.exact _ hlt1).count_eq_zero.2 hempty
  have hsame : sv.rmap (frameOf w1) = s.rmap (frameOf w1) := by
    rw [hrmapv, update_of_ne hne]
  have hnone : ∀ d v w, Upte own sv d v w → has w PTE_P = true → frameOf w ≠ frameOf w1 := by
    intro d v w hu' hp heq
    have := (hmv.user d v w hu' hp).1
    rw [heq, hheld] at this
    cases this
  refine ⟨?_, h.tables.store hroles hst.table, ?_, ?_, ?_, hrest.procs.idle h,
    h.resident_congr hrest.slots, ?_⟩
  · exact (h.frames.update (by rw [hheld]; simp) (by rw [hheld]; simp) (by simp)).congr
      hrest.freelist
  · refine hmv.map hTv (hstv.rebase hst) hroles huv (by rw [hstv.slot hu.1]; exact hslot)
      (has_zero _) hp1 hS ?_ ?_ ?_ ?_ (hnone d0) ?_ (fun _ => hempty)
    · rw [hrmap, update_self, ← hsame]
      exact (hmv.exact _ hlt1).inc (by rw [hempty]; exact Set.notMem_empty ptr)
        (by rw [hzero]; decide)
    · intro n hn
      rw [hrmap, update_of_ne hn, hrmapv]
    · intro n hn
      exact update_of_ne hn _ _
    · exact update_self _ _ _
    · intro d v w hu' hp heq
      exact (hnone d v w hu' hp heq).elim
  · exact h.procs.store hst (fun d => (hroles.dir d).2) (.inl hp1) hrest.slots
  · intro hm
    have := h.unshared hm _ hlt0
    omega
  · intro hm
    refine (h.slots hm).store h.procs hst (isSwapped_of_present hp1) ?_ hrest.slots
    intro p z w _ hw
    rw [← Option.some.inj (hu.2.2.symm.trans hw)]
    exact isSwapped_of_present hp0

/-- An entry of a directory without a process stops mapping its page; the last
    one frees the page. -/
theorem Inv.unmap (h : Inv mode own att s) (hst : PteStore own d0 v0 0 s s')
    (hslots : s'.swaparray = s.swaparray) (hprocs : SameProcs s s')
    (hu : Upte own s d0 v0 w0) (hslot : pteSlot s d0 v0 = some ptr)
    (hp0 : has w0 PTE_P = true) (hdet : ∀ p z, att p ≠ some (d0, z)) {r : Rmap}
    (hdec : r.Lists (mappers own s (frameOf w0) \ {ptr}))
    (hcount : r.refcount = (s.rmap (frameOf w0)).refcount - 1)
    (hrmap : s'.rmap = update s.rmap (frameOf w0) r)
    (hcase : (r.refcount = 0 ∧ own' = update own (frameOf w0) .free ∧
        s'.freelist = frameOf w0 :: s.freelist) ∨
      (r.refcount ≠ 0 ∧ own' = own ∧ s'.freelist = s.freelist)) : Inv mode own' att s' := by
  have huser := (h.maps.user d0 v0 w0 hu hp0).1
  have hroles : SameMapRoles own own' := by
    rcases hcase with ⟨-, rfl, -⟩ | ⟨-, rfl, -⟩
    · exact sameMapRoles_update (by rw [huser]; exact id) id
    · exact SameMapRoles.refl own'
  have hother : ∀ n, n ≠ frameOf w0 → s'.rmap n = s.rmap n := by
    intro n hn
    rw [hrmap, update_of_ne hn]
  refine ⟨?_, h.tables.store hroles hst.table, ?_, ?_, ?_, hprocs.idle h,
    h.resident_congr hslots, ?_⟩
  · rcases hcase with ⟨-, rfl, hlist⟩ | ⟨-, rfl, hlist⟩
    · exact h.frames.push (by rw [huser]; simp) (by rw [huser]; simp) hlist
    · exact h.frames.congr hlist
  · refine h.maps.unmap h.tables hst hroles hu hslot hp0 (has_zero _) (h.frame_lt hu hp0)
      ?_ hother ?_ ?_
    · rw [hrmap, update_self]
      exact hdec
    · intro n hn
      rcases hcase with ⟨-, rfl, -⟩ | ⟨-, rfl, -⟩
      · exact update_of_ne hn _ _
      · rfl
    · rcases hcase with ⟨hzero, rfl, -⟩ | ⟨hpos, rfl, -⟩
      · rw [update_self, hdec.count_eq_zero.1 hzero]
        exact iff_of_false (by simp) Set.not_nonempty_empty
      · refine iff_of_true huser (Set.nonempty_iff_ne_empty.2 fun hempty => ?_)
        exact hpos (hdec.count_eq_zero.2 hempty)
  · exact h.procs.store hst (fun d => (hroles.dir d).2) (.inr hdet) hslots
  · intro hm n hn
    by_cases heq : n = frameOf w0
    · subst heq
      have := h.unshared hm _ hn
      rw [hrmap, update_self, hcount]
      omega
    · rw [hother n heq]
      exact h.unshared hm n hn
  · intro hm
    refine (h.slots hm).store h.procs hst ?_ ?_ hslots
    · rw [isSwapped, has_zero]
      simp
    · intro p z w hatt _
      exact (hdet p z hatt).elim

end

end CowPaging
