import CowPaging.Run

/-!
# Boot

`main` builds the free list, the kernel's own page directory, the stacks of the
other processors and the first process. The result refines `Flat.boot`. Until the
first process has its address space there is none, and the pages taken by the
kernel are only counted as held.
-/

namespace CowPaging

open Bytes StateExcept SlotTable
open Function (update_of_ne update_self update)

variable [KernelImage] {mode : Mode} {keep : Bool} {evict : K Unit} {E : Halt → Prop}
  {own own0 own' : Owners} {s s0 s' : Kernel} {d v : Nat} {m : Memory}

/-! ### The kernel's own pages -/

/-- `startothers`: the stacks of the other processors. -/
def startothers (evict : K Unit) : Nat → K (List (Option Nat))
  | 0 => pure []
  | n + 1 => do
    let stack ← kalloc evict
    let rest ← startothers evict n
    pure (stack :: rest)

/-- `boot`, with the pages the kernel keeps for itself: `kpgdir` and the stacks. -/
def bootPages (otherCpus : Nat) (initcode : List Byte) : K Kept := do
  loopFrom kfree KernelImage.endPage (NFRAMES - KernelImage.endPage)
  let kpgdir ← setupkvm noEvict
  let cpuStacks ← startothers noEvict otherCpus
  userinit noEvict initcode
  initswap
  pure { kpgdir := kpgdir.getD 0, pages := cpuStacks.filterMap id }

omit [KernelImage] in
theorem startothers_eq (i n : Nat) :
    loopFrom (fun _ => do let _ ← kalloc evict; pure ()) i n =
      (do let _ ← startothers evict n; pure ()) := by
  induction n generalizing i with
  | zero => rfl
  | succ n ih =>
    rw [loopFrom, ih, startothers]
    simp only [bind_assoc, pure_bind]

theorem boot_eq (otherCpus : Nat) (initcode : List Byte) :
    boot otherCpus initcode = (do let _ ← bootPages otherCpus initcode; pure ()) := by
  unfold boot bootPages
  rw [startothers_eq]
  simp only [bind_assoc, pure_bind, bind_pure_unit]

/-! ### Before the first process -/

/-- Until `initswap` the slots are not in order. -/
def Mode.booting : Mode := ⟨false, false, false, none⟩

/-- No process, no address space. -/
structure Bare (own : Owners) (s : Kernel) : Prop where
  inv : Inv Mode.booting own (attachOf s) s
  dirs : ∀ f, own f ≠ .dir
  procs : SameProcs Kernel.zero s

/-- The role of page `f` after `kfree` has been given the pages below `n`. -/
def bootOwners (n : Nat) : Owners := fun f =>
  if KernelImage.endPage ≤ f ∧ f < NFRAMES then if f < n then .free else .held
  else .unmanaged

theorem bootOwners_update {n : Nat} (hlo : KernelImage.endPage ≤ n) (hhi : n < NFRAMES) :
    bootOwners (n + 1) = update (bootOwners n) n .free := by
  funext f
  by_cases hf : f = n
  · grind [bootOwners]
  · grind [Function.update_apply, bootOwners, Nat.lt_succ_of_lt]

theorem bootOwners_ne {n f : Nat} {o : Owner} (hfree : o ≠ .free) (hheld : o ≠ .held)
    (hun : o ≠ .unmanaged) : bootOwners n f ≠ o := by grind [bootOwners]

theorem bare_zero : Bare (bootOwners KernelImage.endPage) Kernel.zero := by
  have hdir : ∀ f, bootOwners KernelImage.endPage f ≠ .dir := fun f =>
    bootOwners_ne (by simp) (by simp) (by simp)
  have htab : ∀ f d i, bootOwners KernelImage.endPage f ≠ .tab d i := fun f d i =>
    bootOwners_ne (by simp) (by simp) (by simp)
  have huser : ∀ f, bootOwners KernelImage.endPage f ≠ .user := fun f =>
    bootOwners_ne (by simp) (by simp) (by simp)
  have hup : ∀ d v w, ¬ Upte (bootOwners KernelImage.endPage) Kernel.zero d v w :=
    fun d v w h => hdir d h.1
  have hatt : ∀ p, attachOf Kernel.zero p = none := by
    intro p
    rw [attachOf, if_neg]
    rintro ⟨-, hlive⟩
    cases hlive
  have hno : ∀ {p d z}, attachOf Kernel.zero p ≠ some (d, z) := by grind
  refine ⟨⟨⟨List.nodup_nil, ?_, ?_⟩, ⟨fun d _ _ hd => (hdir d hd).elim,
    fun d i t ht => (htab t d i ht).elim⟩, ?_, ?_, ?_, ?_, ?_, ?_⟩, hdir, SameProcs.refl _⟩
  · intro f
    refine iff_of_false (by simp [Kernel.zero]) ?_
    unfold bootOwners
    split
    · rw [if_neg (by omega)]
      simp
    · simp
  · grind [bootOwners]
  · refine ⟨fun d v w h => (hup d v w h).elim, fun d v w hd => (hdir d hd).elim,
      fun d v _ w _ h => (hup d v w h).elim, ?_, fun n hn => (huser n hn).elim,
      fun d v w h => (hup d v w h).elim⟩
    intro n hn
    have hempty : mappers (bootOwners KernelImage.endPage) Kernel.zero n = ∅ := by
      refine Set.eq_empty_iff_forall_notMem.2 ?_
      rintro q ⟨d, v, w, hu, -⟩
      exact hup d v w hu
    rw [hempty]
    refine ⟨fun j k _ _ hj => Bool.noConfusion hj, ?_, ?_⟩
    · intro a
      refine iff_of_false (by simp) ?_
      rintro ⟨j, -, hj, -⟩
      cases hj
    · simp [Kernel.zero, usedSlots]
  · exact ⟨fun p d z h => (hno h).elim, fun p q d z z' h => (hno h).elim,
      fun p d z h => (hno h).elim, fun p d z v h => (hno h).elim,
      fun p d z v w h => (hno h).elim, fun i _ h => Bool.noConfusion h⟩
  · exact fun h => Bool.noConfusion h
  · exact fun h => Bool.noConfusion h
  · exact fun h => Bool.noConfusion h
  · exact fun h => Bool.noConfusion h

/-- `kinit1`. -/
theorem freeAll_spec :
    wp (loopFrom kfree KernelImage.endPage (NFRAMES - KernelImage.endPage)) Kernel.zero
      (fun _ s => Bare (bootOwners NFRAMES) s ∧
        s.freelist.length = NFRAMES - KernelImage.endPage) E := by
  have hloop : wp (loopFrom kfree KernelImage.endPage (NFRAMES - KernelImage.endPage))
      Kernel.zero (fun _ s => Bare (bootOwners (KernelImage.endPage +
        (NFRAMES - KernelImage.endPage))) s ∧ s.freelist.length =
        KernelImage.endPage + (NFRAMES - KernelImage.endPage) - KernelImage.endPage) E := by
    refine wp_loopFrom (fun n s => Bare (bootOwners n) s ∧
      s.freelist.length = n - KernelImage.endPage) ?_ ⟨bare_zero, by simp [Kernel.zero]⟩
    rintro n s hlo hhi ⟨hbare, hlen⟩
    have hn : n < NFRAMES := by omega
    have hheld : bootOwners n n = .held := by
      rw [bootOwners, if_pos ⟨hlo, hn⟩, if_neg (Nat.lt_irrefl n)]
    rw [wp_of_ok (kfree_eq hbare.inv.frames (by rw [hheld]; simp)), bootOwners_update hlo hn]
    refine ⟨⟨hbare.inv.freed (by rw [hheld]; trivial) (by rw [hheld]; simp)
      (by rw [hheld]; simp), ?_, hbare.procs.trans ⟨fun _ => rfl, rfl, rfl, rfl⟩⟩, ?_⟩
    · rw [← bootOwners_update hlo hn]
      exact fun f => bootOwners_ne (by simp) (by simp) (by simp)
    · rw [Kernel.freed, List.length_cons, hlen]
      omega
  refine wp_conseq hloop ?_
  rintro - s ⟨hbare, hlen⟩
  have hend : KernelImage.endPage + (NFRAMES - KernelImage.endPage) = NFRAMES := by
    have := KernelImage.end_lt
    omega
  rw [hend] at hbare
  exact ⟨hbare, by omega⟩

theorem bootOwners_kernel {f : Nat} (hf : (bootOwners NFRAMES f).isKernel) :
    bootOwners NFRAMES f = .unmanaged := by
  unfold bootOwners at hf ⊢
  split
  case isTrue hin =>
    rw [if_pos hin, if_pos hin.2] at hf
    exact hf.elim
  case isFalse => rfl

theorem Bare.setupkvm {c : Nat} (h : Bare (bootOwners NFRAMES) s)
    (hsup : Supply Mode.booting keep evict E (c + 10) s) :
    wp (setupkvm evict) s (fun r s' => ∃ d own', r = some d ∧ Bare own' s' ∧
      Ledger ⟨d, []⟩ own' s' ∧ Supply Mode.booting keep evict E c s') E := by
  refine wp_conseq (setupkvm_spec h.inv hsup) ?_
  rintro - s' ⟨d, own', rfl, hsp, honly, hsup'⟩
  have hkern : SameKernel (bootOwners NFRAMES) own' :=
    (sameKernel_newDir hsp.fresh).trans hsp.keeps.sameKernel
  -- what the kernel has now is the directory and its tables
  have hnew : ∀ {f}, (own' f).isKernel → own' f = .unmanaged := by
    intro f hf
    have hsame := hkern f (.inr hf)
    rw [hsame] at hf ⊢
    exact bootOwners_kernel hf
  refine ⟨d, dropDir own' d, rfl, ⟨hsp.inv.dropDir hsp.dir ?_ hsp.unattached, ?_,
    h.procs.trans hsp.drift.procs⟩,
    ⟨?_, ?_, List.nodup_nil, fun _ hnil => (List.not_mem_nil hnil).elim, ?_⟩, hsup'⟩
  · intro v w hu
    rw [← entry_of_pte hu.2.2, honly.empty v hu.2.1]
    exact has_zero _
  · intro f hf
    obtain ⟨hdir, hne⟩ := dropDir_dir.1 hf
    have hold := hsp.keeps.dir f hdir
    rw [update_of_ne hne] at hold
    exact h.dirs f hold
  · intro f hlo hhi hun
    rw [dropDir_same hsp.dir (by simp) (by simp) (by simp)] at hun
    have hsame := hkern f (.inr (by rw [hun]; trivial))
    rw [hun, bootOwners, if_pos ⟨hlo, hhi⟩, if_pos hhi] at hsame
    cases hsame
  · intro f
    rw [dropDir_held]
    constructor
    · rintro (rfl | hheld | ⟨i, htab⟩)
      · exact .inl (.inl rfl)
      · have hun := hnew (f := f) (by rw [hheld]; trivial)
        rw [hheld] at hun
        cases hun
      · obtain ⟨-, hi⟩ := hsp.inv.tables.tab_dir d i f htab
        exact .inl (.inr ⟨i, hi, (hsp.inv.tables.tab_iff d i f hsp.dir hi).2 htab⟩)
    · rintro ((rfl | ⟨i, hi, htab⟩) | hnil)
      · exact .inl rfl
      · exact .inr (.inr ⟨i, (hsp.inv.tables.tab_iff d i f hsp.dir hi).1 htab⟩)
      · exact (List.not_mem_nil hnil).elim
  · intro f p hf
    rw [dropDir_same hsp.dir (by simp) (by simp) (by simp)] at hf
    have hun := hnew (f := f) (by rw [hf]; trivial)
    rw [hf] at hun
    cases hun

theorem Ledger.take {K : Kept} {f : Nat} (h : Ledger K own s) (hf : own f = .free ∨ own f = .user)
    (hmem : ∀ g, own g = .held → s'.mem g = s.mem g) (hprocs : SameProcs s s') :
    Ledger { K with pages := K.pages ++ [f] } (Function.update own f .held) s' := by
  have hnew : ¬ (InDir s K.kpgdir f ∨ f ∈ K.pages) := by grind [h.held]
  have hdir := InDir.congr (hmem _ h.kpgdir)
  refine ⟨fun g hlo hhi => ?_, fun g => ?_, ?_, fun g hg => ?_, fun g p hg => ?_⟩
  · grind [Function.update_apply, h.managed]
  · grind [Function.update_apply, h.held, List.mem_singleton]
  · grind [h.nodup, List.mem_singleton.1]
  · grind [h.apart]
  · have hgf : g ≠ f := by grind
    rw [update_of_ne hgf] at hg
    rw [hprocs.state, hprocs.proc p]
    exact h.kstacks g p hg

theorem Bare.startothers_spec {n : Nat} :
    ∀ {c : Nat} {K : Kept} {own : Owners} {s : Kernel}, Bare own s → Ledger K own s →
      Supply Mode.booting keep evict E (c + n) s →
      wp (startothers evict n) s (fun r s' => ∃ cpuStacks own', r = cpuStacks.map some ∧
        Bare own' s' ∧ Ledger { K with pages := K.pages ++ cpuStacks } own' s' ∧
        cpuStacks.length = n ∧ Supply Mode.booting keep evict E c s') E := by
  induction n with
  | zero =>
    intro c K own s h hl hsup
    exact ⟨[], own, rfl, h, by rw [List.append_nil]; exact hl, rfl, hsup⟩
  | succ n ih =>
    intro c K own s h hl hsup
    rw [startothers, wp_bind]
    refine wp_conseq (kalloc_spec (c := c + n) h.inv hsup) ?_
    rintro - s1 ⟨f, rfl, hf, hinv, hdrift, -, hsup1⟩
    rw [← hdrift.procs.attach] at hinv
    have hbare : Bare (update own f .held) s1 := by
      refine ⟨hinv, fun g hg => ?_, h.procs.trans hdrift.procs⟩
      by_cases hgf : g = f
      · grind
      · rw [update_of_ne hgf] at hg
        exact h.dirs g hg
    rw [wp_bind]
    refine wp_conseq (ih hbare (hl.take hf (fun g hg => hdrift.held g (.inl hg))
      hdrift.procs) hsup1) ?_
    rintro - s2 ⟨cpuStacks, own2, rfl, hbare2, hl2, hlen, hsup2⟩
    refine ⟨f :: cpuStacks, own2, rfl, hbare2, ?_, by rw [List.length_cons, hlen], hsup2⟩
    rw [List.append_assoc] at hl2
    exact hl2

/-! ### The first address space -/

theorem Built.wp_inituvm {c : Nat} {init : List Byte}
    (h : Built mode keep own0 own d Memory.empty s0 s) (hinit : init.length < PGSIZE)
    (hsup : Supply mode keep evict E (c + 2) s) :
    wp (inituvm evict d init) s (fun _ s' => (∃ own',
      Built mode keep own0 own' d ((Memory.empty.grow PGSIZE).copyIn 0 0 init) s0 s') ∧
      Supply mode keep evict E c s') E := by
  have hzero : (0 : Nat) < UPAGES := by decide
  have hnt : ¬ Tracked (attachOf s) d 0 := not_tracked h.unattached
  have hfree : has (entry s d 0) PTE_P = false := by
    rw [h.empty 0 (Nat.le_refl 0) hzero]
    exact has_zero _
  unfold inituvm
  rw [if_neg (by omega), wp_bind]
  have hmiss := missing_le_one s d 0
  refine wp_conseq (newPage_spec (c := c) h.inv h.dir hzero hfree hnt
    (hsup.mono (by omega))) ?_
  rintro - s1 ⟨f, rfl, hmap⟩
  simp only [memset, wp_bind, wp_modify]
  rw [Nat.zero_mul] at hmap
  refine wp_conseq hmap ?_
  rintro r - ⟨rfl, ptr, own2, s2, hfetch, hsup2, rfl⟩
  have hgrew := hfetch.grew h.dir hzero hfree hnt
  have hb : Built mode keep own0 _ d (Memory.empty.grow PGSIZE) s0 _ :=
    h.grow hgrew (by decide) (by decide)
  have hd2 := hfetch.retains.of_dir h.dir
  have hst := pteStore_storeWord hfetch.inv.tables hd2 (by decide) hfetch.slot (userWord f)
  have hentry : entry (s2.linked ptr (userWord f) f) d 0 = userWord f := by
    have hself := hst.entry_eq hd2 (by decide : 0 < 2 ^ 20)
    rwa [if_pos ⟨rfl, rfl⟩] at hself
  have hcopied := hb.copyIn 0 init (v := 0) (by decide)
  rw [hentry, (userWord_bits (nframes_lt hfetch.frame_lt)).1] at hcopied
  -- the copy comes before the count, and touches neither tables nor the reverse map
  have hmaps : SameMaps own2 (s2.storeWord ptr.table ptr.index (userWord f))
      ((s2.storeWord ptr.table ptr.index (userWord f)).copyIn f 0 init) :=
    sameMaps_setPage (by rw [hfetch.held]; exact id)
  have hT := (hfetch.inv.tables.store (SameMapRoles.refl own2) hst.table).congr
    (SameRoles.refl own2) hmaps
  rw [wp_walkpgdir hT (hfetch.inv.frames.congr rfl) hd2 (by decide), Nat.zero_div,
    hmaps.slot hd2, hst.slot hd2, hfetch.slot]
  simp only [nonNull, wp_pure]
  rw [wp_of_ok (incSharing_eq hfetch.frame_lt)]
  exact ⟨⟨_, hcopied⟩, hsup2.congr rfl⟩

/-! ### The first process -/

/-- The end of `userinit` and `initswap`. -/
def Kernel.started (s : Kernel) : Kernel :=
  { s.setProc 0 (fun pr => { pr with sz := PGSIZE, state := .runnable }) with
    swaparray := fun i =>
      if i < NSLOTS then { s.swaparray i with isFree := true, cnt := 0 } else s.swaparray i }

/-- The process table while the first process is made. -/
structure FirstProc (d f : Nat) (s : Kernel) : Prop where
  others : ∀ p, p ≠ 0 → s.proc p = { Kernel.zero.proc p with rss := (s.proc p).rss }
  self : s.proc 0 = ⟨0, (s.proc 0).rss, d, f, .embryo, 1, none, false⟩
  nextpid : s.nextpid = 2
  initproc : s.initproc = some 0

omit [KernelImage] in
theorem FirstProc.congr {f : Nat} (h : FirstProc d f s) (hprocs : SameProcs s s') :
    FirstProc d f s' where
  others p hp := by rw [hprocs.proc p, h.others p hp]
  self := by rw [hprocs.proc 0, h.self]
  nextpid := hprocs.nextpid.trans h.nextpid
  initproc := hprocs.initproc.trans h.initproc

omit [KernelImage] in
theorem FirstProc.started_self {f : Nat} (h : FirstProc d f s) :
    s.started.proc 0 = ⟨PGSIZE, (s.proc 0).rss, d, f, .runnable, 1, none, false⟩ := by
  have hupd : s.started.proc 0 = { s.proc 0 with sz := PGSIZE, state := .runnable } := by
    simp only [Kernel.started, Kernel.setProc, update_self]
  exact hupd.trans (by rw [h.self])

omit [KernelImage] in
theorem FirstProc.started_others {f p : Nat} (h : FirstProc d f s) (hp : p ≠ 0) :
    s.started.proc p = { Kernel.zero.proc p with rss := (s.proc p).rss } := by
  have hupd : s.started.proc p = s.proc p := update_of_ne hp _ _
  exact hupd.trans (h.others p hp)

omit [KernelImage] in
theorem FirstProc.attach {f p e z : Nat} (h : FirstProc d f s) :
    attachOf s.started p = some (e, z) ↔ p = 0 ∧ e = d ∧ z = PGSIZE := by
  rw [attachOf_eq_some]
  by_cases hp : p = 0
  · subst hp
    rw [h.started_self]
    constructor
    · grind
    · rintro ⟨-, rfl, rfl⟩
      exact ⟨by decide, rfl, rfl, rfl⟩
  · rw [h.started_others hp]
    refine iff_of_false ?_ fun hand => hp hand.1
    rintro ⟨-, hlive, -⟩
    cases hlive

theorem Built.started_inv {f : Nat} (h : Built Mode.booting keep own0 own d m s0 s)
    (hsize : m.sz = PGSIZE) (hfirst : FirstProc d f s) (hmode : mode.single = false) :
    Inv mode own (attachOf s.started) s.started := by
  have hfree : ∀ i, i < NSLOTS → (s.started.swaparray i).isFree = true ∧
      (s.started.swaparray i).cnt = 0 := by
    intro i hi
    simp only [Kernel.started, if_pos hi, and_self]
  have hpte : ∀ e u, pteOf s.started e u = pteOf s e u := pteOf_of_mem_eq rfl
  have hnotsw : ∀ p e z v w, attachOf s.started p = some (e, z) → v < UPAGES →
      pteOf s.started e v = some w → isSwapped w = false := by
    intro p e z v w hatt hv hw
    obtain ⟨-, rfl, -⟩ := hfirst.attach.1 hatt
    exact h.notSwapped hv (by rw [← hpte]; exact hw)
  refine ⟨h.inv.frames.congr rfl, h.inv.tables.congr (SameRoles.refl own) (sameMaps_of_mem rfl),
    h.inv.maps.congr h.inv.tables (SameRoles.refl own) (sameMaps_of_mem rfl) rfl,
    ⟨?_, ?_, ?_, ?_, ?_, fun i hi _ => (hfree i hi).2⟩, ?_, ?_, fun _ i hi => (hfree i hi).1,
    fun _ => ⟨?_, ?_⟩⟩
  · intro p e z hatt
    obtain ⟨-, rfl, -⟩ := hfirst.attach.1 hatt
    exact h.dir
  · intro p q e z z' hp hq
    rw [(hfirst.attach.1 hp).1, (hfirst.attach.1 hq).1]
  · intro p e z hatt
    obtain ⟨-, -, rfl⟩ := hfirst.attach.1 hatt
    decide
  · intro p e z v hatt hv
    obtain ⟨-, rfl, rfl⟩ := hfirst.attach.1 hatt
    obtain ⟨w, hw, hp, -⟩ := h.shows v (by rw [hsize]; exact lt_pagesOf.1 hv)
    exact ⟨w, by rw [hpte, hw], Or.inl hp⟩
  · intro p e z v w hatt hv hw hsw
    rw [hnotsw p e z v w hatt hv hw] at hsw
    exact Bool.noConfusion hsw
  · intro hm
    rw [hmode] at hm
    exact Bool.noConfusion hm
  · intro hm
    rw [hmode] at hm
    exact Bool.noConfusion hm
  · intro p e z v w hatt hv hw hsw
    rw [hnotsw p e z v w hatt hv hw] at hsw
    exact Bool.noConfusion hsw
  · intro i hi hbusy
    rw [(hfree i hi).1] at hbusy
    exact Bool.noConfusion hbusy

theorem Built.started {f : Nat} {init : List Byte}
    (h : Built Mode.booting keep own0 own d ((Memory.empty.grow PGSIZE).copyIn 0 0 init) s0 s)
    (hdirs : ∀ e, own0 e ≠ .dir) (hstack : own0 f = .stack 0) (hfirst : FirstProc d f s)
    (hmode : mode.single = false) (hkept : mode.kept = none) :
    Refines mode own s.started (Flat.boot init) := by
  have hproc : ∀ p, ((Flat.boot init).proc p).state = (s.started.proc p).state ∧
      ((Flat.boot init).proc p).pid = (s.started.proc p).pid ∧
      ((Flat.boot init).proc p).parent = (s.started.proc p).parent ∧
      ((Flat.boot init).proc p).killed = (s.started.proc p).killed := by
    intro p
    by_cases h0 : p = 0
    · subst h0
      rw [hfirst.started_self]
      exact ⟨rfl, rfl, rfl, rfl⟩
    · have hidle : (Flat.boot init).proc p = ⟨.unused, 0, none, false, Memory.empty⟩ := by
        simp only [Flat.boot, update_of_ne h0]
      rw [hfirst.started_others h0, hidle]
      exact ⟨rfl, rfl, rfl, rfl⟩
  refine ⟨⟨h.started_inv rfl hfirst hmode, ?_, ?_, ?_, ?_, ?_⟩, ⟨fun p => (hproc p).1,
    fun p => (hproc p).2.1, fun p => (hproc p).2.2.1, fun p => (hproc p).2.2.2,
    hfirst.nextpid.symm, hfirst.initproc.symm⟩, ?_⟩
  · intro p hp hused
    by_cases h0 : p = 0
    · subst h0
      rw [hfirst.started_self]
      exact h.retains.of_stack hstack
    · rw [hfirst.started_others h0] at hused
      exact (hused rfl).elim
  · intro e he
    have hold := h.keeps.dir e he
    by_cases hed : e = d
    · exact ⟨0, PGSIZE, hfirst.attach.2 ⟨rfl, hed, rfl⟩⟩
    · grind
  · intro p e z v hatt hz hv
    obtain ⟨-, rfl, rfl⟩ := hfirst.attach.1 hatt
    have hentry : entry s.started e v = entry s e v :=
      congrArg (fun x => x.getD 0) (pteOf_of_mem_eq rfl e v)
    have hpages : pagesOf PGSIZE ≤ v := not_lt.1 fun hlt => absurd (lt_pagesOf.2 hlt) (by omega)
    rw [hentry, h.empty v hpages hv]
    exact has_zero _
  · intro p hp
    by_cases h0 : p = 0
    · grind [hfirst.started_self]
    · rw [hfirst.started_others h0]
      exact fun hst => ProcState.noConfusion hst
  · grind
  · intro p e z hatt
    obtain ⟨rfl, rfl, rfl⟩ := hfirst.attach.1 hatt
    refine ⟨rfl, fun v hv => ?_⟩
    have hshows := (h.shows v (lt_pagesOf.1 hv)).sameView
    have hpte : pteOf s.started e v = pteOf s e v := pteOf_of_mem_eq rfl e v
    -- the page is present, so the slots do not matter
    obtain ⟨w, hw, hp, hU, hbytes⟩ := h.shows v (lt_pagesOf.1 hv)
    have hview : view s.started e v = view s e v := by
      rw [view_of_present hw hp, view_of_present (hpte.trans hw) hp]
      rfl
    rw [hview]
    exact hshows

theorem Space.rebase (h : Space mode keep own0 own d s0 s)
    (hinv : Inv mode own (attachOf s') s') (hatt : attachOf s' = attachOf s) :
    Space mode keep own0 own d s' s' where
  fresh := h.fresh
  detached p z := by
    rw [hatt]
    exact h.unattached p z
  keeps := h.keeps
  inv := hinv
  drift := drift_of_same hinv h.retains (SameProcs.refl s') (fun _ _ => rfl) (fun _ _ => rfl)
    rfl rfl rfl

theorem Bare.firstSlot (h : Bare own s) :
    firstSlot NPROC (fun p => decide ((s.proc p).state = .unused)) = some 0 := by
  have hall : (fun p => decide ((s.proc p).state = .unused)) = fun _ => true := by
    funext p
    rw [h.procs.state]
    rfl
  rw [hall]
  rfl

theorem Supply.of_booting {c : Nat} (h : Supply Mode.booting keep noEvict E c s) :
    Supply mode keep noEvict E c s := by
  refine h.imp id fun hev own s hinv hempty => ?_
  exact hev own s ⟨hinv.frames, hinv.tables, hinv.maps, hinv.procs,
    fun hm => Bool.noConfusion hm, fun hm => Bool.noConfusion hm,
    fun hm => Bool.noConfusion hm, fun hm => Bool.noConfusion hm⟩ hempty

/-- `userinit`, then `initswap`. -/
theorem Bare.userinit_spec {init : List Byte} {c : Nat} {K : Kept} (h : Bare own s)
    (hl : Ledger K own s) (hmode : mode.single = false) (hkept : mode.kept = none)
    (hinit : init.length < PGSIZE ∨ E (.panic .inituvm))
    (hsup : Supply Mode.booting true evict E (c + 13) s) :
    wp (userinit evict init) s (fun _ s' => wp initswap s' (fun _ s'' =>
      (∃ own', Refines mode own' s'' (Flat.boot init) ∧ Ledger K own' s'') ∧
      Supply Mode.booting true evict E c s'') E) E := by
  unfold userinit
  rw [wp_bind]
  refine wp_conseq (allocproc_spec (c := c + 12) h.inv rfl hsup) ?_
  rintro r s1 (⟨-, -, hnone⟩ | ⟨np, f, own1, rfl, hslot, hp, hsup1⟩)
  · rw [h.firstSlot] at hnone
    cases hnone
  rw [h.firstSlot] at hslot
  cases hslot
  simp only [wp_bind, wp_modify]
  have hinv2 : Inv Mode.booting own1 (attachOf { s1 with initproc := some 0 })
      { s1 with initproc := some 0 } :=
    hp.inv.withProc _ _ _ fun hm => Bool.noConfusion hm
  refine wp_conseq (setupkvm_spec (c := c + 2) hinv2 (hsup1.congr rfl)) ?_
  rintro r s3 ⟨d, own3, rfl, hsp, honly, hsup3⟩
  simp only [wp_bind, wp_modify]
  have hproc3 : ∀ p, s3.proc p = { s1.proc p with rss := (s3.proc p).rss } := hsp.drift.procs.proc
  have hstate3 : (s3.proc 0).state = .embryo := by rw [hproc3, hp.self]
  obtain ⟨s4, hs4⟩ : ∃ s4, s4 = s3.setProc 0 fun pr => { pr with pgdir := d } := ⟨_, rfl⟩
  rw [← hs4]
  have hatt4 : attachOf s4 = attachOf s3 := by
    rw [hs4]
    exact attachOf_setProc_idle (by rw [hstate3]; rfl) (by simp only [hstate3]; rfl)
  have hinv4 : Inv Mode.booting own3 (attachOf s4) s4 := by
    rw [hatt4, hs4]
    exact hsp.inv.withProc _ _ _ fun hm => Bool.noConfusion hm
  have hfirst : FirstProc d f s4 := by
    have hself : s4.proc 0 = { s3.proc 0 with pgdir := d } := by
      rw [hs4]
      simp only [Kernel.setProc, update_self]
    refine ⟨?_, ?_, ?_, ?_⟩
    · intro p h0
      have hother : s4.proc p = s3.proc p := by
        rw [hs4]
        exact update_of_ne h0 _ _
      rw [hother, hproc3, hp.others p h0, h.procs.proc p]
    · rw [hself, hproc3, hp.self, h.procs.proc 0, h.procs.nextpid]
      rfl
    · rw [hs4]
      exact hsp.drift.procs.nextpid.trans (hp.nextpid.trans (by rw [h.procs.nextpid]; rfl))
    · rw [hs4]
      exact hsp.drift.procs.initproc
  have hentry : ∀ u, entry s4 d u = entry s3 d u := fun u =>
    congrArg (fun x => x.getD 0) (pteOf_of_mem_eq (by rw [hs4]; rfl) d u)
  have honly4 : KernelOnly d s4 :=
    ⟨fun u hu => by rw [hentry, honly.empty u hu],
      fun u hlo hhi => by rw [hentry]; exact honly.device u hlo hhi⟩
  have hbuilt := built_empty (hsp.rebase hinv4 hatt4) honly4
  by_cases hlen : init.length < PGSIZE
  · refine wp_conseq (hbuilt.wp_inituvm (c := c) hlen (hsup3.congr (by rw [hs4]; rfl))) ?_
    rintro - s5 ⟨⟨own5, hb⟩, hsup5⟩
    have hfirst5 := hfirst.congr hb.pres.procs
    have hl5 : Ledger K own5 s5.started := by
      refine (hp.ledger hl).step hb.sameKernel (fun g hg => ?_) fun p _ hused => ?_
      · have hmem4 : s4.mem = s3.mem := by rw [hs4]; rfl
        have hmem5 : s5.started.mem g = s5.mem g := rfl
        rw [hmem5, hb.pres.held g (.inl hg), hmem4]
        exact hsp.drift.held g (.inl hg)
      · by_cases h0 : p = 0
        · subst h0
          rw [hfirst5.started_self, hp.self]
          exact ⟨fun hst => ProcState.noConfusion hst, rfl⟩
        · rw [hp.others p h0, h.procs.proc p] at hused
          exact (hused rfl).elim
    refine ⟨⟨own5, hb.started ?_ ?_ hfirst5 hmode hkept, hl5⟩, hsup5.congr rfl⟩
    · exact fun e he => h.dirs e (hp.dir.1 he)
    · rw [hp.owners]
      exact update_self _ _ _
  · rw [inituvm, if_pos (not_lt.1 hlen)]
    exact hinit.resolve_left hlen

/-- The machine comes up as the reference machine does, or has too little memory, and the
    kernel's own pages are the ones it says. -/
theorem bootPages_spec {otherCpus c : Nat} {init : List Byte} (hmode : mode.single = false)
    (hkept : mode.kept = none)
    (hinit : init.length < PGSIZE ∨ E (.panic .inituvm))
    (hmem : c + otherCpus + 23 ≤ NFRAMES - KernelImage.endPage ∨ E .noEvict) :
    wp (bootPages otherCpus init) Kernel.zero (fun K s =>
      (∃ own, Refines mode own s (Flat.boot init) ∧ Ledger K own s) ∧
      Supply mode true noEvict E c s) E := by
  unfold bootPages
  rw [wp_bind]
  refine wp_conseq freeAll_spec ?_
  rintro - s ⟨hbare, hlen⟩
  have hsup : Supply Mode.booting true noEvict E (c + 13 + otherCpus + 10) s :=
    hmem.imp (fun hle => by rw [hlen]; omega) fun hE => evictOk_noEvict hE
  rw [wp_bind]
  refine wp_conseq (hbare.setupkvm hsup) ?_
  rintro - s1 ⟨d, own1, rfl, hbare1, hl1, hsup1⟩
  rw [wp_bind]
  refine wp_conseq (hbare1.startothers_spec hl1 hsup1) ?_
  rintro - s2 ⟨cpuStacks, own2, rfl, hbare2, hl2, hlen2, hsup2⟩
  rw [wp_bind]
  refine wp_conseq (hbare2.userinit_spec hl2 hmode hkept hinit hsup2) fun _ s3 h3 => ?_
  rw [wp_bind]
  refine wp_conseq h3 fun _ s4 h4 => ?_
  have hpages : (cpuStacks.map some).filterMap id = cpuStacks := by simp
  rw [wp_pure, hpages]
  exact ⟨h4.1, h4.2.of_booting⟩

theorem boot_spec {otherCpus c : Nat} {init : List Byte} (hmode : mode.single = false)
    (hkept : mode.kept = none)
    (hinit : init.length < PGSIZE ∨ E (.panic .inituvm))
    (hmem : c + otherCpus + 23 ≤ NFRAMES - KernelImage.endPage ∨ E .noEvict) :
    wp (boot otherCpus init) Kernel.zero (fun _ s => (∃ own, Refines mode own s (Flat.boot init)) ∧
      Supply mode true noEvict E c s) E := by
  rw [boot_eq, wp_bind]
  refine wp_conseq (bootPages_spec hmode hkept hinit hmem) ?_
  rintro K s ⟨⟨own, href, -⟩, hsup⟩
  exact ⟨⟨own, href⟩, hsup⟩

/-- An image of 168 pages of data. -/
@[reducible] def KernelImage.sample : KernelImage where
  dataPage := 264
  endPage := 432
  text_pos := by decide
  data_le := by decide
  end_lt := by decide

end CowPaging
