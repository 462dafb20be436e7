import CowPaging.Refine

/-!
# `sbrk` and `exec` against the reference machine

Both exchange the memory of the caller. Growth keeps the caller attached while it
allocates, so its own pages may be evicted; shrinking and the end of `exec` first
detach the address space that is taken apart.
-/

namespace CowPaging

open Bytes StateExcept SlotTable
open Function (update_of_ne update_self update_idem update_eq_self update)

variable [KernelImage] {mode : Mode} {keep : Bool} {evict : K Unit} {E : Halt → Prop}
  {own own' : Owners} {att : Attach} {s s' : Kernel} {d z v : Nat} {m : Flat}

/-! ### Growth -/

omit [KernelImage] in
theorem SlotExact.resize {p z' : Nat} (h : SlotExact att s) (hatt : att p = some (d, z))
    (hin : ∀ v w, v < UPAGES → pteOf s d v = some w → isSwapped w = true → v * PGSIZE < z') :
    SlotExact (update att p (some (d, z'))) s where
  tracked q e y v w hq hv hw hsw := by
    by_cases hqp : q = p
    · subst hqp
      rw [update_self] at hq
      cases hq
      exact hin v w hv hw hsw
    · rw [update_of_ne hqp] at hq
      exact h.tracked q e y v w hq hv hw hsw
  used i hi hbusy := by
    obtain ⟨q, e, y, v, w, hq, hv, hw, hsw, hf⟩ := h.used i hi hbusy
    by_cases hqp : q = p
    · subst hqp
      obtain ⟨rfl, rfl⟩ := Prod.mk.inj (Option.some.inj (hq.symm.trans hatt))
      exact ⟨q, e, z', v, w, update_self _ _ _, hv, hw, hsw, hf⟩
    · exact ⟨q, e, y, v, w, by rw [update_of_ne hqp, hq], hv, hw, hsw, hf⟩

theorem Inv.resize {p z' : Nat} (h : Inv mode own att s) (hatt : att p = some (d, z))
    (hsize : z' ≤ KERNBASE)
    (hpage : ∀ v, v * PGSIZE < z' →
      ∃ w, pteOf s d v = some w ∧ (has w PTE_P = true ∨ isSwapped w = true))
    (hin : mode.strict = true → ∀ v w, v < UPAGES → pteOf s d v = some w →
      isSwapped w = true → v * PGSIZE < z') :
    Inv mode own (update att p (some (d, z'))) s := by
  have hidem : update (update att p none) p (some (d, z')) =
      update att p (some (d, z')) := update_idem _ _ _
  rw [← hidem]
  refine (h.detach p).attach (h.procs.dir p d z hatt) ?_ hsize hpage ?_ ?_
  · intro q y hqp hq
    rw [update_of_ne hqp] at hq
    exact hqp (h.procs.inj _ _ _ _ _ hq hatt)
  · exact fun v w hv hw hsw => h.procs.slot p d z v w hatt hv hw hsw
  · intro hm
    rw [hidem]
    exact (h.slots hm).resize hatt (hin hm)

theorem Inv.commit (hrun : Runs s s.cur)
    (h : Inv mode own (update (attachOf s) s.cur (some (d, z))) s) :
    Inv mode own (attachOf (s.commit d z)) (s.commit d z) := by
  rw [attachOf_commit hrun]
  refine h.withProc s.nextpid s.cur s.initproc
    fun hm => ⟨(h.idle hm).1, fun p hp hlive => ?_⟩
  simp only at hlive ⊢
  by_cases hpc : p = s.cur
  · subst hpc
    have hl := (attachOf_eq_some.1 hrun.live).2.1
    rw [update_self] at hlive
    simp only at hlive
    rw [hl] at hlive
    cases hlive
  · rw [update_of_ne hpc] at hlive ⊢
    exact (h.idle hm).2 p hp hlive

omit [KernelImage] in
theorem commit_size (s : Kernel) (sz : Nat) :
    (s.setProc s.cur fun pr => { pr with sz := sz }) = s.commit (s.proc s.cur).pgdir sz := rfl

omit [KernelImage] in
theorem Runs.congr (h : Runs s s.cur) (hprocs : SameProcs s s') : Runs s' s'.cur := by
  rw [hprocs.cur]
  exact ⟨h.1, by rw [hprocs.state]; exact h.2⟩

omit [KernelImage] in
theorem Preserves.sameView {own1 : Owners} (h : Preserves own1 att s s') (hd : own1 d = .dir)
    (hv : v < UPAGES) (hvis : Visible att s d v) : SameView (view s d v) (view s' d v) :=
  (h.seen d v hd hv hvis).2

/-- The pages up to `newsz` were mapped; the caller takes the new size. -/
theorem Refines.grown {newsz : Nat} (h : Refines mode own s m) (hrun : Runs s s.cur)
    (hlt : newsz < KERNBASE) (hle : (s.proc s.cur).sz ≤ newsz)
    (hg : Grew mode keep own own' (s.proc s.cur).pgdir (pagesOf (s.proc s.cur).sz) (pagesOf newsz)
      s s') :
    Refines mode own' (s'.setProc s'.cur fun pr => { pr with sz := newsz })
      (m.setMemory s.cur ((m.proc s.cur).memory.grow newsz)) := by
  have hlive := hrun.live
  generalize hd : (s.proc s.cur).pgdir = d at *
  generalize hz : (s.proc s.cur).sz = z at *
  have hbacks := h.memory _ _ _ hlive
  have hrun' := hrun.congr hg.pres.procs
  have hcur := hg.pres.procs.cur
  have hatt := hg.pres.procs.attach
  have hpgdir : (s'.proc s'.cur).pgdir = d := by rw [hcur, hg.pres.procs.pgdir, hd]
  have hup := pagesOf_le (Nat.le_of_lt hlt)
  have hinv : Inv mode own' (attachOf s) s' := hg.inv
  have hresize : Inv mode own' (update (attachOf s') s'.cur (some (d, newsz))) s' := by
    rw [hatt, hcur]
    refine hinv.resize hlive (Nat.le_of_lt hlt) ?_ ?_
    · intro v hv
      by_cases hold : v * PGSIZE < z
      · exact hinv.procs.page _ d z v hlive hold
      · obtain ⟨w, hw, hp, -, -⟩ := hg.zeroed v (Nat.le_of_not_lt fun hx => hold (lt_pagesOf.2 hx))
          (lt_pagesOf.1 hv)
        exact ⟨w, hw, .inl hp⟩
    · intro hm v w hv hw hsw
      exact Nat.lt_of_lt_of_le ((hinv.slots hm).tracked _ d z v w hlive hv hw hsw) hle
  rw [commit_size, hpgdir]
  have hprocs : SameProcs (s.commit d newsz) (s'.commit d newsz) := hg.pres.procs.commit
  have hview : ∀ e u, view (s'.commit d newsz) e u = view s' e u := fun e u =>
    view_congr (pteOf_of_mem_eq rfl e u) (fun _ _ _ => rfl) (fun _ => rfl) rfl
  have hentry : ∀ e u, entry (s'.commit d newsz) e u = entry s' e u := fun e u =>
    congrArg (fun x => x.getD 0) (pteOf_of_mem_eq rfl e u)
  refine h.commit hrun hprocs (hresize.commit hrun') ?_ ?_ ?_ ?_ ?_ ?_ ⟨rfl, ?_⟩
  · exact hg.keeps.sameKernel
  · exact fun f hf => hg.pres.held f (.inl hf)
  · intro e he hne
    exact ⟨hg.keeps.dir e he, by rw [hd]; exact hne⟩
  · intro v hv hvu
    have hge : pagesOf newsz ≤ v := Nat.le_of_not_lt fun hx =>
      absurd (lt_pagesOf.2 hx) (Nat.not_lt.2 hv)
    have hnt := h.kinv.not_tracked (v := v) hlive (Nat.le_trans hle hv)
    rw [hentry, (hg.rest v (.inr hge) (upages_lt hvu) hnt).present]
    exact h.kinv.above _ d z v hlive (Nat.le_trans hle hv) hvu
  · rw [hd]
    intro e u he hu hnt hne habs
    rw [hentry]
    exact hg.quiet e u he hu hnt hne habs
  · intro e u he hne hu hvis
    rw [hview]
    exact hg.pres.sameView he hu hvis
  · intro v hv
    rw [hview]
    simp only [Memory.grow, hbacks.size]
    by_cases hold : v < pagesOf z
    · rw [if_pos hold, if_pos hold]
      have hvz := lt_pagesOf.2 hold
      obtain ⟨hdir, hu, hvis⟩ := h.kinv.inv.visible hlive hvz
      exact (hbacks.seen v hvz).trans (hg.pres.sameView hdir hu hvis)
    · rw [if_neg hold, if_neg hold]
      exact (hg.zeroed v (Nat.le_of_not_lt hold) (lt_pagesOf.1 hv)).sameView

/-! ### Shrinking -/

/-- No page above `z` of the caller is in a swap slot. -/
def Unswapped (s : Kernel) (d z : Nat) : Prop :=
  ∀ v w, z ≤ v * PGSIZE → v < UPAGES → pteOf s d v = some w → isSwapped w = false

omit [KernelImage] in
theorem Unmaps.swapped {own1 : Owners} {X : Nat → Prop} {w : Word}
    (h : Unmaps own own1 d X s s') (hv : v < 2 ^ 20) (hw : pteOf s' d v = some w)
    (hsw : isSwapped w = true) : pteOf s d v = some w := by
  rcases h.pte v hv with heq | ⟨-, hzero⟩
  · rw [← heq, hw]
  · rw [hw] at hzero
    rw [Option.some.inj hzero] at hsw
    exact absurd hsw (by decide)

/-- The pages above `newsz` were unmapped; the caller takes the new size. -/
theorem Refines.shrunk {newsz : Nat} (h : Refines mode own s m) (hrun : Runs s s.cur)
    (hlt : newsz < (s.proc s.cur).sz)
    (hslots : mode.strict = true → Unswapped s (s.proc s.cur).pgdir newsz)
    (hinv : Inv mode.lax own' (update (attachOf s) s.cur none) s')
    (hun : Unmaps own own' (s.proc s.cur).pgdir (fun u => pagesOf newsz ≤ u) s s')
    (habs : ∀ u, pagesOf newsz ≤ u → u < pagesOf (s.proc s.cur).sz →
      has (entry s' (s.proc s.cur).pgdir u) PTE_P = false) :
    Refines mode own' (s'.setProc s'.cur fun pr => { pr with sz := newsz })
      (m.setMemory s.cur { (m.proc s.cur).memory with sz := newsz }) := by
  have hlive := hrun.live
  generalize hd : (s.proc s.cur).pgdir = d at *
  generalize hz : (s.proc s.cur).sz = z at *
  have hbacks := h.memory _ _ _ hlive
  have hdir := h.kinv.inv.procs.dir _ d z hlive
  have hsize := h.kinv.inv.procs.size _ d z hlive
  have hrun' := hrun.congr hun.procs
  have hcur := hun.procs.cur
  have hpgdir : (s'.proc s'.cur).pgdir = d := by rw [hcur, hun.procs.pgdir, hd]
  have hlow : ∀ {v}, v * PGSIZE < newsz → pteOf s' d v = pteOf s d v := by
    intro v hv
    have hvp := lt_pagesOf.1 hv
    have hup := pagesOf_le (Nat.le_trans (Nat.le_of_lt hlt) hsize)
    exact (hun.pte v (upages_lt (Nat.lt_of_lt_of_le hvp hup))).resolve_right
      fun hx => absurd hx.1 (Nat.not_le.2 hvp)
  have hne_other : ∀ {q e y}, q ≠ s.cur → attachOf s q = some (e, y) → e ≠ d := by
    rintro q e y hq hatt rfl
    exact hq (h.kinv.inv.procs.inj _ _ _ _ _ hatt hlive)
  have hattached : Inv mode own' (update (attachOf s') s'.cur (some (d, newsz))) s' := by
    have hidem : update (update (attachOf s) s.cur none) s.cur
        (some (d, newsz)) = update (attachOf s) s.cur (some (d, newsz)) :=
      update_idem _ _ _
    rw [hun.procs.attach, hcur, ← hidem]
    refine hinv.attach (hun.dir hdir).1 ?_ (by omega) ?_ ?_ ?_
    · intro q y hq hatt
      rw [update_of_ne hq] at hatt
      exact hne_other hq hatt rfl
    · intro v hv
      rw [hlow hv]
      exact h.kinv.inv.procs.page _ d z v hlive (Nat.lt_trans hv hlt)
    · intro v w hv hw hsw
      have hw0 := hun.swapped (upages_lt hv) hw hsw
      obtain ⟨hs, hb, hc, hpte, hp, hpp, hps⟩ := h.kinv.inv.procs.slot _ d z v w hlive hv hw0 hsw
      refine ⟨hs, ?_, ?_, ?_, ?_, ?_, ?_⟩ <;> rw [hun.slots]
      · exact hb
      · exact hc
      · rw [hun.slot hdir]
        exact hpte
      · exact hp
      · exact hpp
      · exact hps
    · intro hm
      rw [hidem]
      have hexact := h.kinv.inv.slots hm
      have hin := hslots hm
      refine ⟨?_, ?_⟩
      · intro q e y v w hq hv hw hsw
        by_cases hqc : q = s.cur
        · subst hqc
          rw [update_self] at hq
          cases hq
          have hw0 := hun.swapped (upages_lt hv) hw hsw
          by_contra hge
          rw [hin v w (Nat.le_of_not_lt hge) hv hw0] at hsw
          cases hsw
        · rw [update_of_ne hqc] at hq
          rw [hun.pte_other h.kinv.inv.tables (h.kinv.inv.procs.dir q e y hq) (hne_other hqc hq)
            (upages_lt hv)] at hw
          exact hexact.tracked q e y v w hq hv hw hsw
      · intro i hi hbusy
        rw [hun.slots] at hbusy
        obtain ⟨q, e, y, v, w, hq, hv, hw, hsw, hf⟩ := hexact.used i hi hbusy
        by_cases hqc : q = s.cur
        · subst hqc
          obtain ⟨rfl, rfl⟩ := Prod.mk.inj (Option.some.inj (hq.symm.trans hlive))
          have hvn : v * PGSIZE < newsz := by
            by_contra hge
            rw [hin v w (Nat.le_of_not_lt hge) hv hw] at hsw
            cases hsw
          exact ⟨_, e, newsz, v, w, update_self _ _ _, hv, by rw [hlow hvn, hw], hsw, hf⟩
        · refine ⟨q, e, y, v, w, by rw [update_of_ne hqc, hq], hv, ?_, hsw, hf⟩
          rw [hun.pte_other h.kinv.inv.tables (h.kinv.inv.procs.dir q e y hq) (hne_other hqc hq)
            (upages_lt hv), hw]
  rw [commit_size, hpgdir]
  have hprocs : SameProcs (s.commit d newsz) (s'.commit d newsz) := hun.procs.commit
  have hview : ∀ e u, view (s'.commit d newsz) e u = view s' e u := fun e u =>
    view_congr (pteOf_of_mem_eq rfl e u) (fun _ _ _ => rfl) (fun _ => rfl) rfl
  have hentry : ∀ e u, entry (s'.commit d newsz) e u = entry s' e u := fun e u =>
    congrArg (fun x => x.getD 0) (pteOf_of_mem_eq rfl e u)
  refine h.commit hrun hprocs (hattached.commit hrun') ?_ ?_ ?_ ?_ ?_ ?_ ⟨rfl, ?_⟩
  · exact hun.sameKernel
  · exact fun f hf => hun.held hf
  · intro e he hne
    rcases hun.roles e with heq | ⟨-, hfree⟩
    · exact ⟨by rw [← heq, he], by rw [hd]; exact hne⟩
    · rw [hfree] at he
      cases he
  · intro v hv hvu
    have hge : pagesOf newsz ≤ v := Nat.le_of_not_lt fun hx =>
      absurd (lt_pagesOf.2 hx) (Nat.not_lt.2 hv)
    rw [hentry]
    by_cases hvz : v < pagesOf z
    · exact habs v hge hvz
    · rcases hun.pte v (upages_lt hvu) with heq | ⟨-, hzero⟩
      · rw [entry, heq]
        exact h.kinv.above _ d z v hlive (Nat.le_of_not_lt fun hx => hvz (lt_pagesOf.1 hx)) hvu
      · rw [entry_of_pte hzero, has_zero]
  · rw [hd]
    intro e u he hu _ hne habs'
    rw [hentry, entry, hun.pte_other h.kinv.inv.tables he hne (upages_lt hu)]
    exact habs'
  · intro e u he hne hu hvis
    rw [hd] at hne
    obtain ⟨x, hx⟩ := h.kinv.inv.view_some hvis
    refine SameView.of_eq hx ?_
    rw [hview]
    exact hun.view hinv he hu (hun.pte_other h.kinv.inv.tables he hne (upages_lt hu))
  · intro v hv
    have hvz := Nat.lt_trans hv hlt
    obtain ⟨-, hu, hvis⟩ := h.kinv.inv.visible hlive hvz
    obtain ⟨x, hx⟩ := h.kinv.inv.view_some hvis
    refine (hbacks.seen v hvz).trans (SameView.of_eq hx ?_)
    rw [hview]
    exact hun.view hinv hdir hu (hlow hv)

/-! ### `growproc` -/

omit [KernelImage] in
theorem setSize_self (s : Kernel) :
    (s.setProc s.cur fun pr => { pr with sz := (s.proc s.cur).sz }) = s := by
  have hproc : update s.proc s.cur (s.proc s.cur) = s.proc :=
    update_eq_self _ _
  calc (s.setProc s.cur fun pr => { pr with sz := (s.proc s.cur).sz })
      = { s with proc := update s.proc s.cur (s.proc s.cur) } := rfl
    _ = s := by rw [hproc]

theorem Refines.grown_none {lo : Nat} (h : Refines mode own s m)
    (hg : Grew mode keep own own' (s.proc s.cur).pgdir lo lo s s') : Refines mode own' s' m := by
  refine h.step (X := fun _ _ => False) hg.keeps hg.inv hg.pres ?_ fun _ _ hx => hx.elim
  intro e u he hu hnt _ habs
  by_cases hed : e = (s.proc s.cur).pgdir
  · subst hed
    rw [(hg.rest u (by omega) (upages_lt hu) hnt).present, habs]
  · exact hg.quiet e u he hu hnt hed habs

theorem Refines.sbrk_grow {n : Int} (hev : EvictOk mode keep evict E)
    (h : Refines mode own s m) (hrun : Runs s s.cur) (hn : 0 < n) :
    wp (growproc evict n) s (fun r s' => ∃ own',
      Refines mode own' s' (m.setMemory s.cur ((m.proc s.cur).memory.sbrk n).2) ∧
      r = ((m.proc s.cur).memory.sbrk n).1) E := by
  have hlive := hrun.live
  have hsz := (h.memory _ _ _ hlive).size
  have hself := m.setMemory_self s.cur
  unfold growproc Memory.sbrk
  simp only [wp_bind, wp_get, if_pos hn, hsz]
  generalize addSigned (s.proc s.cur).sz n = newsz
  refine wp_conseq (allocuvm_spec hev h.kinv.inv (h.kinv.inv.procs.dir _ _ _ hlive) ?_ ?_) ?_
  · intro u hu hlt
    exact h.kinv.above _ _ _ u hlive
      (Nat.le_of_not_lt fun hx => absurd (lt_pagesOf.1 hx) (Nat.not_lt.2 hu)) hlt
  · intro u hu
    exact h.kinv.not_tracked hlive
      (Nat.le_of_not_lt fun hx => absurd (lt_pagesOf.1 hx) (Nat.not_lt.2 hu))
  rintro r s' (⟨hbig, rfl, rfl⟩ | ⟨hlt, hsmall, rfl, rfl⟩ | ⟨hlt, hle, rfl, own', hg⟩)
  · rw [if_pos rfl, Memory.alloc, if_pos hbig]
    exact ⟨own, by rw [hself]; exact h, rfl⟩
  · have hne : (s'.proc s'.cur).sz ≠ 0 := by omega
    rw [if_neg hne, Memory.alloc, if_neg (Nat.not_le.2 hlt), hsz, if_pos hsmall]
    simp only [wp_bind, wp_modify, setSize_self]
    exact ⟨own, by rw [hself]; exact h, rfl⟩
  · rw [Memory.alloc, if_neg (Nat.not_le.2 hlt), hsz, if_neg (Nat.not_lt.2 hle)]
    by_cases hzero : r = 0
    · rw [if_pos hzero, if_pos hzero]
      have hold : (s.proc s.cur).sz = 0 := by omega
      rw [hold, hzero] at hg
      exact ⟨own', by rw [hself]; exact h.grown_none hg, rfl⟩
    · rw [if_neg hzero, if_neg hzero]
      exact ⟨own', h.grown hrun hlt hle hg, rfl⟩

theorem Refines.sbrk_shrink {n : Int} (h : Refines mode own s m) (hrun : Runs s s.cur)
    (hn : n < 0) (hpos : addSigned (s.proc s.cur).sz n ≠ 0)
    (hslots : mode.strict = true →
      Unswapped s (s.proc s.cur).pgdir (addSigned (s.proc s.cur).sz n)) :
    wp (growproc evict n) s (fun r s' => ∃ own',
      Refines mode own' s' (m.setMemory s.cur ((m.proc s.cur).memory.sbrk n).2) ∧
      r = ((m.proc s.cur).memory.sbrk n).1) E := by
  have hlive := hrun.live
  have hsz := (h.memory _ _ _ hlive).size
  have hself := m.setMemory_self s.cur
  have hnp : ¬ 0 < n := by omega
  unfold growproc Memory.sbrk
  simp only [wp_bind, wp_get, if_neg hnp, if_pos hn, hsz, deallocuvm, deallocuvm2]
  generalize addSigned (s.proc s.cur).sz n = newsz at *
  by_cases hge : (s.proc s.cur).sz ≤ newsz
  · simp only [if_pos hge, wp_pure]
    by_cases hzero : (s.proc s.cur).sz = 0
    · rw [if_pos hzero, if_pos hzero]
      exact ⟨own, by rw [hself]; exact h, rfl⟩
    · rw [if_neg hzero, if_neg hzero]
      simp only [wp_bind, wp_modify, setSize_self]
      exact ⟨own, by rw [hself]; exact h, rfl⟩
  simp only [if_neg hge, wp_bind, if_neg hpos]
  have hstart : PGROUNDUP newsz = pagesOf newsz * PGSIZE := by
    simp only [pagesOf, PGROUNDUP, PGSIZE]
    omega
  rw [hstart]
  refine wp_conseq (deallocuvmLoop_spec (h.kinv.inv.procs.size _ _ _ hlive) ?_
    (h.kinv.inv.detach s.cur) (h.kinv.inv.procs.dir _ _ _ hlive) (Nat.le_add_left _ _)) ?_
  · intro p y hp
    by_cases hpc : p = s.cur
    · subst hpc
      rw [update_self] at hp
      cases hp
    · rw [update_of_ne hpc] at hp
      exact hpc (h.kinv.inv.procs.inj _ _ _ _ _ hp hlive)
  · rintro - s' ⟨own', hinv, hun, habs⟩
    simp only [wp_pure, if_neg hpos, wp_bind, wp_modify]
    exact ⟨own', h.shrunk hrun (Nat.lt_of_not_le hge) hslots hinv
      (hun.mono fun _ _ hu => hu.1) habs, trivial⟩

theorem Refines.wp_growproc {n : Int} (hev : EvictOk mode keep evict E) (h : Refines mode own s m)
    (hrun : Runs s s.cur) (hpos : n < 0 → addSigned (s.proc s.cur).sz n ≠ 0)
    (hslots : mode.strict = true → n < 0 →
      Unswapped s (s.proc s.cur).pgdir (addSigned (s.proc s.cur).sz n)) :
    wp (growproc evict n) s (fun r s' => ∃ own',
      Refines mode own' s' (m.setMemory s.cur ((m.proc s.cur).memory.sbrk n).2) ∧
      r = ((m.proc s.cur).memory.sbrk n).1) E := by
  rcases Int.lt_trichotomy n 0 with hn | rfl | hn
  · exact h.sbrk_shrink hrun hn (hpos hn) fun hm => hslots hm hn
  · exact ⟨own, by rw [Memory.sbrk]; simpa [m.setMemory_self] using h, rfl⟩
  · exact h.sbrk_grow hev hrun hn

/-! ### `exec` -/

theorem Built.notSwapped {own0 : Owners} {s0 : Kernel} {mem : Memory} {w : Word}
    (h : Built mode keep own0 own d mem s0 s) (hv : v < UPAGES) (hw : pteOf s d v = some w) :
    isSwapped w = false := by
  by_cases hlt : v < pagesOf mem.sz
  · have hp := (h.upte hlt).2.1
    rw [entry_of_pte hw] at hp
    exact isSwapped_of_present hp
  · have hzero := h.empty v (Nat.le_of_not_lt hlt) hv
    rw [entry_of_pte hw] at hzero
    rw [hzero]
    decide

omit [KernelImage] in
theorem Unswapped.sim (h : Unswapped s d z)
    (hsim : ∀ v, v < 2 ^ 20 → PteSim (entry s' d v) (entry s d v)) : Unswapped s' d z := by
  intro v w hz hv hw
  have hs := hsim v (upages_lt hv)
  rw [entry_of_pte hw] at hs
  cases hpte : pteOf s d v with
  | none =>
    rw [entry_of_none hpte] at hs
    rw [hs.eq_of_absent (has_zero _)]
    decide
  | some w0 =>
    rw [entry_of_pte hpte] at hs
    have hold := h v w0 hz hv hpte
    rw [isSwapped, has_P, has_S] at hold ⊢
    rw [hs.bit (by decide), hs.bit (by decide), hold]

/-- The image is complete: the caller moves to the new directory, and the old one is
    detached. -/
theorem Built.attach {s0 : Kernel} {own0 : Owners} {mem : Memory}
    (h : Built mode keep own0 own d mem s0 s) (hrun : Runs s s.cur)
    (hslots : mode.strict = true → Unswapped s (s.proc s.cur).pgdir 0) :
    Inv mode own (attachOf (s.commit d mem.sz)) (s.commit d mem.sz) := by
  refine Inv.commit hrun ?_
  have hidem : update (update (attachOf s) s.cur none) s.cur
      (some (d, mem.sz)) = update (attachOf s) s.cur (some (d, mem.sz)) :=
    update_idem _ _ _
  rw [← hidem]
  have hnotsw := fun v w hv hw => h.notSwapped (v := v) (w := w) hv hw
  refine (h.inv.detach s.cur).attach h.dir ?_ h.size ?_ ?_ ?_
  · intro q y hq hatt
    rw [update_of_ne hq] at hatt
    exact h.unattached q y hatt
  · intro v hv
    obtain ⟨w, hw, hp, -⟩ := h.shows v (lt_pagesOf.1 hv)
    exact ⟨w, hw, .inl hp⟩
  · intro v w hv hw hsw
    rw [hnotsw v w hv hw] at hsw
    cases hsw
  · intro hm
    rw [hidem]
    have hexact := h.inv.slots hm
    refine ⟨?_, ?_⟩
    · intro q e y v w hq hv hw hsw
      by_cases hqc : q = s.cur
      · subst hqc
        rw [update_self] at hq
        cases hq
        rw [hnotsw v w hv hw] at hsw
        cases hsw
      · rw [update_of_ne hqc] at hq
        exact hexact.tracked q e y v w hq hv hw hsw
    · intro i hi hbusy
      obtain ⟨q, e, y, v, w, hq, hv, hw, hsw, hf⟩ := hexact.used i hi hbusy
      refine ⟨q, e, y, v, w, ?_, hv, hw, hsw, hf⟩
      rw [update_of_ne ?_, hq]
      rintro rfl
      obtain ⟨rfl, rfl⟩ := Prod.mk.inj (Option.some.inj (hq.symm.trans hrun.live))
      rw [hslots hm v w (Nat.zero_le _) hv hw] at hsw
      cases hsw

/-- A failed `exec` leaves the caller and everybody else alone. -/
theorem Refines.discarded {own1 : Owners} {s1 : Kernel} {mem : Memory}
    (h : Refines mode own s m) (hb : Built mode keep own own1 d mem s s1)
    (hinv : Inv mode own' (attachOf s1) s') (hfs : FreedSpace own1 own' d s1 s') :
    Refines mode own' s' m := by
  have hprocs : SameProcs s s' := hb.pres.procs.trans hfs.only.procs
  have hatt := hb.pres.procs.attach
  have hd1 : ∀ {e}, own e = .dir → own1 e = .dir ∧ e ≠ d := fun he =>
    ⟨hb.retains.of_dir he, fun heq => hb.not_dir (heq ▸ he)⟩
  have hpte : ∀ e u, own e = .dir → u < 2 ^ 20 → pteOf s' e u = pteOf s1 e u :=
    fun e u he hu => hfs.pte hb.inv.tables hb.dir (hd1 he).1 (hd1 he).2 hu
  have hkern : SameKernel own own' := hb.sameKernel.trans (hfs.sameKernel hb.dir)
  refine ⟨⟨?_, ?_, ?_, ?_, ?_, ?_⟩, h.table.congr hprocs, ?_⟩
  · rw [hprocs.attach, ← hatt]
    exact hinv
  · intro p hp hstate
    rw [hprocs.state] at hstate
    rw [hprocs.proc p]
    exact hkern.of_stack (h.kinv.kstack p hp hstate)
  · intro e he
    have hne : e ≠ d := by
      rintro rfl
      rw [hfs.gone] at he
      cases he
    have he1 : own1 e = .dir := by
      rw [← hfs.roles e (by rw [he]; simp), he]
    have hold := hb.keeps.dir e he1
    rw [update_of_ne hne] at hold
    rw [hprocs.attach]
    exact h.kinv.attached e hold
  · intro p e y v hp hz hv
    rw [hprocs.attach] at hp
    have he := h.kinv.inv.procs.dir p e y hp
    rw [entry, hpte e v he (upages_lt hv)]
    exact hb.quiet e v he hv (h.kinv.not_tracked hp hz) id (h.kinv.above p e y v hp hz hv)
  · intro p hp
    rw [hprocs.state]
    exact h.kinv.settled p hp
  · intro K hK
    refine (h.kinv.ledger K hK).congr hkern (fun f hf => ?_) hprocs
    rw [hfs.held hb.dir (hb.retains.of_held hf), hb.pres.held f (.inl hf)]
  · intro p e y hp
    rw [hprocs.attach] at hp
    refine (h.memory p e y hp).congr fun v hv => ?_
    obtain ⟨hdir, hu, hvis⟩ := h.kinv.inv.visible hp hv
    rw [hfs.view hb.inv hinv hb.dir (hd1 hdir).1 (hd1 hdir).2 hu]
    exact hb.pres.sameView hdir hu hvis

theorem Refines.replaced {own1 : Owners} {s1 : Kernel} {mem : Memory}
    (h : Refines mode own s m) (hrun : Runs s s.cur)
    (hb : Built mode keep own own1 d mem s s1)
    (hinv1 : Inv mode own1 (attachOf (s1.commit d mem.sz)) (s1.commit d mem.sz))
    (hinv : Inv mode own' (attachOf (s1.commit d mem.sz)) s')
    (hfs : FreedSpace own1 own' (s.proc s.cur).pgdir (s1.commit d mem.sz) s') :
    Refines mode own' s' (m.setMemory s.cur mem) := by
  have hlive := hrun.live
  generalize hD : (s.proc s.cur).pgdir = D at *
  have hdirD := h.kinv.inv.procs.dir _ D _ hlive
  have hD1 := hb.retains.of_dir hdirD
  have hneD : D ≠ d := fun heq => hb.not_dir (heq ▸ hdirD)
  have hprocs1 : SameProcs (s.commit d mem.sz) (s1.commit d mem.sz) := hb.pres.procs.commit
  have hprocs : SameProcs (s.commit d mem.sz) s' := hprocs1.trans hfs.only.procs
  have hT : TableInv own1 (s1.commit d mem.sz) := hinv1.tables
  have hpte : ∀ e u, own1 e = .dir → e ≠ D → u < 2 ^ 20 → pteOf s' e u = pteOf s1 e u :=
    fun e u he hne hu => (hfs.pte hT hD1 he hne hu).trans (pteOf_of_mem_eq rfl e u)
  have hview : ∀ e u, own1 e = .dir → e ≠ D → u < UPAGES → view s' e u = view s1 e u := by
    intro e u he hne hu
    rw [hfs.view hinv1 hinv hD1 he hne hu]
    exact view_congr (pteOf_of_mem_eq rfl e u) (fun _ _ _ => rfl) (fun _ => rfl) rfl
  refine h.commit hrun hprocs (by rw [hfs.only.procs.attach]; exact hinv) ?_ ?_ ?_ ?_ ?_ ?_ ⟨rfl, ?_⟩
  · exact hb.sameKernel.trans (hfs.sameKernel hD1)
  · intro f hf
    rw [hfs.held hD1 (hb.retains.of_held hf)]
    exact hb.pres.held f (.inl hf)
  · intro e he hne
    have heD : e ≠ D := by
      rintro rfl
      rw [hfs.gone] at he
      cases he
    have he1 : own1 e = .dir := by rw [← hfs.roles e (by rw [he]; simp), he]
    have hold := hb.keeps.dir e he1
    rw [update_of_ne hne] at hold
    exact ⟨hold, by rw [hD]; exact heD⟩
  · intro v hv hvu
    have hge : pagesOf mem.sz ≤ v := Nat.le_of_not_lt fun hx =>
      absurd (lt_pagesOf.2 hx) (Nat.not_lt.2 hv)
    rw [entry, hpte d v hb.dir hneD.symm (upages_lt hvu)]
    have hzero := hb.empty v hge hvu
    rw [entry] at hzero
    rw [hzero, has_zero]
  · rw [hD]
    intro e u he hu hnt hne habs
    rw [entry, hpte e u (hb.retains.of_dir he) hne (upages_lt hu)]
    exact hb.quiet e u he hu hnt id habs
  · intro e u he hne hu hvis
    rw [hD] at hne
    rw [hview e u (hb.retains.of_dir he) hne hu]
    exact hb.pres.sameView he hu hvis
  · intro v hv
    have hlt := lt_pagesOf.1 hv
    rw [hview d v hb.dir hneD.symm (hb.upages hlt)]
    exact (hb.shows v hlt).sameView

/-- `exec` of a file that was found, with the stack pointer of the new program, or `none` for
    the result -1. -/
def execNew (evict : K Unit) (ip : File) (argv : List (List Byte)) : K (Option Nat) := do
  if readi ip 0 sizeofElfhdr ≠ sizeofElfhdr then pure none
  else if ip.word 0 ≠ ELF_MAGIC then pure none
  else
    match ← setupkvm evict with
    | none => pure none
    | some pgdir => do
      match ← execLoad evict pgdir ip ip.phnum (ip.word 28) 0 with
      | none => do
        freevm pgdir
        pure none
      | some sz => do
        match ← execStack evict pgdir sz argv with
        | none => do
          freevm pgdir
          pure none
        | some (sz, sp) => do
          let s ← get
          let oldpgdir := (s.proc s.cur).pgdir
          modify fun s => s.setProc s.cur fun pr => { pr with pgdir := pgdir, sz := sz }
          freevm oldpgdir
          pure (some sp)

theorem exec_eq (ip : File) (argv : List (List Byte)) : exec evict (some ip) argv = (do
    let r ← execNew evict ip argv
    pure (if r.isSome then 0 else -1)) := by
  unfold exec execNew
  dsimp only
  split
  · rfl
  split
  · rfl
  rw [bind_assoc]
  refine bind_congr fun r => ?_
  cases r with
  | none => rfl
  | some pgdir =>
    dsimp only
    rw [execImage_eq, bind_assoc, bind_assoc]
    refine bind_congr fun r => ?_
    cases r with
    | none => simp
    | some sz =>
      dsimp only
      rw [bind_assoc, bind_assoc]
      refine bind_congr fun r => ?_
      cases r with
      | none => simp
      | some x => simp

/-- The file loads into `img`, and with the arguments on its stack it is `mem`. -/
def Launches (ip : File) (argv : List (List Byte)) (sp : Nat) (img mem : Memory) : Prop :=
  Memory.load ip ip.phnum (ip.word 28) Memory.empty = some img ∧
    img.addStack.bind (Memory.stack argv) = some (sp, mem)

theorem Refines.wp_execNew (ip : File) {argv : List (List Byte)}
    (hev : EvictOk mode keep evict E) (h : Refines mode own s m) (hrun : Runs s s.cur)
    (hfit : ArgsFit argv)
    (hslots : mode.strict = true → keep = true ∧ Unswapped s (s.proc s.cur).pgdir 0) :
    wp (execNew evict ip argv) s (fun r s' => ∃ own', s'.cur = s.cur ∧
      ((∃ sp img mem, r = some sp ∧ readi ip 0 sizeofElfhdr = sizeofElfhdr ∧
          ip.word 0 = ELF_MAGIC ∧ Launches ip argv sp img mem ∧
          Refines mode own' s' (m.setMemory s.cur mem)) ∨
        (r = none ∧ Refines mode own' s' m ∧
          (readi ip 0 sizeofElfhdr = sizeofElfhdr → ip.word 0 = ELF_MAGIC →
            ∀ sp img mem, ¬ Launches ip argv sp img mem)))) E := by
  unfold execNew
  by_cases hread : readi ip 0 sizeofElfhdr ≠ sizeofElfhdr
  · rw [if_pos hread]
    exact ⟨own, rfl, .inr ⟨rfl, h, fun heq => (hread heq).elim⟩⟩
  rw [if_neg hread]
  by_cases hmagic : ip.word 0 ≠ ELF_MAGIC
  · rw [if_pos hmagic]
    exact ⟨own, rfl, .inr ⟨rfl, h, fun _ heq => (hmagic heq).elim⟩⟩
  rw [if_neg hmagic, wp_bind]
  refine wp_conseq (setupkvm_spec (c := 0) h.kinv.inv (.inr hev)) ?_
  rintro r s1 ⟨d, own1, rfl, hspace, honly, -⟩
  dsimp only
  rw [wp_bind]
  refine wp_conseq ((built_empty hspace honly).wp_execLoad hev) ?_
  rintro r s2 ⟨own2, img, hb, ⟨rfl, hload⟩ | ⟨rfl, hload⟩⟩
  swap
  · dsimp only
    rw [wp_bind]
    refine wp_conseq (freevm_spec hb.inv hb.dir hb.unattached) ?_
    rintro - s3 ⟨own3, hinv3, hfs⟩
    refine ⟨own3, (hb.pres.procs.trans hfs.only.procs).cur, .inr ⟨rfl, h.discarded hb hinv3 hfs, fun _ _ sp img mem hl => ?_⟩⟩
    cases hload.symm.trans hl.1
  dsimp only
  rw [wp_bind]
  refine wp_conseq (hb.wp_execStack hev hfit) ?_
  rintro r s3 ⟨own3, mem, hb, ⟨sp, rfl, hstack⟩ | ⟨rfl, hstack⟩⟩
  swap
  · dsimp only
    rw [wp_bind]
    refine wp_conseq (freevm_spec hb.inv hb.dir hb.unattached) ?_
    rintro - s4 ⟨own4, hinv4, hfs⟩
    refine ⟨own4, (hb.pres.procs.trans hfs.only.procs).cur, .inr ⟨rfl, h.discarded hb hinv4 hfs, fun _ _ sp img' mem hl => ?_⟩⟩
    obtain rfl := Option.some.inj (hload.symm.trans hl.1)
    cases hstack.symm.trans hl.2
  -- commit, then free the old directory
  simp only [wp_bind, wp_get, wp_modify]
  have hrun3 := hrun.congr hb.pres.procs
  have hpgdir : (s3.proc s3.cur).pgdir = (s.proc s.cur).pgdir := by
    rw [hb.pres.procs.cur, hb.pres.procs.pgdir]
  have hdirD := h.kinv.inv.procs.dir _ _ _ hrun.live
  have hneD : (s.proc s.cur).pgdir ≠ d := fun heq => hb.not_dir (heq ▸ hdirD)
  have hinv3 := hb.attach hrun3 fun hm => by
    rw [hpgdir]
    exact (hslots hm).2.sim (hb.stays (hslots hm).1 hdirD hneD)
  rw [hpgdir]
  refine wp_conseq (freevm_spec hinv3 (hb.retains.of_dir hdirD) ?_) ?_
  · intro p y hp
    rw [attachOf_commit hrun3] at hp
    by_cases hpc : p = s3.cur
    · subst hpc
      rw [update_self] at hp
      exact hneD (Prod.mk.inj (Option.some.inj hp)).1.symm
    · rw [update_of_ne hpc, hb.pres.procs.attach] at hp
      rw [hb.pres.procs.cur] at hpc
      exact hpc (h.kinv.inv.procs.inj _ _ _ _ _ hp hrun.live)
  · rintro - s4 ⟨own4, hinv4, hfs⟩
    refine ⟨own4, hfs.only.procs.cur.trans hb.pres.procs.cur,
      .inl ⟨sp, img, mem, rfl, of_not_not hread, of_not_not hmagic, ⟨hload, hstack⟩, ?_⟩⟩
    exact h.replaced hrun hb hinv3 hinv4 hfs

theorem Refines.wp_exec {ip : Option File} {argv : List (List Byte)}
    (hev : EvictOk mode keep evict E) (h : Refines mode own s m) (hrun : Runs s s.cur)
    (hfit : ArgsFit argv)
    (hslots : mode.strict = true → keep = true ∧ Unswapped s (s.proc s.cur).pgdir 0) :
    wp (exec evict ip argv) s (fun r s' => ∃ own',
      Refines mode own' s' (m.exec s.cur ip argv).2 ∧
      Reply.code r = (m.exec s.cur ip argv).1) E := by
  cases ip with
  | none => exact ⟨own, h, rfl⟩
  | some ip =>
    rw [exec_eq, wp_bind]
    refine wp_conseq (h.wp_execNew ip hev hrun hfit hslots) ?_
    rintro r s' ⟨own', -, ⟨sp, img, mem, rfl, hread, hmagic, ⟨hload, hstack⟩, href⟩ | ⟨rfl, href, hnone⟩⟩
    · have hexec : Memory.exec ip argv = some mem := by
        rw [Memory.exec_eq, hload, Option.bind_some, hstack, Option.map_some]
      refine ⟨own', ?_⟩
      rw [Flat.exec, if_neg (not_not.2 hread), if_neg (not_not.2 hmagic), hexec]
      exact ⟨href, rfl⟩
    · refine ⟨own', ?_⟩
      rw [Flat.exec]
      by_cases hread : readi ip 0 sizeofElfhdr ≠ sizeofElfhdr
      · rw [if_pos hread]
        exact ⟨href, rfl⟩
      rw [if_neg hread]
      by_cases hmagic : ip.word 0 ≠ ELF_MAGIC
      · rw [if_pos hmagic]
        exact ⟨href, rfl⟩
      rw [if_neg hmagic]
      have hexec : Memory.exec ip argv = none := by
        rw [Memory.exec_eq]
        cases hload : Memory.load ip ip.phnum (ip.word 28) Memory.empty with
        | none => rfl
        | some img =>
          rw [Option.bind_some]
          cases hstack : img.addStack.bind (Memory.stack argv) with
          | none => rfl
          | some x =>
            exact (hnone (of_not_not hread) (of_not_not hmagic) x.1 img x.2 ⟨hload, hstack⟩).elim
      rw [hexec]
      exact ⟨href, rfl⟩

end CowPaging
