import CowPaging.FaultSpec

/-!
# Accesses that fault and retry

A user access at a mapped, user-accessible address below the size of the process
takes at most two page faults: one to bring the page back, one to make it
writable. A read returns the byte the process sees, and a write changes that byte
and nothing else anybody sees.
-/

namespace CowPaging

open Bytes StateExcept SlotTable
open Function (update_of_ne update_self update)

variable [KernelImage] {mode : Mode} {keep : Bool} {evict : K Unit} {E : Halt → Prop}
  {own own' : Owners} {s s' : Kernel} {d z va : Nat} {write : Bool}

/-- The current process uses directory `d` and `va` is below its size. -/
structure Addressed (s : Kernel) (d z va : Nat) : Prop where
  attached : attachOf s s.cur = some (d, z)
  below : va / PGSIZE * PGSIZE < z

omit [KernelImage] in
theorem Addressed.congr (h : Addressed s d z va) (hprocs : SameProcs s s') :
    Addressed s' d z va :=
  ⟨by rw [hprocs.attach, hprocs.cur]; exact h.attached, h.below⟩

theorem Addressed.dir (h : Addressed s d z va) (hinv : Inv mode own (attachOf s) s) :
    own d = .dir := hinv.procs.dir _ d z h.attached

theorem Addressed.upages (h : Addressed s d z va) (hinv : Inv mode own (attachOf s) s) :
    va / PGSIZE < UPAGES := Tracked.upages hinv.procs ⟨_, z, h.attached, h.below⟩

theorem Addressed.va_lt (h : Addressed s d z va) (hinv : Inv mode own (attachOf s) s) :
    va < 2 ^ 32 := by
  have hv := h.upages hinv
  simp only [UPAGES, KERNBASE, PGSIZE] at hv
  omega

omit [KernelImage] in
theorem Addressed.pgdir (h : Addressed s d z va) : (s.proc s.cur).pgdir = d :=
  (attachOf_eq_some.1 h.attached).2.2.1

/-- The entry lets the access through. -/
def Allows (write : Bool) (w : Word) : Bool :=
  has w PTE_P && has w PTE_U && (!write || has w PTE_W)

/-- The translation of an access ended at page `f`. -/
structure Accessed (mode : Mode) (write : Bool) (own own' : Owners) (d v f : Nat)
    (s s' : Kernel) : Prop where
  keeps : Keeps own own'
  inv : Inv mode own' (attachOf s) s'
  pres : Preserves own (attachOf s) s s'
  quiet : Quiet own (attachOf s) (fun e u => e = d ∧ u = v) s s'
  frame : frameOf (entry s' d v) = f
  allowed : Allows write (entry s' d v) = true

theorem Accessed.after {own1 own2 : Owners} {v f : Nat} {s1 s2 : Kernel}
    (h : Faulted mode own own1 d v s s1) (h' : Accessed mode write own1 own2 d v f s1 s2) :
    Accessed mode write own own2 d v f s s2 := by
  have hatt := h.pres.procs.attach
  have hinv := h'.inv
  have hpres := h'.pres
  have hquiet := h'.quiet
  rw [hatt] at hinv hpres hquiet
  exact ⟨h.keeps.trans h'.keeps, hinv, h.pres.trans h.keeps.retains hpres,
    h.quiet.trans h.keeps.retains hquiet, h'.frame, h'.allowed⟩

omit [KernelImage] in
theorem translated_bits (write : Bool) (w : Word) :
    SameTarget (if write then w ||| PTE_A ||| PTE_D else w ||| PTE_A) w ∧
      has (if write then w ||| PTE_A ||| PTE_D else w ||| PTE_A) PTE_W = has w PTE_W := by
  have hA : has (w ||| PTE_A) PTE_W = has w PTE_W := by
    rw [has_W, has_W]
    exact or_flag_bit (k := 5) w (by decide) (by decide)
  cases write with
  | false => exact ⟨sameTarget_setA w, hA⟩
  | true =>
    refine ⟨(sameTarget_setD _).trans (sameTarget_setA w), ?_⟩
    rw [← hA, has_W, has_W]
    exact or_flag_bit (k := 6) (w ||| PTE_A) (by decide) (by decide)

theorem translate_spec (h : Inv mode own (attachOf s) s) (ha : Addressed s d z va) :
    wp (translate write va) s (fun r s' =>
      (∃ f, r = some f ∧ Accessed mode write own own d (va / PGSIZE) f s s') ∨
      (r = none ∧ s' = s ∧ Allows write (entry s d (va / PGSIZE)) = false)) E := by
  have hd := ha.dir h
  have hv := ha.upages h
  obtain ⟨w, hw, -⟩ := h.procs.page _ d z _ ha.attached ha.below
  obtain ⟨ptr, hslot, rfl⟩ := pteOf_eq_some.1 hw
  unfold translate
  simp only [wp_bind, wp_get, ha.pgdir]
  rw [h.walk hd (ha.va_lt h), hslot]
  simp only [wp_bind, wp_loadPte]
  rw [← Allows]
  by_cases hallow : Allows write (pteAt s ptr) = true
  · rw [if_pos hallow, wp_bind, wp_storePte]
    have hp : has (pteAt s ptr) PTE_P = true := by grind [Allows]
    obtain ⟨ht, hW⟩ := translated_bits write (pteAt s ptr)
    obtain ⟨hinv, hpres, hquiet, hself⟩ := flags_step h hd hv hslot hp ht fun hw1 =>
      h.maps.writable d _ _ ⟨hd, hv, hw⟩ hp (hW.symm.trans hw1)
    refine .inl ⟨_, rfl, Keeps.refl own, hinv, hpres, hquiet, ?_, ?_⟩
    · rw [entry_of_pte hself, ht.frame]
    · rw [entry_of_pte hself, Allows, ht.present, ht.user, hW]
      exact hallow
  · rw [if_neg hallow]
    refine .inr ⟨rfl, rfl, ?_⟩
    rw [entry_of_pte hw]
    exact Bool.eq_false_of_not_eq_true hallow

theorem access_allowed {turns : Nat} (h : Inv mode own (attachOf s) s)
    (ha : Addressed s d z va) (hallow : Allows write (entry s d (va / PGSIZE)) = true) :
    wp (access evict write va (turns + 1)) s (fun f s' =>
      ∃ own', Accessed mode write own own' d (va / PGSIZE) f s s') E := by
  rw [access, wp_bind]
  refine wp_conseq (translate_spec h ha) ?_
  rintro r s' (⟨f, rfl, hacc⟩ | ⟨-, -, hno⟩)
  · exact ⟨own, hacc⟩
  · grind

theorem access_step {turns : Nat} (hev : EvictOk mode keep evict E)
    (h : Inv mode own (attachOf s) s) (ha : Addressed s d z va)
    (hrest : ∀ own1 s1, Faulted mode own own1 d (va / PGSIZE) s s1 →
      wp (access evict write va turns) s1 (fun f s' =>
        ∃ own', Accessed mode write own1 own' d (va / PGSIZE) f s1 s') E) :
    wp (access evict write va (turns + 1)) s (fun f s' =>
      ∃ own', Accessed mode write own own' d (va / PGSIZE) f s s') E := by
  rw [access, wp_bind]
  refine wp_conseq (translate_spec h ha) ?_
  rintro r s' (⟨f, rfl, hacc⟩ | ⟨rfl, rfl, -⟩)
  · exact ⟨own, hacc⟩
  simp only [wp_bind]
  refine wp_conseq (handleFageFault_spec hev h ha.attached ha.below) ?_
  rintro - s1 ⟨own1, hf⟩
  refine wp_conseq (hrest own1 s1 hf) ?_
  rintro f s2 ⟨own2, hacc⟩
  exact ⟨own2, Accessed.after hf hacc⟩

omit [KernelImage] in
theorem user_of_view {page : Page} {user : Bool} {v : Nat}
    (hp : has (entry s d v) PTE_P = true)
    (hview : SameView (some (page, user)) (view s d v)) :
    has (entry s d v) PTE_U = user ∧
      ∀ o, o < PGSIZE → s.mem (frameOf (entry s d v)) o = page o := by
  rw [view_of_present (pteOf_of_entry hp) hp] at hview
  obtain ⟨p1, p2, u, h1, h2, heq⟩ := hview
  simp only [Option.some.injEq, Prod.mk.injEq] at h1 h2
  obtain ⟨rfl, rfl⟩ := h1
  obtain ⟨rfl, hu⟩ := h2
  exact ⟨hu, heq⟩

theorem Faulted.sameView {own1 : Owners} {v : Nat} {x : Page × Bool} {s1 : Kernel}
    (h : Faulted mode own own1 d v s s1) (hd : own d = .dir) (hv : v < UPAGES)
    (ht : Tracked (attachOf s) d v) (hinv : Inv mode own (attachOf s) s)
    (hview : SameView (some x) (view s d v)) : SameView (some x) (view s1 d v) := by
  obtain ⟨p, z, hatt, hlt⟩ := ht
  obtain ⟨w, hw, -⟩ := hinv.procs.page p d z v hatt hlt
  exact hview.trans (h.pres.seen d v hd hv ⟨w, hw, .inr ⟨p, z, hatt, hlt⟩⟩).2

theorem access_spec {page : Page} (hev : EvictOk mode keep evict E)
    (h : Inv mode own (attachOf s) s) (ha : Addressed s d z va)
    (hview : SameView (some (page, true)) (view s d (va / PGSIZE))) :
    wp (access evict write va 3) s (fun f s' =>
      ∃ own', Accessed mode write own own' d (va / PGSIZE) f s s') E := by
  have hnext : ∀ {own1 : Owners} {s1 : Kernel}, Faulted mode own own1 d (va / PGSIZE) s s1 →
      Inv mode own1 (attachOf s1) s1 ∧ Addressed s1 d z va ∧
        SameView (some (page, true)) (view s1 d (va / PGSIZE)) := by
    intro own1 s1 hf
    have hinv := hf.inv
    rw [← hf.pres.procs.attach] at hinv
    exact ⟨hinv, ha.congr hf.pres.procs,
      hf.sameView (ha.dir h) (ha.upages h) ⟨_, z, ha.attached, ha.below⟩ h hview⟩
  refine access_step hev h ha fun own1 s1 hf1 => ?_
  obtain ⟨hinv1, ha1, hview1⟩ := hnext hf1
  -- the page is in memory now; a write may need a second fault
  refine access_step hev hinv1 ha1 fun own2 s2 hf2 => ?_
  have hinv2 := hf2.inv
  rw [← hf2.pres.procs.attach] at hinv2
  have hview2 := hf2.sameView (ha1.dir hinv1) (ha1.upages hinv1) ⟨_, z, ha1.attached, ha1.below⟩
    hinv1 hview1
  refine access_allowed hinv2 (ha1.congr hf2.pres.procs) ?_
  rw [Allows, hf2.present, (user_of_view hf2.present hview2).1, hf2.writable hf1.present]
  simp

/-! ### Reads and writes -/

theorem Accessed.page {v f : Nat} {page : Page} (h : Accessed mode write own own' d v f s s')
    (hd : own d = .dir) (hv : v < UPAGES) (ht : Tracked (attachOf s) d v)
    (hinv : Inv mode own (attachOf s) s)
    (hview : SameView (some (page, true)) (view s d v)) :
    ∀ o, o < PGSIZE → s'.mem f o = page o := by
  obtain ⟨p, z, hatt, hlt⟩ := ht
  obtain ⟨w, hw, -⟩ := hinv.procs.page p d z v hatt hlt
  have hview' := hview.trans (h.pres.seen d v hd hv ⟨w, hw, .inr ⟨p, z, hatt, hlt⟩⟩).2
  have hp : has (entry s' d v) PTE_P = true := by
    have := h.allowed
    simp only [Allows, Bool.and_eq_true] at this
    exact this.1.1
  rw [← h.frame]
  exact (user_of_view hp hview').2

theorem userRead_spec {page : Page} (h : Inv mode own (attachOf s) s)
    (ha : Addressed s d z va) (hview : SameView (some (page, true)) (view s d (va / PGSIZE)))
    (haccess : wp (access evict false va 3) s (fun f s' =>
      ∃ own', Accessed mode false own own' d (va / PGSIZE) f s s') E) :
    wp (userRead evict va) s (fun b s' => b = page (va % PGSIZE) ∧ ∃ own',
      Accessed mode false own own' d (va / PGSIZE) (frameOf (entry s' d (va / PGSIZE))) s s')
      E := by
  unfold userRead
  rw [wp_bind]
  refine wp_conseq haccess ?_
  rintro f s' ⟨own', hacc⟩
  simp only [wp_bind, wp_get, wp_pure]
  exact ⟨hacc.page (ha.dir h) (ha.upages h) ⟨_, z, ha.attached, ha.below⟩ h hview _
    (Nat.mod_lt _ (by decide)), own', by rw [hacc.frame]; exact hacc⟩

/-- Page `v` of directory `d` now shows `page`; nothing else anybody sees changed. -/
structure Wrote (mode : Mode) (own own' : Owners) (d v : Nat) (page : Page) (s s' : Kernel) :
    Prop where
  keeps : Keeps own own'
  inv : Inv mode own' (attachOf s) s'
  procs : SameProcs s s'
  held : ∀ f, own f = .held → s'.mem f = s.mem f
  quiet : Quiet own (attachOf s) (fun e u => e = d ∧ u = v) s s'
  seen : ∀ e u, own e = .dir → u < UPAGES → ¬ (e = d ∧ u = v) → Visible (attachOf s) s e u →
    Visible (attachOf s) s' e u ∧ SameView (view s e u) (view s' e u)
  written : SameView (some (page, true)) (view s' d v)

theorem Inv.sole_mapper {att : Attach} {v e u : Nat} {w x : Word} (h : Inv mode own att s)
    (hu : Upte own s d v w) (hp : has w PTE_P = true)
    (hone : (s.rmap (frameOf w)).refcount = 1)
    (hu' : Upte own s e u x) (hp' : has x PTE_P = true) (heq : frameOf x = frameOf w) :
    e = d ∧ u = v := by
  obtain ⟨ptr, hptr, -⟩ := hu.exists_slot
  obtain ⟨q, hq, -⟩ := hu'.exists_slot
  have hmem := hu'.mem_mappers hp' hq
  rw [heq] at hmem
  have hsame := (h.maps.exact _ (h.frame_lt hu hp)).eq_of_count_one hone hmem
    (hu.mem_mappers hp hptr)
  subst hsame
  exact h.tables.slot_inj hu'.1 hu.1 (upages_lt hu'.2.1) (upages_lt hu.2.1) hq hptr

theorem seen_setPage {att : Attach} {v e u : Nat} {w : Word} (page : Page)
    (h : Inv mode own att s) (hu : Upte own s d v w) (hp : has w PTE_P = true)
    (hW : has w PTE_W = true) (he : own e = .dir) (hlt : u < UPAGES) (hne : ¬ (e = d ∧ u = v))
    (hvis : Visible att s e u) :
    Visible att (s.setPage (frameOf w) page) e u ∧
      SameView (view s e u) (view (s.setPage (frameOf w) page) e u) := by
  have huser := (h.maps.user d v w hu hp).1
  have hmaps : SameMaps own s (s.setPage (frameOf w) page) :=
    sameMaps_setPage (by rw [huser]; exact id)
  obtain ⟨x, hx, hcase⟩ := hvis
  have hx' := (hmaps.pte h.tables he (upages_lt hlt)).trans hx
  refine ⟨⟨x, hx', hcase⟩, ?_⟩
  obtain ⟨y, hy⟩ := h.view_some ⟨x, hx, hcase⟩
  refine SameView.of_eq hy (view_congr (hx'.trans hx.symm) ?_ (fun _ => rfl) rfl)
  intro x' hx1 hp'
  refine update_of_ne (fun heq => hne ?_) _ _
  exact h.sole_mapper hu hp (h.maps.writable d v w hu hp hW) ⟨he, hlt, hx1⟩ hp' heq

theorem wrote_store {v : Nat} {w : Word} (page : Page) (h : Inv mode own (attachOf s) s)
    (hu : Upte own s d v w) (hp : has w PTE_P = true) (hW : has w PTE_W = true)
    (hU : has w PTE_U = true) : Wrote mode own own d v page s (s.setPage (frameOf w) page) := by
  have huser := (h.maps.user d v w hu hp).1
  have hnmap : ¬ (own (frameOf w)).isMap := by rw [huser]; exact id
  refine ⟨Keeps.refl own, h.setPage hnmap, ⟨fun _ => rfl, rfl, rfl, rfl⟩, ?_,
    quiet_of_pte fun e u he hu => (sameMaps_setPage hnmap).pte h.tables he hu, ?_, ?_⟩
  · intro f hf
    refine update_of_ne ?_ _ _
    rintro rfl
    rw [huser] at hf
    cases hf
  · intro e u he hv hne hvis
    exact seen_setPage page h hu hp hW he hv hne hvis
  · have hmaps : SameMaps own s (s.setPage (frameOf w) page) := sameMaps_setPage hnmap
    have hw' := (hmaps.pte h.tables hu.1 (upages_lt hu.2.1)).trans hu.2.2
    refine ⟨page, page, true, rfl, ?_, fun _ _ => rfl⟩
    rw [view_of_present hw' hp, hU]
    simp [Kernel.setPage]

theorem userWrite_spec {page : Page} {b : Byte} (hev : EvictOk mode keep evict E)
    (h : Inv mode own (attachOf s) s) (ha : Addressed s d z va)
    (hview : SameView (some (page, true)) (view s d (va / PGSIZE))) :
    wp (userWrite evict va b) s (fun _ s' => ∃ own', Wrote mode own own' d (va / PGSIZE)
      (update page (va % PGSIZE) b) s s') E := by
  unfold userWrite
  rw [wp_bind]
  refine wp_conseq (access_spec hev h ha hview) ?_
  rintro f s1 ⟨own1, hacc⟩
  rw [wp_modify]
  have hd := ha.dir h
  have hv := ha.upages h
  have hbytes := hacc.page hd hv ⟨_, z, ha.attached, ha.below⟩ h hview
  have hallow := hacc.allowed
  simp only [Allows, Bool.and_eq_true, Bool.not_true, Bool.false_or] at hallow
  obtain ⟨⟨hp, hU⟩, hW⟩ := hallow
  have hatt := hacc.pres.procs.attach
  have hinv := hacc.inv
  rw [← hatt] at hinv
  have hst := wrote_store (update (s1.mem f) (va % PGSIZE) b) hinv
    ⟨hacc.keeps.retains.of_dir hd, hv, pteOf_of_entry hp⟩ hp hW hU
  rw [hacc.frame] at hst
  obtain ⟨hkeeps, hinv2, hprocs, hheld, hquiet, hseen, hwritten⟩ := hst
  rw [hatt] at hinv2 hseen hquiet
  refine ⟨own1, hacc.keeps, hinv2, hacc.pres.procs.trans hprocs, ?_,
    hacc.quiet.trans hacc.keeps.retains hquiet, ?_, ?_⟩
  · intro g hg
    rw [hheld g (hacc.keeps.retains.of_held hg), hacc.pres.held g (.inl hg)]
  · intro e u he hu hne hvis
    obtain ⟨hvis1, hsame1⟩ := hacc.pres.seen e u he hu hvis
    obtain ⟨hvis2, hsame2⟩ := hseen e u (hacc.keeps.retains.of_dir he) hu hne hvis1
    exact ⟨hvis2, hsame1.trans hsame2⟩
  · refine SameView.trans ⟨_, _, true, rfl, rfl, fun o ho => ?_⟩ hwritten
    by_cases heq : o = va % PGSIZE
    · rw [heq, update_self, update_self]
    · rw [update_of_ne heq, update_of_ne heq, hbytes o ho]

end CowPaging
