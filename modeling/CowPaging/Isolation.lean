import CowPaging.FaultTransparency

/-!
# What processes can do to each other

On the reference machine a process that makes no call keeps its memory. The kernel refines
that machine with pages shared copy-on-write and pages evicted in one run, as long as the
evictions are harmless: no process sees another one's writes, nor what a page held before
it got the page.
-/

namespace CowPaging

open Bytes StateExcept SlotTable
open Function (update update_of_ne update_self)

variable {m m' : Flat} {p q : Nat} {op : Op} {ops : List (Nat × Op)} {rs : List Reply}

/-! ### The reference machine -/

def Flat.Alive (m : Flat) (q : Nat) : Prop :=
  (m.proc q).state ≠ .unused ∧ (m.proc q).state ≠ .zombie

/-- Process `q` has the state and the memory it had. -/
def Flat.Same (m m' : Flat) (q : Nat) : Prop :=
  (m'.proc q).state = (m.proc q).state ∧ (m'.proc q).memory = (m.proc q).memory

theorem Flat.same_of_proc (h : m'.proc q = m.proc q) : m.Same m' q := by
  simp [Same, h]

theorem Flat.fork_cases (m : Flat) (p : Nat) :
    m.fork p = (.code (-1), m) ∨ ∃ c, c < NPROC ∧ (m.proc c).state = .unused ∧
      (m.fork p).1 = .code m.nextpid ∧ (m.fork p).2.proc = update m.proc c { m.proc c with
        state := .runnable, pid := m.nextpid, parent := some p, memory := (m.proc p).memory } := by
  rw [fork]
  split
  · exact .inl rfl
  · next c hc =>
    obtain ⟨hlt, htest⟩ := firstSlot_some hc
    exact .inr ⟨c, hlt, of_decide_eq_true htest, rfl, rfl⟩

theorem Memory.sbrk_cases {mem : Memory} {n : Int} (hn : 0 < n) (h : (mem.sbrk n).1 = 0) :
    (mem.sbrk n).2 = mem ∨ (mem.sbrk n).2 = mem.grow (addSigned mem.sz n) := by
  rw [sbrk, if_pos hn] at h ⊢
  split at h
  · cases h
  · next m' halloc =>
    rw [alloc] at halloc
    split_ifs at halloc
    · exact .inl (Option.some.inj halloc).symm
    · exact .inr (Option.some.inj halloc).symm

theorem Flat.perform_other (h : m.Alive q) (hq : q ≠ p) : m.Same (m.perform p op).2 q := by
  have hsame : m.Same m q := ⟨rfl, rfl⟩
  cases op with
  | fork =>
    obtain heq | ⟨c, -, hunused, -, hproc⟩ := m.fork_cases p
    · rw [perform, heq]
      exact hsame
    · refine same_of_proc ((congrFun hproc q).trans (update_of_ne ?_ _ _))
      rintro rfl
      exact h.1 hunused
  | exec ip argv =>
    rw [perform, exec.eq_def]
    repeat' split
    all_goals first | exact hsame | exact same_of_proc (update_of_ne hq _ _)
  | sbrk n => exact same_of_proc (update_of_ne hq _ _)
  | exit =>
    have hproc : (m.perform p .exit).2.proc q = if q < NPROC ∧ (m.proc q).parent = some p then
        { m.proc q with parent := m.initproc } else m.proc q := update_of_ne hq _ _
    rw [Same, hproc]
    split <;> exact ⟨rfl, rfl⟩
  | wait =>
    rw [perform, wait]
    split
    · next c hc =>
      refine same_of_proc (update_of_ne ?_ _ _)
      rintro rfl
      have htest := (firstSlot_some hc).2
      rw [Bool.and_eq_true] at htest
      exact h.2 (of_decide_eq_true htest.2)
    · dsimp only
      split <;> exact hsame
  | read va => exact hsame
  | write va b => exact same_of_proc (update_of_ne hq _ _)
  | fault va => exact hsame
  | touch va => exact hsame

theorem Flat.run_other (h : m.Alive q) (hops : ∀ x ∈ ops, x.1 ≠ q) : m.Same (m.run ops).2 q := by
  induction ops generalizing m with
  | nil => exact ⟨rfl, rfl⟩
  | cons x ops ih =>
    obtain ⟨hx, hops⟩ := List.forall_mem_cons.1 hops
    have hstep : m.Same (m.perform x.1 x.2).2 q := perform_other h hx.symm
    have hrest : (m.perform x.1 x.2).2.Same (m.run (x :: ops)).2 q :=
      ih ⟨hstep.1 ▸ h.1, hstep.1 ▸ h.2⟩ hops
    exact ⟨hrest.1.trans hstep.1, hrest.2.trans hstep.2⟩

/-! ### The kernel -/

section

variable [KernelImage] {mode : Mode} {own own' : Owners} {s s0 s' : Kernel} {otherCpus : Nat}
  {initcode : List Byte}

/-- Process `q` of `s'` has the size and the bytes that process `p` has in `s`. -/
def SameMemory (s : Kernel) (p : Nat) (s' : Kernel) (q : Nat) : Prop :=
  (s'.proc q).sz = (s.proc p).sz ∧ ∀ va, va < (s.proc p).sz → byteAt s' q va = byteAt s p va

theorem Refines.sameMemory (h : Refines mode own s m) (h' : Refines mode own' s' m')
    (hrun : Runs s p) (hq : q < NPROC) (hlive' : (s'.proc q).state.live = true)
    (hmem : (m'.proc q).memory = (m.proc p).memory) : SameMemory s p s' q := by
  obtain ⟨hp, hlive, -⟩ := attachOf_eq_some.1 hrun.live
  have hsize : (s'.proc q).sz = (s.proc p).sz := by
    rw [← h'.seesAs.size q hq hlive', hmem, h.seesAs.size p hp hlive]
  refine ⟨hsize, fun va hva => ?_⟩
  rw [h'.seesAs.bytes q va hq hlive' (by rw [hsize]; exact hva), hmem,
    h.seesAs.bytes p va hp hlive hva]

theorem Refines.alive (h : Refines mode own s m) (hrun : Runs s q) : m.Alive q := by
  rw [Flat.Alive, h.table.state]
  rcases hrun.2 with hst | hst | hst <;> rw [hst] <;> simp

theorem Refines.sameMemory_of_same (h : Refines mode own s m) (h' : Refines mode own' s' m')
    (hrun : Runs s q) (hsame : m.Same m' q) : SameMemory s q s' q := by
  obtain ⟨hq, hlive, -⟩ := attachOf_eq_some.1 hrun.live
  refine h.sameMemory h' hrun hq ?_ hsame.2
  rw [← h'.table.state, hsame.1, h.table.state, hlive]

/-- A run without evictions is one with harmless evictions. -/
theorem Steps.sparing (hs : Steps noEvict Enabled s ops rs s') (h : Refines Mode.plenty own s m) :
    SparingRun s ops s' := by
  induction hs generalizing own m with
  | nil s => exact .nil s
  | @cons s _ _ p op _ _ _ hen hperf _ ih =>
    obtain ⟨hrun, hadm⟩ := suffices_enabled rfl rfl rfl _ _ _ _ _ h hen
    obtain ⟨own1, h1, -⟩ := wp_ok (perform_spec evictOk_plenty h hrun hadm) hperf
    have horderly : Orderly s p op := by
      refine ⟨hrun, ?_⟩
      cases op with
      | fork => exact hadm.2.2
      | exec ip argv => exact hadm.1
      | sbrk n => exact hadm.1
      | wait => trivial
      | _ => exact hadm
    exact .cons horderly (((cautious_noEvict _).perform _ _).ok hperf) (ih h1)

theorem SparingRun.tracks (hs : SparingRun s ops s') (h : Refines Mode.shared own s m) :
    ∃ own', Refines Mode.shared own' s' (m.run ops).2 ∧
      Steps findNewPageAfterSwapping Orderly s ops (m.run ops).1 s' := by
  induction hs generalizing own m with
  | nil s => exact ⟨own, h, .nil s⟩
  | cons hcall hperf _ ih =>
    obtain ⟨hrun, hadm⟩ := hcall.admits
    obtain ⟨own1, h1, rfl⟩ := wp_ok (perform_spec (evictOk_spare rfl) h hrun hadm) hperf
    obtain ⟨own2, h2, hsteps⟩ := ih h1
    exact ⟨own2, h2, .cons hcall ((cautious_spare.perform _ _).ok hperf) hsteps⟩

/-! ### Runs from boot -/

section

variable (hboot : boot otherCpus initcode Kernel.zero = .ok ((), s0)) (hs : SparingRun s0 ops s)
include hboot hs

theorem SparingRun.of_boot : ∃ own, Refines Mode.shared own s ((Flat.boot initcode).run ops).2 ∧
    Steps findNewPageAfterSwapping Orderly s0 ops ((Flat.boot initcode).run ops).1 s := by
  obtain ⟨own0, h0⟩ := refines_of_boot hboot
  exact hs.tracks ⟨h0.kinv.shared, h0.table, h0.memory⟩

/-- The next call, on both machines. -/
theorem SparingRun.call (hcall : Orderly s p op) :
    ∃ own m, Refines Mode.shared own s m ∧ wp (perform (spare op.isFork) p op) s (fun r s' =>
      ∃ own', Refines Mode.shared own' s' (m.perform p op).2 ∧ r = (m.perform p op).1) Stuck := by
  obtain ⟨own, h, -⟩ := hs.of_boot hboot
  obtain ⟨hrun, hadm⟩ := hcall.admits
  exact ⟨own, _, h, perform_spec (evictOk_spare rfl) h hrun hadm⟩

/-- Copy-on-write and demand paging together: a run with harmless evictions has the replies
    and the bytes of the machine that has neither, and the next call stops only for want of
    a harmless eviction. -/
theorem cow_with_paging_refines_flat :
    Steps findNewPageAfterSwapping Orderly s0 ops ((Flat.boot initcode).run ops).1 s ∧
    SeesAs s ((Flat.boot initcode).run ops).2 ∧
    ∀ p op e, Orderly s p op → perform (spare op.isFork) p op s = .error e → Stuck e := by
  obtain ⟨own, h, hsteps⟩ := hs.of_boot hboot
  refine ⟨hsteps, h.seesAs, fun p op e hcall herr => ?_⟩
  obtain ⟨_, _, -, hspec⟩ := hs.call hboot hcall
  exact wp_error hspec herr

/-- Whatever the others call, forks and exits included, a process that makes no call keeps
    its size and every byte, although its pages are shared and evicted. -/
theorem processes_isolated : ∀ ops' s' q, SparingRun s ops' s' → Runs s q →
    (∀ x ∈ ops', x.1 ≠ q) → SameMemory s q s' q := by
  intro ops' s' q hs' hrun hops
  obtain ⟨own, h, -⟩ := hs.of_boot hboot
  obtain ⟨own', h', -⟩ := hs'.tracks h
  exact h.sameMemory_of_same h' hrun (Flat.run_other (h.alive hrun) hops)

/-- A `fork` that succeeds gives a new process the memory of its caller, and nobody's memory
    changes. -/
theorem fork_copies_memory : ∀ p pid s', Orderly s p .fork →
    perform (spare true) p .fork s = .ok (.code pid, s') → pid ≠ -1 →
    (∀ q, Runs s q → SameMemory s q s' q) ∧
      ∃ c, (s.proc c).state = .unused ∧ (s'.proc c).pid = pid ∧ (s'.proc c).parent = some p ∧
        SameMemory s p s' c := by
  intro p pid s' hcall hperf hpid
  obtain ⟨own, m, h, hspec⟩ := hs.call hboot hcall
  obtain ⟨own', h', hreply⟩ := wp_ok hspec hperf
  obtain heq | ⟨c, hlt, hunused, hcode, hproc⟩ := m.fork_cases p
  · rw [Flat.perform, heq] at hreply
    exact absurd (Reply.code.inj hreply) hpid
  · have hchild : (m.perform p .fork).2.proc c = _ := (congrFun hproc c).trans (update_self _ _ _)
    refine ⟨fun q hq => ?_, c, by rw [← h.table.state, hunused], ?_, ?_, ?_⟩
    · refine h.sameMemory_of_same h' hq
        (Flat.same_of_proc ((congrFun hproc q).trans (update_of_ne ?_ _ _)))
      rintro rfl
      exact (h.alive hq).1 hunused
    · rw [← h'.table.pid, hchild]
      exact (Reply.code.inj (hreply.trans hcode)).symm
    · rw [← h'.table.parent, hchild]
    · exact h.sameMemory h' hcall.1 hlt (by rw [← h'.table.state, hchild]; rfl) (by rw [hchild])

/-- Memory that a process gets by `sbrk` holds zeros, whoever had the pages before, and what
    the process had is unchanged. -/
theorem growth_holds_zeros : ∀ p n s', Orderly s p (.sbrk n) → 0 < n →
    perform (spare false) p (.sbrk n) s = .ok (.code 0, s') → ∀ va, va < (s'.proc p).sz →
    (va < (s.proc p).sz → byteAt s' p va = byteAt s p va) ∧
      (PGROUNDUP (s.proc p).sz ≤ va → byteAt s' p va = some 0) := by
  intro p n s' hcall hn hperf va hva
  obtain ⟨own, m, h, hspec⟩ := hs.call hboot hcall
  obtain ⟨own', h', hreply⟩ := wp_ok hspec hperf
  have hproc : (m.perform p (.sbrk n)).2.proc p = _ := update_self _ _ _
  obtain ⟨hp, hlive, -⟩ := attachOf_eq_some.1 hcall.1.live
  have hlive' : (s'.proc p).state.live = true := by
    rw [← h'.table.state, hproc, ← hlive, ← h.table.state]
  have hsize := h.seesAs.size p hp hlive
  have hsize' := h'.seesAs.size p hp hlive'
  have hpage : (va / PGSIZE < pagesOf (s.proc p).sz ↔ va < PGROUNDUP (s.proc p).sz) ∧
      (s.proc p).sz ≤ PGROUNDUP (s.proc p).sz := by
    simp only [pagesOf, PGROUNDUP, PGSIZE]
    omega
  rw [h'.seesAs.bytes p va hp hlive' hva, hproc]
  rw [hproc] at hsize'
  obtain heq | heq := Memory.sbrk_cases hn (Reply.code.inj hreply).symm
  · rw [heq, hsize] at hsize'
    rw [heq]
    exact ⟨fun hlt => (h.seesAs.bytes p va hp hlive hlt).symm, fun hge => by omega⟩
  · rw [heq, Memory.grow, hsize]
    refine ⟨fun hlt => ?_, fun hge => ?_⟩
    · rw [h.seesAs.bytes p va hp hlive hlt]
      simp only [if_pos (hpage.1.2 (by omega))]
    · simp only [if_neg (mt hpage.1.1 (by omega))]

end

end

theorem sample_sparing : letI := KernelImage.sample
    ∃ s0 s s', boot 1 [7] Kernel.zero = .ok ((), s0) ∧ Orderly s0 0 .fork ∧
      perform (spare true) 0 .fork s0 = .ok (.code 2, s) ∧ Runs s 0 ∧
      SparingRun s [(1, .read 0)] s' := by
  let _ := KernelImage.sample
  obtain ⟨s0, s', hboot, hs⟩ := sample_run (by decide)
  obtain ⟨own, h⟩ := refines_of_boot hboot
  cases hs with
  | cons hen hperf hrest =>
    obtain ⟨hrun, hadm⟩ := suffices_enabled rfl rfl rfl _ _ _ _ _ h hen
    obtain ⟨own1, h1, -⟩ := wp_ok (perform_spec evictOk_plenty h hrun hadm) hperf
    have hperf := ((cautious_noEvict (spare true)).perform _ _).ok hperf
    refine ⟨s0, _, s', hboot, ⟨hrun, hadm.2.2⟩, hperf, ⟨hrun.1, .inr (.inl ?_)⟩, hrest.sparing h1⟩
    rw [← h1.table.state]
    rfl

theorem cow_with_paging_sample : letI := KernelImage.sample
    ∃ s0 s, SparingRun s0 [(0, .fork), (1, .read 0)] s ∧
      SeesAs s ((Flat.boot [7]).run [(0, .fork), (1, .read 0)]).2 := by
  let _ := KernelImage.sample
  obtain ⟨s0, s, s', hboot, hcall, hperf, -, hs⟩ := sample_sparing
  have hs : SparingRun s0 [(0, .fork), (1, .read 0)] s' := .cons hcall hperf hs
  exact ⟨s0, s', hs, (cow_with_paging_refines_flat hboot hs).2.1⟩

/-- The parent while its child reads. -/
theorem processes_isolated_sample : letI := KernelImage.sample
    ∃ s s', SparingRun s [(1, .read 0)] s' ∧ SameMemory s 0 s' 0 := by
  let _ := KernelImage.sample
  obtain ⟨s0, s, s', hboot, hcall, hperf, hrun, hs⟩ := sample_sparing
  exact ⟨s, s', hs, processes_isolated hboot (.cons hcall hperf (.nil s)) _ s' 0 hs hrun (by simp)⟩

theorem fork_copies_memory_sample : letI := KernelImage.sample
    ∃ s0 s c, perform (spare true) 0 .fork s0 = .ok (.code 2, s) ∧ SameMemory s0 0 s c := by
  let _ := KernelImage.sample
  obtain ⟨s0, s, s', hboot, hcall, hperf, -⟩ := sample_sparing
  obtain ⟨-, c, -, -, -, hmem⟩ :=
    fork_copies_memory hboot (.nil s0) 0 2 s hcall hperf (by decide)
  exact ⟨s0, s, c, hperf, hmem⟩

theorem growth_holds_zeros_sample : letI := KernelImage.sample
    ∃ s0 s, perform (spare false) 0 (.sbrk PGSIZE) s0 = .ok (.code 0, s) ∧
      byteAt s 0 PGSIZE = some 0 := by
  let _ := KernelImage.sample
  obtain ⟨s0, own, hboot, h, hsup, hrun, hsize⟩ := boot_one_byte (c := 1) (by decide)
  have hfree := h.supplied hrun hsize (by rw [(first_page_present hboot).2.1]; decide) hsup
  obtain ⟨f, rest, hlist⟩ := List.exists_cons_of_length_pos hfree
  obtain ⟨ptr, hg⟩ := h.growable (k := 1) hrun (by rw [hsize, Nat.one_mul]) (by decide) (by decide)
  have hperf := ((cautious_noEvict (spare false)).perform _ _).ok (perform_sbrk rfl h hg hlist)
  have hgrown := growth_holds_zeros hboot (.nil s0) 0 PGSIZE _ ⟨hrun, fun hneg => absurd hneg (by decide)⟩
    (by decide) hperf
  refine ⟨s0, _, hperf, (hgrown PGSIZE ?_).2 (by rw [hsize]; decide)⟩
  simp only [Kernel.enlarged, Kernel.setProc, update_self]
  exact Nat.lt_add_of_pos_left (Nat.lt_of_lt_of_eq (by decide) hsize.symm)

end CowPaging
