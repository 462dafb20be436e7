import CowPaging.NoPressure

/-!
# Resident sizes

`p->rss` should be `PGSIZE` for every user page the process has in memory, since
`select_victim_process` goes by it. `allocuvm` and `copyuvm` charge the pages they
map; `inituvm`, which maps the page of the first process, does not. The first
process therefore starts with one page in memory and `rss` 0, whatever program it
is given.
-/

namespace CowPaging

open Bytes StateExcept SlotTable

/-- The user pages that the directory `d` has in memory. -/
def presentPages (s : Kernel) (d : Nat) : Nat :=
  (List.range UPAGES).countP fun v => has (entry s d v) PTE_P

/-- Resident sizes say what the page tables say, and unused slots have none. -/
def RssExact (s : Kernel) : Prop :=
  ∀ p, p < NPROC →
    ((s.proc p).state.live = true →
      (s.proc p).rss = PGSIZE * presentPages s (s.proc p).pgdir) ∧
    ((s.proc p).state = .unused → (s.proc p).rss = 0)

theorem presentPages_pos {s : Kernel} {d v : Nat} (hv : v < UPAGES)
    (hp : has (entry s d v) PTE_P = true) : 0 < presentPages s d :=
  List.countP_pos_iff.2 ⟨v, List.mem_range.2 hv, hp⟩

/-! ### What boot does to the process table

Without eviction `kalloc` returns a page or the run stops, so none of the paths
that take an address space apart is entered. -/

section

variable {s : Kernel}

theorem leavesProcs_popFree : Leaves Kernel.proc popFree fun _ => True := by
  intro s
  unfold popFree
  rw [wp_bind, wp_get]
  cases s.freelist with
  | nil => exact ⟨trivial, rfl⟩
  | cons r rest => exact ⟨trivial, rfl⟩

theorem leavesProcs_kalloc : Leaves Kernel.proc (kalloc noEvict) fun r => ∃ f, r = some f := by
  refine leavesProcs_popFree.bind fun r _ => ?_
  cases r with
  | some f => exact leaves_pure ⟨f, rfl⟩
  | none => exact fun _ => trivial

theorem leavesProcs_walkpgdir (d va : Nat) : Leaves Kernel.proc (walkpgdir d va) fun _ => True := by
  intro s
  unfold walkpgdir
  rw [wp_bind, wp_get]
  refine wp_ite (fun _ => wp_ite (fun _ => ⟨trivial, rfl⟩) fun _ => trivial) fun _ => ⟨trivial, rfl⟩

theorem leavesProcs_walkpgdirAlloc (d va : Nat) :
    Leaves Kernel.proc (walkpgdirAlloc noEvict d va) fun r => ∃ ptr, r = some ptr := by
  refine (leavesProcs_walkpgdir d va).bind fun r _ => ?_
  cases r with
  | some ptr => exact leaves_pure ⟨ptr, rfl⟩
  | none =>
    refine leavesProcs_kalloc.bind ?_
    rintro _ ⟨f, rfl⟩
    refine Leaves.bind (leaves_modify fun _ => rfl) fun _ _ => ?_
    exact Leaves.bind (leaves_modify fun _ => rfl) fun _ _ => leaves_pure ⟨_, rfl⟩

theorem leavesProcs_mapOne (d a : Nat) (pa perm : Word) :
    Leaves Kernel.proc (mapOne noEvict d a pa perm) fun r => r = 0 := by
  refine (leavesProcs_walkpgdirAlloc d a).bind ?_
  rintro _ ⟨ptr, rfl⟩
  refine Leaves.bind (P := fun _ => True) (fun s => ⟨trivial, rfl⟩) fun w _ => ?_
  refine Leaves.ite leaves_throw ?_
  exact Leaves.bind (leaves_modify fun _ => rfl) fun _ _ => leaves_pure rfl

theorem leavesProcs_mappages (d va size : Nat) (pa perm : Word) :
    Leaves Kernel.proc (mappages noEvict d va size pa perm) fun r => r = 0 := by
  have hloop : ∀ left a pa, Leaves Kernel.proc (mappagesLoop noEvict d perm left a pa) fun r => r = 0 := by
    intro left
    induction left with
    | zero => exact fun a pa => leavesProcs_mapOne d a pa perm
    | succ left ih =>
      intro a pa
      refine (leavesProcs_mapOne d a pa perm).bind ?_
      rintro _ rfl
      exact ih _ _
  exact hloop _ _ _

/-- The entry `p` of the process table may have changed, but not its resident size. -/
structure Touched (p : Nat) (s s' : Kernel) : Prop where
  others : ∀ q, q ≠ p → s'.proc q = s.proc q
  rss : (s'.proc p).rss = (s.proc p).rss

theorem Touched.trans {p : Nat} {s1 s2 : Kernel} (h : Touched p s s1) (h' : Touched p s1 s2) :
    Touched p s s2 :=
  ⟨fun q hq => (h'.others q hq).trans (h.others q hq), h'.rss.trans h.rss⟩

theorem touched_of_proc {s' : Kernel} (p : Nat) (h : s'.proc = s.proc) : Touched p s s' :=
  ⟨fun _ _ => by rw [h], by rw [h]⟩

theorem touched_setProc {p : Nat} {f : Proc → Proc}
    (hf : (f (s.proc p)).rss = (s.proc p).rss) : Touched p s (s.setProc p f) where
  others _ hq := Function.update_of_ne hq _ _
  rss := by
    simp only [Kernel.setProc, Function.update_self]
    exact hf

theorem leavesProcs_inituvm (d : Nat) (init : List Byte) :
    Leaves Kernel.proc (inituvm noEvict d init) fun _ => True := by
  refine Leaves.ite leaves_throw (leavesProcs_kalloc.bind ?_)
  rintro _ ⟨f, rfl⟩
  refine Leaves.bind (leaves_modify fun _ => rfl) fun _ _ => ?_
  refine (leavesProcs_mappages _ _ _ _ _).bind fun _ _ => ?_
  refine Leaves.bind (leaves_modify fun _ => rfl) fun _ _ => ?_
  refine (leavesProcs_walkpgdir d 0).bind fun r _ => ?_
  cases r with
  | none => exact fun _ => trivial
  | some ptr =>
    refine Leaves.bind (P := fun _ => True) (leaves_pure trivial) fun ptr _ s => ?_
    unfold incSharing
    rw [wp_bind, wp_get]
    exact wp_ite (fun _ => ⟨trivial, rfl⟩) fun _ => trivial

theorem allocproc_touches :
    wp (allocproc noEvict) s (fun r s' => (r = none ∧ s' = s) ∨ ∃ p, r = some p ∧ Touched p s s')
      fun _ => True := by
  unfold allocproc
  rw [wp_bind, wp_get]
  cases firstSlot NPROC fun p => decide ((s.proc p).state = .unused) with
  | none => exact .inl ⟨rfl, rfl⟩
  | some p =>
    dsimp only
    rw [wp_bind, wp_set, wp_bind]
    refine wp_conseq (leavesProcs_kalloc _) ?_
    rintro _ s1 ⟨⟨f, rfl⟩, hproc⟩
    simp only [wp_bind, wp_modify, wp_pure]
    refine .inr ⟨p, rfl, ?_⟩
    have hnew := touched_setProc (s := s) (p := p)
      (f := fun pr => { pr with state := .embryo, pid := s.nextpid }) rfl
    exact (hnew.trans (touched_of_proc p hproc)).trans (touched_setProc rfl)

variable [KernelImage]

theorem leavesProcs_kfree (f : Nat) : Leaves Kernel.proc (kfree f) fun _ => True :=
  Leaves.ite leaves_throw (leaves_modify fun _ => rfl)

theorem leavesProcs_setupkvm : Leaves Kernel.proc (setupkvm noEvict) fun r => ∃ d, r = some d := by
  have hmap : ∀ d l, Leaves Kernel.proc (mapKernel noEvict d l) fun r => r = true := by
    intro d l
    induction l with
    | nil => exact leaves_pure rfl
    | cons k rest ih =>
      refine (leavesProcs_mappages _ _ _ _ _).bind ?_
      rintro _ rfl
      exact ih
  refine leavesProcs_kalloc.bind ?_
  rintro _ ⟨d, rfl⟩
  refine Leaves.bind (leaves_modify fun _ => rfl) fun _ _ => ?_
  refine Leaves.ite leaves_throw ((hmap d kmap).bind ?_)
  rintro _ rfl
  exact leaves_pure ⟨d, rfl⟩

theorem userinit_touches {init : List Byte} :
    wp (userinit noEvict init) s (fun _ s' => ∃ p, Touched p s s') fun _ => True := by
  unfold userinit
  rw [wp_bind]
  refine wp_conseq allocproc_touches ?_
  rintro r s1 (⟨rfl, -⟩ | ⟨p, rfl, h1⟩)
  · exact trivial
  · dsimp only
    rw [wp_bind, wp_modify, wp_bind]
    refine wp_conseq (leavesProcs_setupkvm _) ?_
    rintro _ s2 ⟨⟨d, rfl⟩, h2⟩
    dsimp only
    rw [wp_bind, wp_modify, wp_bind]
    refine wp_conseq (leavesProcs_inituvm _ _ _) ?_
    rintro _ s3 ⟨-, h3⟩
    rw [wp_modify]
    have hset : Touched p s2 (s2.setProc p fun pr => { pr with pgdir := d }) := touched_setProc rfl
    have hkvm : Touched p s s2 := h1.trans (touched_of_proc p h2)
    exact ⟨p, ((hkvm.trans hset).trans (touched_of_proc p h3)).trans (touched_setProc rfl)⟩

theorem boot_touches {otherCpus : Nat} {init : List Byte} :
    wp (boot otherCpus init) Kernel.zero (fun _ s => ∃ p, Touched p Kernel.zero s)
      fun _ => True := by
  unfold boot
  rw [wp_bind]
  refine wp_conseq (leaves_loopFrom leavesProcs_kfree _ _ _) ?_
  rintro _ s1 ⟨-, h1⟩
  rw [wp_bind]
  refine wp_conseq (leavesProcs_setupkvm _) ?_
  rintro _ s2 ⟨-, h2⟩
  rw [wp_bind]
  refine wp_conseq (leaves_loopFrom (g := Kernel.proc) (fun _ => ?_) _ _ _) ?_
  · exact leavesProcs_kalloc.bind fun _ _ => leaves_pure trivial
  rintro _ s3 ⟨-, h3⟩
  rw [wp_bind]
  refine wp_conseq userinit_touches ?_
  rintro _ s4 ⟨p, h4⟩
  have hzero : Touched p Kernel.zero s3 := touched_of_proc p (h3.trans (h2.trans h1))
  obtain ⟨hothers, hrss⟩ := hzero.trans h4
  exact ⟨p, hothers, hrss⟩

/-! ### The first process -/

theorem boot_first {otherCpus : Nat} {init : List Byte}
    (hboot : boot otherCpus init Kernel.zero = .ok ((), s)) : Touched 0 Kernel.zero s := by
  obtain ⟨own, h⟩ := refines_of_boot hboot
  have hstate : (s.proc 0).state = .runnable := by rw [← h.table.state]; rfl
  obtain ⟨p, hp⟩ := wp_ok boot_touches hboot
  obtain rfl : p = 0 := by
    by_contra hne
    rw [hp.others 0 (Ne.symm hne)] at hstate
    cases hstate
  exact hp

theorem first_page_present {otherCpus : Nat} {init : List Byte}
    (hboot : boot otherCpus init Kernel.zero = .ok ((), s)) :
    (s.proc 0).state = .runnable ∧ (s.proc 0).rss = 0 ∧
      0 < presentPages s (s.proc 0).pgdir := by
  obtain ⟨own, h⟩ := refines_of_boot hboot
  have hstate : (s.proc 0).state = .runnable := by rw [← h.table.state]; rfl
  have hsize : (s.proc 0).sz = PGSIZE := by
    rw [← h.seesAs.size 0 (by decide) (by rw [hstate]; rfl)]
    rfl
  have hres := h.kinv.resident rfl (p := 0) ⟨by decide, .inr (.inl hstate)⟩
  refine ⟨hstate, (boot_first hboot).rss, presentPages_pos (v := 0) (by decide) (hres 0 ?_)⟩
  rw [hsize]
  decide

/-- Resident sizes are wrong from the start: whatever the first program is and
    however many processors there are, the first process is charged for nothing and
    has a page in memory. -/
theorem rss_inexact_after_boot {otherCpus : Nat} {init : List Byte}
    (hboot : boot otherCpus init Kernel.zero = .ok ((), s)) : ¬ RssExact s := by
  intro hexact
  obtain ⟨hstate, hzero, hpos⟩ := first_page_present hboot
  have hcharged := (hexact 0 (by decide)).1 (by rw [hstate]; rfl)
  rw [hzero] at hcharged
  exact absurd (Nat.mul_pos (by decide : 0 < PGSIZE) hpos) (by omega)

end

theorem rss_inexact_after_boot_sample : letI := KernelImage.sample
    ∃ s, boot 1 [7] Kernel.zero = .ok ((), s) ∧ ¬ RssExact s := by
  let _ := KernelImage.sample
  obtain ⟨s₀, _, hboot, -⟩ := sample_run (by decide)
  exact ⟨s₀, hboot, rss_inexact_after_boot hboot⟩

/-- One processor more and a first program of one byte: process 0 can run, has a page
    and is charged for none. -/
theorem first_process_uncharged : letI := KernelImage.sample
    ∃ s, boot 1 [7] Kernel.zero = .ok ((), s) ∧ (s.proc 0).state = .runnable ∧
      (s.proc 0).rss = 0 ∧ 0 < presentPages s (s.proc 0).pgdir := by
  let _ := KernelImage.sample
  obtain ⟨s₀, _, hboot, -⟩ := sample_run (by decide)
  exact ⟨s₀, hboot, first_page_present hboot⟩

end CowPaging
