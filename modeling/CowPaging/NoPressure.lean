import CowPaging.Boot

/-!
# Runs without memory pressure

From boot on, with any processes making any calls in any order, and as long as
`kalloc` finds a free page: the kernel answers as the reference machine does, in
which `fork` copies the whole memory, every process sees the bytes it has there,
and the reverse map counts and lists exactly the user entries that map a page.
-/

namespace CowPaging

open Bytes StateExcept SlotTable

/-- What the system calls check, or the processor, before the call `op` by `p` gets
    to the memory system: argument strings of `exec` end below the size of the
    caller (`fetchstr`), `init` does not exit, accesses are to pages of the process
    that user code may use. A shrink to size 0 is left out. -/
def Enabled (s : Kernel) (p : Nat) (op : Op) : Prop :=
  Runs s p ∧ match op with
    | .fork => True
    | .exec _ argv => ∀ arg ∈ argv, arg.length < (s.proc p).sz
    | .sbrk n => n < 0 → addSigned (s.proc p).sz n ≠ 0
    | .exit => s.initproc ≠ some p
    | .wait => True
    | .read va => Accessible s p va
    | .write va _ => Accessible s p va
    | .fault va => va < (s.proc p).sz
    | .touch va => va < (s.proc p).sz

/-- Pages may be shared; no page is ever swapped out. -/
def Mode.plenty : Mode := ⟨false, false, true, none⟩

section

variable [KernelImage] {own : Owners} {s s₀ s' : Kernel} {m : Flat} {p : Nat}
  {ops : List (Nat × Op)} {rs : List Reply} {otherCpus : Nat} {initcode : List Byte}

theorem suffices_enabled {mode : Mode} (hsingle : mode.single = false)
    (hstrict : mode.strict = false) (hresident : mode.resident = true) :
    Suffices mode true Enabled := by
  rintro own s m p op h ⟨hrun, hop⟩
  have hres := h.kinv.resident hresident hrun
  have hlax : mode.strict ≠ true := by rw [hstrict]; exact Bool.false_ne_true
  refine ⟨hrun, ?_⟩
  cases op with
  | fork => exact ⟨hsingle, rfl, hres⟩
  | exec ip argv => exact ⟨h.kinv.argsFit hrun hres hop, fun hm => (hlax hm).elim⟩
  | sbrk n => exact ⟨hop, fun hm => (hlax hm).elim⟩
  | exit => exact hop
  | wait => exact hsingle
  | read va => exact hop
  | write va b => exact hop
  | fault va => exact hop
  | touch va => exact hop

theorem evictOk_plenty : EvictOk Mode.plenty true noEvict (· = .noEvict) := evictOk_noEvict rfl

theorem refines_of_boot (hboot : boot otherCpus initcode Kernel.zero = .ok ((), s₀)) :
    ∃ own, Refines Mode.plenty own s₀ (Flat.boot initcode) :=
  (wp_ok (boot_spec (c := 0) (E := fun _ => True) rfl rfl (.inr trivial)
    (.inr trivial))
    hboot).1

theorem refines_of_steps (hboot : boot otherCpus initcode Kernel.zero = .ok ((), s₀))
    (hs : Steps noEvict Enabled s₀ ops rs s) :
    ∃ own, Refines Mode.plenty own s ((Flat.boot initcode).run ops).2 ∧
      rs = ((Flat.boot initcode).run ops).1 := by
  obtain ⟨own, h⟩ := refines_of_boot hboot
  exact hs.refines evictOk_plenty (suffices_enabled rfl rfl rfl) h

/-! ### A run -/

/-- A first program of one byte. The first process forks and its child reads the
    byte. -/
theorem sample_run (hmem : 12 + 1 + 23 ≤ NFRAMES - KernelImage.endPage) :
    ∃ s₀ s, boot 1 [7] Kernel.zero = .ok ((), s₀) ∧
      Steps noEvict Enabled s₀ [(0, .fork), (1, .read 0)] [.code 2, .byte 7] s := by
  have hlen : ([7] : List Byte).length < PGSIZE := by decide
  have hchild : ((Flat.boot [7]).fork 0).2.proc 1 =
      ⟨.runnable, 2, some 0, false, (Memory.empty.grow PGSIZE).copyIn 0 0 [7]⟩ := rfl
  have huser : ((Memory.empty.grow PGSIZE).copyIn 0 0 [7]).user 0 = true := by
    simp [Memory.copyIn, Memory.grow, Memory.empty, pagesOf, PGROUNDUP, PGSIZE]
  have hwp : wp (boot 1 [7]) Kernel.zero (fun _ s =>
      (∃ own, Refines Mode.plenty own s (Flat.boot [7])) ∧
      Supply Mode.plenty true noEvict (fun _ => False) 12 s) fun _ => False :=
    boot_spec rfl rfl (.inl hlen) (.inl hmem)
  obtain ⟨_, s₀, hboot, ⟨own, h⟩, hsup⟩ := exists_ok_of_wp hwp
  have hstate : (s₀.proc 0).state = .runnable := by rw [← h.table.state]; rfl
  have hrun : Runs s₀ 0 := ⟨by decide, .inr (.inl hstate)⟩
  have hsize : (s₀.proc 0).sz = PGSIZE := by
    rw [← h.seesAs.size 0 (by decide) (by rw [hstate]; rfl)]
    rfl
  have hfork : wp (perform noEvict 0 .fork) s₀ (fun r s1 =>
      r = .code 2 ∧ ∃ own1, Refines Mode.plenty own1 s1 ((Flat.boot [7]).fork 0).2)
      fun _ => False := by
    unfold perform
    rw [wp_bind, wp_modify, wp_bind]
    refine wp_conseq ((h.withCur hrun.1).wp_fork (k := 0) ?_ rfl hrun (h.kinv.resident rfl hrun)) ?_
    · rw [show (({ s₀ with cur := 0 } : Kernel).proc 0).sz = PGSIZE from hsize]
      exact hsup.congr rfl
    · rintro r s1 ⟨href, hreply, -⟩
      exact ⟨hreply, href⟩
  obtain ⟨_, s1, hperf1, rfl, own1, h1⟩ := exists_ok_of_wp hfork
  have hstate1 : (s1.proc 1).state = .runnable := by rw [← h1.table.state]; rfl
  have hrun1 : Runs s1 1 := ⟨by decide, .inr (.inl hstate1)⟩
  have hsize1 : (s1.proc 1).sz = PGSIZE := by
    rw [← h1.seesAs.size 1 (by decide) (by rw [hstate1]; rfl)]
    rfl
  have hva : 0 < (s1.proc 1).sz := by rw [hsize1]; decide
  have hread : wp (perform noEvict 1 (.read 0)) s1 (fun r _ => r = .byte 7) fun _ => False := by
    unfold perform
    rw [wp_bind, wp_modify, wp_bind]
    refine wp_conseq ((h1.withCur hrun1.1).wp_userRead_present hrun1 hva
      (by rw [hchild]; exact huser) (h1.kinv.resident rfl hrun1 0 hva)) ?_
    rintro b s2 ⟨own2, -, rfl⟩
    rw [hchild]
    rfl
  obtain ⟨_, s2, hperf2, rfl⟩ := exists_ok_of_wp hread
  have hacc : Accessible s1 1 0 := by
    obtain ⟨_, page, user, heq, hview, -⟩ := (h1.memory 1 _ _ hrun1.live).seen 0 hva
    rw [hchild] at heq
    rw [← (Prod.mk.inj (Option.some.inj heq)).2] at hview
    exact ⟨hva, page, hview.trans (by rw [huser])⟩
  exact ⟨s₀, s2, hboot, .cons ⟨hrun, trivial⟩ hperf1 (.cons ⟨hrun1, hacc⟩ hperf2 (.nil s2))⟩

/-! ### Copy-on-write is copying -/

theorem Refines.write_private {own' : Owners} {va q va' : Nat} {b : Byte}
    (h : Refines Mode.plenty own s m) (h' : Refines Mode.plenty own' s' (m.write p va b).2)
    (hq : q < NPROC) (hlive : (s.proc q).state.live = true) (hne : q ≠ p)
    (hva : va' < (s.proc q).sz) : byteAt s' q va' = byteAt s q va' := by
  have hmem : ((m.write p va b).2.proc q).memory = (m.proc q).memory := by
    rw [Flat.write, Flat.setMemory_proc, if_neg hne]
  have hlive' : (s'.proc q).state.live = true := by
    have hother : (m.write p va b).2.proc q = m.proc q := Function.update_of_ne hne _ _
    rw [← h'.table.state, hother, h.table.state, hlive]
  have hsize : (s'.proc q).sz = (s.proc q).sz := by
    rw [← h'.seesAs.size q hq hlive', hmem, h.seesAs.size q hq hlive]
  rw [h.seesAs.bytes q va' hq hlive hva, h'.seesAs.bytes q va' hq hlive' (by omega), hmem]

/-- The kernel refines the machine whose `fork` copies the parent's memory: same
    replies, same bytes for every live process at every address below its size. It
    stops only where the free list is empty, and a write shows in no process but the
    writer. -/
theorem cow_refines_eager_copy (hboot : boot otherCpus initcode Kernel.zero = .ok ((), s₀))
    (hs : Steps noEvict Enabled s₀ ops rs s) :
    SeesAs s ((Flat.boot initcode).run ops).2 ∧ rs = ((Flat.boot initcode).run ops).1 ∧
    (∀ p op e, Enabled s p op → perform noEvict p op s = .error e → e = .noEvict) ∧
    (∀ p va b r s', Enabled s p (.write va b) → perform noEvict p (.write va b) s = .ok (r, s') →
      ∀ q va', q < NPROC → (s.proc q).state.live = true → q ≠ p → va' < (s.proc q).sz →
        byteAt s' q va' = byteAt s q va') := by
  obtain ⟨own, h, hreplies⟩ := refines_of_steps hboot hs
  refine ⟨h.seesAs, hreplies, ?_, ?_⟩
  · intro p op e hen herr
    exact Refines.halts (E := (· = .noEvict)) evictOk_plenty (suffices_enabled rfl rfl rfl) h hen herr
  · intro p va b r s' hen hok q va' hq hlive hne hva
    obtain ⟨hrun, hadm⟩ := suffices_enabled rfl rfl rfl _ _ _ _ _ h hen
    obtain ⟨own', h', -⟩ := wp_ok (perform_spec evictOk_plenty h hrun hadm) hok
    exact h.write_private h' hq hlive hne hva

end

theorem cow_refines_eager_copy_sample : letI := KernelImage.sample
    ∃ s₀ s, boot 1 [7] Kernel.zero = .ok ((), s₀) ∧
      Steps noEvict Enabled s₀ [(0, .fork), (1, .read 0)] [.code 2, .byte 7] s ∧
      SeesAs s ((Flat.boot [7]).run [(0, .fork), (1, .read 0)]).2 := by
  let _ := KernelImage.sample
  obtain ⟨s₀, s, hboot, hs⟩ := sample_run (by decide)
  exact ⟨s₀, s, hboot, hs, (cow_refines_eager_copy hboot hs).1⟩

/-! ### The reverse map is exact -/

section

variable [KernelImage] {own : Owners} {s s₀ : Kernel} {p n : Nat} {ops : List (Nat × Op)}
  {rs : List Reply} {otherCpus : Nat} {initcode : List Byte}

/-- The user entries that map page `n`: below `KERNBASE`, present, in the directory of
    a process. -/
def userPtes (s : Kernel) (n : Nat) : Set PtePtr :=
  { ptr | ∃ p v, p < NPROC ∧ (s.proc p).state.live = true ∧ v < UPAGES ∧
      pteSlot s (s.proc p).pgdir v = some ptr ∧ has (pteAt s ptr) PTE_P = true ∧
      frameOf (pteAt s ptr) = n }

/-- The reverse map says what the page tables say. -/
structure RmapExact (s : Kernel) : Prop where
  count : ∀ n, n < NFRAMES → (s.rmap n).refcount = (userPtes s n).ncard
  finite : ∀ n, n < NFRAMES → (userPtes s n).Finite
  listed : ∀ n, n < NFRAMES → ∀ ptr, ptr ∈ userPtes s n ↔
    ∃ i, i < NPROC ∧ (s.rmap n).presentId i = true ∧ (s.rmap n).pteId i = ptr
  once : ∀ n i j, n < NFRAMES → i < NPROC → j < NPROC → (s.rmap n).presentId i = true →
    (s.rmap n).presentId j = true → (s.rmap n).pteId i = (s.rmap n).pteId j → i = j
  range : ∀ n ptr, ptr ∈ userPtes s n → n < NFRAMES
  writable : ∀ n ptr, ptr ∈ userPtes s n → has (pteAt s ptr) PTE_W = true →
    (s.rmap n).refcount = 1
  unmapped : ∀ n, n < NFRAMES → ((s.rmap n).refcount = 0 ↔ userPtes s n = ∅)

/-- Every directory belongs to a process. -/
def Attached (own : Owners) (s : Kernel) : Prop :=
  ∀ d, own d = .dir → ∃ p z, attachOf s p = some (d, z)

theorem Inv.dir_iff {mode : Mode} {d : Nat} (h : Inv mode own (attachOf s) s)
    (hatt : Attached own s) :
    own d = .dir ↔ ∃ p, p < NPROC ∧ (s.proc p).state.live = true ∧ (s.proc p).pgdir = d := by
  constructor
  · intro hd
    obtain ⟨p, z, hatt⟩ := hatt d hd
    obtain ⟨hp, hlive, hpg, -⟩ := attachOf_eq_some.1 hatt
    exact ⟨p, hp, hlive, hpg⟩
  · rintro ⟨p, hp, hlive, rfl⟩
    exact h.procs.dir p _ _ (attachOf_eq_some.2 ⟨hp, hlive, rfl, rfl⟩)

theorem Inv.mappers_eq {mode : Mode} (h : Inv mode own (attachOf s) s) (hatt : Attached own s)
    (n : Nat) : mappers own s n = userPtes s n := by
  ext ptr
  constructor
  · rintro ⟨d, v, w, ⟨hd, hv, hw⟩, hp, hn, hslot⟩
    obtain ⟨p, hlt, hlive, rfl⟩ := (h.dir_iff hatt).1 hd
    have hword : pteAt s ptr = w := Option.some.inj ((pteOf_of_slot hslot).symm.trans hw)
    exact ⟨p, v, hlt, hlive, hv, hslot, by rw [hword, hp], by rw [hword, hn]⟩
  · rintro ⟨p, v, hlt, hlive, hv, hslot, hp, hn⟩
    exact ⟨_, v, _, ⟨(h.dir_iff hatt).2 ⟨p, hlt, hlive, rfl⟩, hv, pteOf_of_slot hslot⟩, hp, hn,
      hslot⟩

theorem KInv.rmapExact {mode : Mode} (h : KInv mode own s) : RmapExact s := by
  have hlists : ∀ n, n < NFRAMES → (s.rmap n).Lists (userPtes s n) := by
    intro n hn
    rw [← h.inv.mappers_eq h.attached n]
    exact h.inv.maps.exact n hn
  refine ⟨fun n hn => (hlists n hn).count_eq_ncard, ?_, fun n hn => (hlists n hn).mem, ?_, ?_, ?_,
    fun n hn => (hlists n hn).count_eq_zero⟩
  · intro n hn
    refine Set.Finite.subset ((Finset.range NPROC).finite_toSet.image (s.rmap n).pteId) ?_
    intro ptr hptr
    obtain ⟨i, hi, -, rfl⟩ := ((hlists n hn).mem ptr).1 hptr
    exact ⟨i, Finset.mem_coe.2 (Finset.mem_range.2 hi), rfl⟩
  · intro n i j hn hi hj hpi hpj heq
    exact (hlists n hn).inj i j hi hj hpi hpj heq
  · intro n ptr hptr
    rw [← h.inv.mappers_eq h.attached] at hptr
    obtain ⟨d, v, w, hu, hp, rfl, -⟩ := hptr
    exact h.inv.frame_lt hu hp
  · intro n ptr hptr hW
    rw [← h.inv.mappers_eq h.attached] at hptr
    obtain ⟨d, v, w, hu, hp, rfl, hslot⟩ := hptr
    have hword : pteAt s ptr = w := Option.some.inj ((pteOf_of_slot hslot).symm.trans hu.2.2)
    exact h.inv.maps.writable d v w hu hp (by rw [← hword]; exact hW)

/-- While `fork` can still find a process slot, every entry has a free slot: a page
    is mapped at most once by each process. -/
theorem KInv.room (h : KInv Mode.plenty own s) (hn : n < NFRAMES) (hp : p < NPROC)
    (hunused : (s.proc p).state = .unused) :
    ∃ i, i < NPROC ∧ (s.rmap n).presentId i = false := by
  have houtside : own NFRAMES ≠ .dir := by
    intro hd
    have hrange := (h.inv.frames.range NFRAMES (by rw [hd]; simp)).2
    omega
  have hroomy : Roomy own (attachOf s) NFRAMES := by
    refine ⟨fun e he => ?_, p, hp, ?_⟩
    · obtain ⟨q, z, hatt⟩ := h.attached e he
      exact .inr ⟨q, z, (attachOf_eq_some.1 hatt).1, hatt⟩
    · rw [attachOf, if_neg (by rw [hunused]; simp [ProcState.live])]
  have hlt := hroomy.refcount_lt h.inv.maps hn fun v w hu _ => (houtside hu.1).elim
  exact (h.inv.maps.exact n hn).exists_free hlt

/-- The reverse map is exact in every state of every run. `inc_sharing` has a free
    slot: `fork` counts each page of the parent once, while a process slot is unused,
    and the other callers count a page just taken from the free list. The kernel stops
    only where the free list is empty, so `dec_sharing` does not panic. -/
theorem rmap_exact_without_pressure
    (hboot : boot otherCpus initcode Kernel.zero = .ok ((), s₀))
    (hs : Steps noEvict Enabled s₀ ops rs s) :
    RmapExact s ∧
    (∀ n p, n < NFRAMES → p < NPROC → (s.proc p).state = .unused →
      ∃ i, i < NPROC ∧ (s.rmap n).presentId i = false) ∧
    (∀ n, n ∈ s.freelist → ∀ i, i < NPROC → (s.rmap n).presentId i = false) ∧
    (∀ p op e, Enabled s p op → perform noEvict p op s = .error e → e = .noEvict) := by
  obtain ⟨own, h, -⟩ := refines_of_steps hboot hs
  refine ⟨h.kinv.rmapExact, fun n p hn hp hun => h.kinv.room hn hp hun, ?_, ?_⟩
  · intro n hn i hi
    have hfree := (h.kinv.inv.frames.free_iff n).1 hn
    have hlt := h.kinv.inv.user_lt (by rw [hfree]; simp : own n ≠ .unmanaged)
    have hlists := h.kinv.inv.maps.exact n hlt
    rw [h.kinv.inv.maps.mappers_eq_empty (by rw [hfree]; simp)] at hlists
    by_contra hused
    exact ((hlists.mem _).2 ⟨i, hi, Bool.not_eq_false _ ▸ hused, rfl⟩).elim
  · intro p op e hen herr
    exact Refines.halts (E := (· = .noEvict)) evictOk_plenty (suffices_enabled rfl rfl rfl) h hen herr

end

theorem rmap_exact_without_pressure_sample : letI := KernelImage.sample
    ∃ s₀ s, boot 1 [7] Kernel.zero = .ok ((), s₀) ∧
      Steps noEvict Enabled s₀ [(0, .fork), (1, .read 0)] [.code 2, .byte 7] s ∧
      RmapExact s := by
  let _ := KernelImage.sample
  obtain ⟨s₀, s, hboot, hs⟩ := sample_run (by decide)
  exact ⟨s₀, s, hboot, hs, (rmap_exact_without_pressure hboot hs).1⟩

end CowPaging
