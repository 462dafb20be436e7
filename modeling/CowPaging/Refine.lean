import CowPaging.ExecSpec

/-!
# The kernel against the reference machine

`KInv` is what holds between two operations: the invariant with every process
attached, a stack for every process, no directory without a process, and nothing
mapped above the size of a process. `Refines` adds that the process table agrees
with the reference machine and that every process sees the memory it has there.
-/

namespace CowPaging

open Bytes StateExcept SlotTable
open Function (update_of_ne update_self update_eq_self update)

variable [KernelImage]

/-- The books of a study that accounts for every page: what the kernel keeps for itself,
    a process for every stack, and no page missing. -/
structure Ledger (K : Kept) (own : Owners) (s : Kernel) : Prop where
  managed : ∀ f, KernelImage.endPage ≤ f → f < NFRAMES → own f ≠ .unmanaged
  held : ∀ f, own f = .held ↔ InDir s K.kpgdir f ∨ f ∈ K.pages
  nodup : K.pages.Nodup
  apart : ∀ f, f ∈ K.pages → ¬ InDir s K.kpgdir f
  kstacks : ∀ f p, own f = .stack p →
    p < NPROC ∧ (s.proc p).state ≠ .unused ∧ (s.proc p).kstack = f

structure KInv (mode : Mode) (own : Owners) (s : Kernel) : Prop where
  inv : Inv mode own (attachOf s) s
  kstack : ∀ p, p < NPROC → (s.proc p).state ≠ .unused → own (s.proc p).kstack = .stack p
  attached : ∀ d, own d = .dir → ∃ p z, attachOf s p = some (d, z)
  above : ∀ p d z v, attachOf s p = some (d, z) → z ≤ v * PGSIZE → v < UPAGES →
    has (entry s d v) PTE_P = false
  settled : ∀ p, p < NPROC → (s.proc p).state ≠ .embryo
  ledger : ∀ K, mode.kept = some K → Ledger K own s

/-- The process tables agree. -/
structure SameTable (s : Kernel) (m : Flat) : Prop where
  state : ∀ p, (m.proc p).state = (s.proc p).state
  pid : ∀ p, (m.proc p).pid = (s.proc p).pid
  parent : ∀ p, (m.proc p).parent = (s.proc p).parent
  killed : ∀ p, (m.proc p).killed = (s.proc p).killed
  nextpid : m.nextpid = s.nextpid
  initproc : m.initproc = s.initproc

/-- The memory behind an attached directory. -/
structure Backs (s : Kernel) (d z : Nat) (m : Memory) : Prop where
  size : m.sz = z
  seen : ∀ v, v * PGSIZE < z → SameView (some (m.page v, m.user v)) (view s d v)

structure Refines (mode : Mode) (own : Owners) (s : Kernel) (m : Flat) : Prop where
  kinv : KInv mode own s
  table : SameTable s m
  memory : ∀ p d z, attachOf s p = some (d, z) → Backs s d z (m.proc p).memory

variable {mode : Mode} {keep : Bool} {evict : K Unit} {E : Halt → Prop}
  {own own' : Owners} {att : Attach} {s s' : Kernel} {d z v : Nat} {m : Flat}

/-! ### The books -/

theorem Ledger.kpgdir {K : Kept} (h : Ledger K own s) : own K.kpgdir = .held :=
  (h.held _).2 (.inl (.inl rfl))

/-- The kernel has the same pages with the same bytes, and stacks stay with their
    processes. -/
theorem Ledger.step {K : Kept} (h : Ledger K own s) (hkern : SameKernel own own')
    (hmem : ∀ f, own f = .held → s'.mem f = s.mem f)
    (hstack : ∀ p, p < NPROC → (s.proc p).state ≠ .unused →
      (s'.proc p).state ≠ .unused ∧ (s'.proc p).kstack = (s.proc p).kstack) :
    Ledger K own' s' where
  managed f hlo hhi hun := by
    have hsame := hkern f (.inr (by rw [hun]; trivial))
    exact h.managed f hlo hhi (by rw [← hsame, hun])
  held f := by
    rw [InDir.congr (hmem _ h.kpgdir), ← h.held]
    constructor
    · intro hf
      rw [← hkern f (.inr (by rw [hf]; trivial)), hf]
    · intro hf
      rw [hkern f (.inl (by rw [hf]; trivial)), hf]
  nodup := h.nodup
  apart f hf := by
    rw [InDir.congr (hmem _ h.kpgdir)]
    exact h.apart f hf
  kstacks f p hf := by
    rw [hkern f (.inr (by rw [hf]; trivial))] at hf
    obtain ⟨hp, hused, hks⟩ := h.kstacks f p hf
    obtain ⟨hused', hks'⟩ := hstack p hp hused
    exact ⟨hp, hused', hks'.trans hks⟩

theorem Ledger.congr {K : Kept} (h : Ledger K own s) (hkern : SameKernel own own')
    (hmem : ∀ f, own f = .held → s'.mem f = s.mem f) (hprocs : SameProcs s s') :
    Ledger K own' s' := by
  refine h.step hkern hmem fun p _ hused => ?_
  rw [hprocs.state, hprocs.proc p]
  exact ⟨hused, rfl⟩

theorem Ledger.update {K : Kept} {f : Nat} {o : Owner} (h : Ledger K own s)
    (hold : own f ≠ .held) (hnew : o ≠ .held ∧ o ≠ .unmanaged)
    (hmem : ∀ g, own g = .held → s'.mem g = s.mem g)
    (hstack : ∀ g p, Function.update own f o g = .stack p →
      p < NPROC ∧ (s'.proc p).state ≠ .unused ∧ (s'.proc p).kstack = g) :
    Ledger K (Function.update own f o) s' where
  managed g hlo hhi := by grind [Function.update_apply, h.managed]
  held g := by
    rw [InDir.congr (hmem _ h.kpgdir), ← h.held]
    by_cases hgf : g = f
    · grind
    · rw [update_of_ne hgf]
  nodup := h.nodup
  apart g hg := by
    rw [InDir.congr (hmem _ h.kpgdir)]
    exact h.apart g hg
  kstacks := hstack

/-- Process `np` got the stack page `f`. -/
theorem Ledger.addStack {K : Kept} {np f : Nat} (h : Ledger K own s)
    (hf : own f = .free ∨ own f = .user) (hmem : ∀ g, own g = .held → s'.mem g = s.mem g)
    (hself : np < NPROC ∧ (s'.proc np).state ≠ .unused ∧ (s'.proc np).kstack = f)
    (hfresh : (s.proc np).state = .unused)
    (hrest : ∀ p, p ≠ np → (s'.proc p).state = (s.proc p).state ∧
      (s'.proc p).kstack = (s.proc p).kstack) :
    Ledger K (Function.update own f (.stack np)) s' := by
  refine h.update (by rcases hf with hf | hf <;> rw [hf] <;> simp) (by simp) hmem ?_
  intro g p hg
  by_cases hgf : g = f
  · grind
  · rw [update_of_ne hgf] at hg
    obtain ⟨hp, hused, hks⟩ := h.kstacks g p hg
    have hpn : p ≠ np := by
      rintro rfl
      exact hused hfresh
    rw [(hrest p hpn).1, (hrest p hpn).2]
    exact ⟨hp, hused, hks⟩

/-- The stack of process `c` is free. -/
theorem Ledger.dropStack {K : Kept} {c : Nat} (h : Ledger K own s)
    (hc : own (s.proc c).kstack = .stack c) (hmem : ∀ g, own g = .held → s'.mem g = s.mem g)
    (hrest : ∀ p, p ≠ c → (s'.proc p).state = (s.proc p).state ∧
      (s'.proc p).kstack = (s.proc p).kstack) :
    Ledger K (Function.update own (s.proc c).kstack .free) s' := by
  refine h.update (by rw [hc]; simp) (by simp) hmem ?_
  intro g p hg
  have hgf : g ≠ (s.proc c).kstack := by grind
  rw [update_of_ne hgf] at hg
  obtain ⟨hp, hused, hks⟩ := h.kstacks g p hg
  have hpc : p ≠ c := by
    rintro rfl
    exact hgf hks.symm
  rw [(hrest p hpc).1, (hrest p hpc).2]
  exact ⟨hp, hused, hks⟩

/-! ### Attaching and detaching -/

omit [KernelImage] in
theorem attachOf_setProc (s : Kernel) (p : Nat) (f : Proc → Proc) :
    attachOf (s.setProc p f) = update (attachOf s) p
      (if p < NPROC ∧ (f (s.proc p)).state.live = true
        then some ((f (s.proc p)).pgdir, (f (s.proc p)).sz) else none) := by
  funext q
  by_cases hq : q = p
  · subst hq
    simp only [attachOf, Kernel.setProc, update_self]
  · simp only [attachOf, Kernel.setProc, update_of_ne hq]

/-- The process table matters only through the attachment and the size of idle
    slots. -/
theorem Inv.withProc (h : Inv mode own att s) {f : Nat → Proc}
    (nextpid cur : Nat) (initproc : Option Nat)
    (hidle : mode.single = true → Clean { s with proc := f, nextpid, cur, initproc }) :
    Inv mode own att { s with proc := f, nextpid, cur, initproc } :=
  h.congr (SameRoles.refl own) (fun _ _ => rfl) rfl rfl (h.frames.congr rfl) hidle

theorem Inv.detach (h : Inv mode own att s) (p : Nat) :
    Inv mode.lax own (update att p none) s := by
  have hsub : ∀ {q : Nat} {x : Nat × Nat}, update att p none q = some x →
      att q = some x := by grind
  refine ⟨h.frames, h.tables, h.maps, ⟨?_, ?_, ?_, ?_, ?_, h.procs.slotFree⟩, h.unshared, h.idle,
    h.resident, fun hm => Bool.noConfusion hm⟩
  · exact fun q d z hq => h.procs.dir q d z (hsub hq)
  · exact fun q r d z z' hq hr => h.procs.inj q r d z z' (hsub hq) (hsub hr)
  · exact fun q d z hq => h.procs.size q d z (hsub hq)
  · exact fun q d z v hq => h.procs.page q d z v (hsub hq)
  · exact fun q d z v w hq => h.procs.slot q d z v w (hsub hq)

/-- Process `p` gets the directory `d` and the size `z`. -/
theorem Inv.attach {p : Nat} (h : Inv mode.lax own att s) (hd : own d = .dir)
    (hother : ∀ q z, q ≠ p → att q ≠ some (d, z)) (hsize : z ≤ KERNBASE)
    (hpage : ∀ v, v * PGSIZE < z →
      ∃ w, pteOf s d v = some w ∧ (has w PTE_P = true ∨ isSwapped w = true))
    (hslot : ∀ v w, v < UPAGES → pteOf s d v = some w → isSwapped w = true →
      SlotRec s p d v w)
    (hexact : mode.strict = true → SlotExact (update att p (some (d, z))) s) :
    Inv mode own (update att p (some (d, z))) s := by
  have hcase : ∀ {q : Nat} {x : Nat × Nat}, update att p (some (d, z)) q = some x →
      (q = p ∧ x = (d, z)) ∨ (q ≠ p ∧ att q = some x) := by
    intro q x hx
    by_cases hq : q = p
    · subst hq
      rw [update_self] at hx
      exact .inl ⟨rfl, (Option.some.inj hx).symm⟩
    · rw [update_of_ne hq] at hx
      exact .inr ⟨hq, hx⟩
  refine ⟨h.frames, h.tables, h.maps, ⟨?_, ?_, ?_, ?_, ?_, h.procs.slotFree⟩, h.unshared, h.idle,
    h.resident, hexact⟩
  · intro q e y hq
    rcases hcase hq with ⟨-, heq⟩ | ⟨-, hq'⟩
    · rw [(Prod.mk.inj heq).1, hd]
    · exact h.procs.dir q e y hq'
  · intro q r e y y' hq hr
    rcases hcase hq with ⟨rfl, heq⟩ | ⟨hqp, hq'⟩ <;> rcases hcase hr with ⟨rfl, heq'⟩ | ⟨hrp, hr'⟩
    · rfl
    · rw [(Prod.mk.inj heq).1] at hr'
      exact (hother r y' hrp hr').elim
    · rw [(Prod.mk.inj heq').1] at hq'
      exact (hother q y hqp hq').elim
    · exact h.procs.inj q r e y y' hq' hr'
  · intro q e y hq
    rcases hcase hq with ⟨-, heq⟩ | ⟨-, hq'⟩
    · rw [(Prod.mk.inj heq).2]
      exact hsize
    · exact h.procs.size q e y hq'
  · intro q e y v hq hv
    rcases hcase hq with ⟨-, heq⟩ | ⟨-, hq'⟩
    · rw [(Prod.mk.inj heq).2] at hv
      rw [(Prod.mk.inj heq).1]
      exact hpage v hv
    · exact h.procs.page q e y v hq' hv
  · intro q e y v w hq hv hw hsw
    rcases hcase hq with ⟨rfl, heq⟩ | ⟨-, hq'⟩
    · rw [(Prod.mk.inj heq).1] at hw ⊢
      exact hslot v w hv hw hsw
    · exact h.procs.slot q e y v w hq' hv hw hsw

/-! ### Steps that keep the process table -/

theorem KInv.not_tracked {p : Nat} (h : KInv mode own s) (hatt : attachOf s p = some (d, z))
    (hz : z ≤ v * PGSIZE) : ¬ Tracked (attachOf s) d v := by
  rintro ⟨q, y, hq, hlt⟩
  have hqp := h.inv.procs.inj q p d y z hq hatt
  subst hqp
  have hyz : y = z := (Prod.mk.inj (Option.some.inj (hq.symm.trans hatt))).2
  omega

theorem KInv.step {X : Nat → Nat → Prop} (h : KInv mode own s) (hkeeps : Keeps own own')
    (hinv : Inv mode own' (attachOf s) s') (hprocs : SameProcs s s')
    (hmem : ∀ f, own f = .held → s'.mem f = s.mem f)
    (hquiet : Quiet own (attachOf s) X s s') (hX : ∀ e u, X e u → Tracked (attachOf s) e u) :
    KInv mode own' s' where
  inv := by rw [hprocs.attach]; exact hinv
  kstack p hp hstate := by
    rw [hprocs.state] at hstate
    rw [hprocs.proc p]
    exact hkeeps.retains.of_stack (h.kstack p hp hstate)
  attached d hd := by
    rw [hprocs.attach]
    exact h.attached d (hkeeps.dir d hd)
  above p d z v hatt hz hv := by
    rw [hprocs.attach] at hatt
    have hnt := h.not_tracked hatt hz
    exact hquiet d v (h.inv.procs.dir p d z hatt) hv hnt (fun hx => hnt (hX d v hx))
      (h.above p d z v hatt hz hv)
  settled p hp := by
    rw [hprocs.state]
    exact h.settled p hp
  ledger K hK := (h.ledger K hK).congr hkeeps.sameKernel hmem hprocs

omit [KernelImage] in
theorem SameTable.congr (h : SameTable s m) (hprocs : SameProcs s s') : SameTable s' m where
  state p := by rw [hprocs.proc p]; exact h.state p
  pid p := by rw [hprocs.proc p]; exact h.pid p
  parent p := by rw [hprocs.proc p]; exact h.parent p
  killed p := by rw [hprocs.proc p]; exact h.killed p
  nextpid := by rw [hprocs.nextpid]; exact h.nextpid
  initproc := by rw [hprocs.initproc]; exact h.initproc

omit [KernelImage] in
theorem Backs.congr {mem : Memory} (h : Backs s d z mem)
    (hview : ∀ v, v * PGSIZE < z → SameView (view s d v) (view s' d v)) : Backs s' d z mem :=
  ⟨h.size, fun v hv => (h.seen v hv).trans (hview v hv)⟩

theorem Inv.visible {p : Nat} (h : Inv mode own att s) (hatt : att p = some (d, z))
    (hv : v * PGSIZE < z) : own d = .dir ∧ v < UPAGES ∧ Visible att s d v := by
  have ht : Tracked att d v := ⟨p, z, hatt, hv⟩
  obtain ⟨w, hw, -⟩ := h.procs.page p d z v hatt hv
  exact ⟨h.procs.dir p d z hatt, ht.upages h.procs, w, hw, .inr ht⟩

theorem Refines.step {X : Nat → Nat → Prop} (h : Refines mode own s m) (hkeeps : Keeps own own')
    (hinv : Inv mode own' (attachOf s) s') (hpres : Preserves own (attachOf s) s s')
    (hquiet : Quiet own (attachOf s) X s s') (hX : ∀ e u, X e u → Tracked (attachOf s) e u) :
    Refines mode own' s' m where
  kinv := h.kinv.step hkeeps hinv hpres.procs (fun f hf => hpres.held f (.inl hf)) hquiet hX
  table := h.table.congr hpres.procs
  memory p d z hatt := by
    rw [hpres.procs.attach] at hatt
    refine (h.memory p d z hatt).congr fun v hv => ?_
    obtain ⟨hd, hu, hvis⟩ := h.kinv.inv.visible hatt hv
    exact (hpres.seen d v hd hu hvis).2

/-! ### Reads and writes -/

/-- Process `p` may run and its call comes with a valid address. -/
def Runs (s : Kernel) (p : Nat) : Prop :=
  p < NPROC ∧ ((s.proc p).state = .sleeping ∨ (s.proc p).state = .runnable ∨
    (s.proc p).state = .running)

omit [KernelImage] in
theorem Runs.live {p : Nat} (h : Runs s p) :
    attachOf s p = some ((s.proc p).pgdir, (s.proc p).sz) := by
  refine attachOf_eq_some.2 ⟨h.1, ?_, rfl, rfl⟩
  rcases h.2 with hs | hs | hs <;> rw [hs] <;> rfl

omit [KernelImage] in
theorem page_lt {va : Nat} (h : va < z) : va / PGSIZE * PGSIZE < z :=
  Nat.lt_of_le_of_lt (Nat.div_mul_le_self va PGSIZE) h

theorem Refines.addressed {va : Nat} (h : Refines mode own s m) (hrun : Runs s s.cur)
    (hva : va < (s.proc s.cur).sz)
    (huser : (m.proc s.cur).memory.user (va / PGSIZE) = true) :
    Addressed s (s.proc s.cur).pgdir (s.proc s.cur).sz va ∧
      SameView (some ((m.proc s.cur).memory.page (va / PGSIZE), true))
        (view s (s.proc s.cur).pgdir (va / PGSIZE)) := by
  have hseen := (h.memory _ _ _ hrun.live).seen (va / PGSIZE) (page_lt hva)
  rw [huser] at hseen
  exact ⟨⟨hrun.live, page_lt hva⟩, hseen⟩

theorem Refines.read_of_access {va : Nat} (h : Refines mode own s m) (hrun : Runs s s.cur)
    (hva : va < (s.proc s.cur).sz)
    (huser : (m.proc s.cur).memory.user (va / PGSIZE) = true)
    (haccess : wp (access evict false va 3) s (fun f s' => ∃ own',
      Accessed mode false own own' (s.proc s.cur).pgdir (va / PGSIZE) f s s') E) :
    wp (userRead evict va) s (fun b s' => ∃ own', Refines mode own' s' m ∧
      b = (m.proc s.cur).memory.page (va / PGSIZE) (va % PGSIZE)) E := by
  obtain ⟨ha, hview⟩ := h.addressed hrun hva huser
  refine wp_conseq (userRead_spec h.kinv.inv ha hview haccess) ?_
  rintro b s' ⟨hb, own', hacc⟩
  refine ⟨own', h.step hacc.keeps hacc.inv hacc.pres hacc.quiet ?_, hb⟩
  rintro e u ⟨rfl, rfl⟩
  exact ⟨_, _, ha.attached, ha.below⟩

theorem Refines.wp_userRead {va : Nat} (hev : EvictOk mode keep evict E) (h : Refines mode own s m)
    (hrun : Runs s s.cur) (hva : va < (s.proc s.cur).sz)
    (huser : (m.proc s.cur).memory.user (va / PGSIZE) = true) :
    wp (userRead evict va) s (fun b s' => ∃ own', Refines mode own' s' m ∧
      b = (m.proc s.cur).memory.page (va / PGSIZE) (va % PGSIZE)) E := by
  obtain ⟨ha, hview⟩ := h.addressed hrun hva huser
  exact h.read_of_access hrun hva huser (access_spec hev h.kinv.inv ha hview)

theorem Refines.wp_userRead_present {va : Nat} (h : Refines mode own s m) (hrun : Runs s s.cur)
    (hva : va < (s.proc s.cur).sz)
    (huser : (m.proc s.cur).memory.user (va / PGSIZE) = true)
    (hp : has (entry s (s.proc s.cur).pgdir (va / PGSIZE)) PTE_P = true) :
    wp (userRead evict va) s (fun b s' => ∃ own', Refines mode own' s' m ∧
      b = (m.proc s.cur).memory.page (va / PGSIZE) (va % PGSIZE)) E := by
  obtain ⟨ha, hview⟩ := h.addressed hrun hva huser
  refine h.read_of_access hrun hva huser (access_allowed h.kinv.inv ha ?_)
  rw [Allows, hp, (user_of_view hp hview).1]
  rfl

omit [KernelImage] in
/-- Changing the memory of `p` on the reference machine. -/
theorem SameTable.setMemory (h : SameTable s m) (p : Nat) (mem : Memory) :
    SameTable s (m.setMemory p mem) := by
  have hproc : ∀ q, ∃ x, (m.setMemory p mem).proc q = { m.proc q with memory := x } := by
    intro q
    by_cases hq : q = p
    · subst hq
      exact ⟨mem, by simp [Flat.setMemory, Flat.setProc]⟩
    · exact ⟨(m.proc q).memory, by simp [Flat.setMemory, Flat.setProc, hq]⟩
  refine ⟨fun q => ?_, fun q => ?_, fun q => ?_, fun q => ?_, h.nextpid, h.initproc⟩ <;>
    obtain ⟨x, hx⟩ := hproc q <;> rw [hx]
  · exact h.state q
  · exact h.pid q
  · exact h.parent q
  · exact h.killed q

omit [KernelImage] in
theorem Flat.setMemory_self (m : Flat) (p : Nat) : m.setMemory p (m.proc p).memory = m := by
  have hproc : update m.proc p (m.proc p) = m.proc := update_eq_self p m.proc
  rw [Flat.setMemory, Flat.setProc, hproc]

omit [KernelImage] in
theorem Flat.setMemory_proc (m : Flat) (p q : Nat) (mem : Memory) :
    ((m.setMemory p mem).proc q).memory = if q = p then mem else (m.proc q).memory := by
  by_cases hq : q = p
  · subst hq
    simp [Flat.setMemory, Flat.setProc]
  · simp [Flat.setMemory, Flat.setProc, hq]

theorem Refines.wp_userWrite {va : Nat} {b : Byte} (hev : EvictOk mode keep evict E)
    (h : Refines mode own s m) (hrun : Runs s s.cur) (hva : va < (s.proc s.cur).sz)
    (huser : (m.proc s.cur).memory.user (va / PGSIZE) = true) :
    wp (userWrite evict va b) s (fun _ s' => ∃ own',
      Refines mode own' s' (m.write s.cur va b).2) E := by
  obtain ⟨ha, hview⟩ := h.addressed hrun hva huser
  refine wp_conseq (userWrite_spec hev h.kinv.inv ha hview) ?_
  rintro - s' ⟨own', hw⟩
  refine ⟨own', ?_, (h.table.congr hw.procs).setMemory _ _, ?_⟩
  · refine h.kinv.step hw.keeps hw.inv hw.procs hw.held hw.quiet ?_
    rintro e u ⟨rfl, rfl⟩
    exact ⟨_, _, ha.attached, ha.below⟩
  · intro p e y hatt
    rw [hw.procs.attach] at hatt
    have hold := h.memory p e y hatt
    simp only [Flat.write]
    rw [Flat.setMemory_proc]
    by_cases hp : p = s.cur
    · subst hp
      rw [if_pos rfl]
      obtain ⟨rfl, rfl⟩ := Prod.mk.inj (Option.some.inj (hatt.symm.trans ha.attached))
      refine ⟨hold.size, fun v hv => ?_⟩
      by_cases heq : v = va / PGSIZE
      · subst heq
        simp only [update_self, huser]
        exact hw.written
      · simp only [update_of_ne heq]
        obtain ⟨hd, hu, hvis⟩ := h.kinv.inv.visible hatt hv
        exact (hold.seen v hv).trans (hw.seen _ v hd hu (fun hx => heq hx.2) hvis).2
    · rw [if_neg hp]
      refine hold.congr fun v hv => ?_
      obtain ⟨hd, hu, hvis⟩ := h.kinv.inv.visible hatt hv
      refine (hw.seen e v hd hu (fun hx => hp ?_) hvis).2
      rw [hx.1] at hatt
      exact h.kinv.inv.procs.inj _ _ _ _ _ hatt ha.attached

/-! ### A new size or directory for the caller -/

/-- The process table after the caller got the directory `d` and the size `z`. -/
def Kernel.commit (s : Kernel) (d z : Nat) : Kernel :=
  s.setProc s.cur fun pr => { pr with pgdir := d, sz := z }

omit [KernelImage] in
theorem attachOf_commit (hrun : Runs s s.cur) :
    attachOf (s.commit d z) = update (attachOf s) s.cur (some (d, z)) := by
  rw [Kernel.commit, attachOf_setProc]
  have hlive := (attachOf_eq_some.1 hrun.live).2.1
  rw [if_pos ⟨hrun.1, hlive⟩]

omit [KernelImage] in
theorem commit_proc (p : Nat) : (s.commit d z).proc p =
    if p = s.cur then { s.proc p with pgdir := d, sz := z } else s.proc p := by
  by_cases hp : p = s.cur
  · subst hp
    simp [Kernel.commit, Kernel.setProc]
  · simp [Kernel.commit, Kernel.setProc, hp]

omit [KernelImage] in
theorem SameTable.commit (h : SameTable s m) : SameTable (s.commit d z) m := by
  refine ⟨fun p => ?_, fun p => ?_, fun p => ?_, fun p => ?_, h.nextpid, h.initproc⟩ <;>
    rw [commit_proc] <;> split
  · exact h.state p
  · exact h.state p
  · exact h.pid p
  · exact h.pid p
  · exact h.parent p
  · exact h.parent p
  · exact h.killed p
  · exact h.killed p

omit [KernelImage] in
theorem SameProcs.commit {s1 : Kernel} (h : SameProcs s s1) :
    SameProcs (s.commit d z) (s1.commit d z) := by
  refine ⟨fun p => ?_, h.cur, h.nextpid, h.initproc⟩
  rw [commit_proc, commit_proc, h.cur]
  by_cases hp : p = s.cur
  · rw [if_pos hp, if_pos hp, h.proc p]
  · rw [if_neg hp, if_neg hp]
    exact h.proc p

/-- The caller exchanged its memory for `mem`, behind the directory `d`; everybody
    else sees what they saw. -/
theorem Refines.commit {mem : Memory} (h : Refines mode own s m) (hrun : Runs s s.cur)
    (hprocs : SameProcs (s.commit d z) s')
    (hinv : Inv mode own' (attachOf s') s')
    (hkern : SameKernel own own') (hmem : ∀ f, own f = .held → s'.mem f = s.mem f)
    (hdirs : ∀ e, own' e = .dir → e ≠ d → own e = .dir ∧ e ≠ (s.proc s.cur).pgdir)
    (habove : ∀ v, z ≤ v * PGSIZE → v < UPAGES → has (entry s' d v) PTE_P = false)
    (hquiet : Quiet own (attachOf s) (fun e _ => e = (s.proc s.cur).pgdir) s s')
    (hseen : ∀ e u, own e = .dir → e ≠ (s.proc s.cur).pgdir → u < UPAGES →
      Visible (attachOf s) s e u → SameView (view s e u) (view s' e u))
    (hback : Backs s' d z mem) : Refines mode own' s' (m.setMemory s.cur mem) := by
  have hatt : attachOf s' = update (attachOf s) s.cur (some (d, z)) := by
    rw [hprocs.attach, attachOf_commit hrun]
  -- another process has another directory than the caller had
  have hother : ∀ {p e y : Nat}, attachOf s p = some (e, y) → p ≠ s.cur →
      e ≠ (s.proc s.cur).pgdir := by
    intro p e y hp hne heq
    rw [heq] at hp
    exact hne (h.kinv.inv.procs.inj _ _ _ _ _ hp hrun.live)
  have hproc : ∀ p, (s'.proc p).state = (s.proc p).state ∧
      (s'.proc p).kstack = (s.proc p).kstack := by grind [hprocs.proc, commit_proc]
  refine ⟨⟨hinv, ?_, ?_, ?_, ?_, ?_⟩, (h.table.commit.congr hprocs).setMemory _ _, ?_⟩
  · intro p hp hstate
    rw [(hproc p).1] at hstate
    rw [(hproc p).2]
    exact hkern.of_stack (h.kinv.kstack p hp hstate)
  · intro e he
    rw [hatt]
    by_cases hed : e = d
    · exact ⟨s.cur, z, by rw [hed, update_self]⟩
    · obtain ⟨hdir, hne⟩ := hdirs e he hed
      obtain ⟨p, y, hp⟩ := h.kinv.attached e hdir
      have hpc : p ≠ s.cur := by grind [hrun.live]
      exact ⟨p, y, by rw [update_of_ne hpc, hp]⟩
  · intro p e y v hp hz hv
    rw [hatt] at hp
    by_cases hpc : p = s.cur
    · grind
    · rw [update_of_ne hpc] at hp
      exact hquiet e v (h.kinv.inv.procs.dir p e y hp) hv (h.kinv.not_tracked hp hz)
        (hother hp hpc) (h.kinv.above p e y v hp hz hv)
  · intro p hp
    rw [(hproc p).1]
    exact h.kinv.settled p hp
  · intro K hK
    refine (h.kinv.ledger K hK).step hkern hmem fun p _ hused => ?_
    rw [(hproc p).1, (hproc p).2]
    exact ⟨hused, rfl⟩
  · intro p e y hp
    rw [hatt] at hp
    rw [Flat.setMemory_proc]
    by_cases hpc : p = s.cur
    · grind
    · rw [update_of_ne hpc] at hp
      rw [if_neg hpc]
      refine (h.memory p e y hp).congr fun v hv => ?_
      obtain ⟨hd, hu, hvis⟩ := h.kinv.inv.visible hp hv
      exact hseen e v hd (hother hp hpc) hu hvis

end CowPaging
