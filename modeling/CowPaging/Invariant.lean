import CowPaging.PteStore

/-!
# The invariant of the memory system

`Inv` joins the page roles with the process table and the swap slots. Processes
are attached to a directory and a size by a ghost function, so that an operation
can detach the address space it is about to take apart; between operations the
attachment is `attachOf`. Every page of an attached process below its size is
present or waits in a swap slot, and a slot named by an attached process records
that one entry.

`view` is what a process finds at a page, in memory or in its slot. `Drift` is
what the rest of the state may do while the kernel allocates a page: entries may
lose their accessed bit or be swapped out, but nobody's view changes.
-/

namespace CowPaging

open Bytes StateExcept SlotTable
open Function (update_of_ne update_self update)

/-! ### Processes and their address spaces -/

/-- States in which a process has an address space. -/
def ProcState.live : ProcState → Bool
  | .sleeping | .runnable | .running | .zombie => true
  | .unused | .embryo => false

/-- Process index to page directory and size. -/
abbrev Attach := Nat → Option (Nat × Nat)

def attachOf (s : Kernel) : Attach := fun p =>
  if p < NPROC ∧ (s.proc p).state.live = true then some ((s.proc p).pgdir, (s.proc p).sz)
  else none

theorem attachOf_eq_some {s : Kernel} {p d z : Nat} : attachOf s p = some (d, z) ↔
    p < NPROC ∧ (s.proc p).state.live = true ∧ (s.proc p).pgdir = d ∧ (s.proc p).sz = z := by
  grind [attachOf, NPROC]

/-- Page `v` of directory `d` lies below the size of a process. -/
def Tracked (att : Attach) (d v : Nat) : Prop :=
  ∃ p z, att p = some (d, z) ∧ v * PGSIZE < z

/-- The slot that the entry `w` of page `v` of process `p` names records this one
    entry, with the flags of a present page. -/
structure SlotRec (s : Kernel) (p d v : Nat) (w : Word) : Prop where
  slot : frameOf w < NSLOTS
  busy : (s.swaparray (frameOf w)).isFree = false
  cnt : (s.swaparray (frameOf w)).cnt = 1
  pte : pteSlot s d v = some ((s.swaparray (frameOf w)).pteId 0)
  proc : (s.swaparray (frameOf w)).procId 0 = p
  permP : has (s.swaparray (frameOf w)).pagePerm PTE_P = true
  permS : has (s.swaparray (frameOf w)).pagePerm PTE_S = false

/-- A word that stands for a swapped-out page. -/
def isSwapped (w : Word) : Bool := !has w PTE_P && has w PTE_S

theorem swapped_absent {w : Word} (h : isSwapped w = true) : has w PTE_P = false := by
  grind [isSwapped]

theorem swapped_flag {w : Word} (h : isSwapped w = true) : has w PTE_S = true := by
  simp only [isSwapped, Bool.and_eq_true] at h
  exact h.2

structure ProcInv (own : Owners) (att : Attach) (s : Kernel) : Prop where
  dir : ∀ p d z, att p = some (d, z) → own d = .dir
  inj : ∀ p q d z z', att p = some (d, z) → att q = some (d, z') → p = q
  size : ∀ p d z, att p = some (d, z) → z ≤ KERNBASE
  page : ∀ p d z v, att p = some (d, z) → v * PGSIZE < z →
    ∃ w, pteOf s d v = some w ∧ (has w PTE_P = true ∨ isSwapped w = true)
  slot : ∀ p d z v w, att p = some (d, z) → v < UPAGES → pteOf s d v = some w →
    isSwapped w = true → SlotRec s p d v w
  slotFree : ∀ i, i < NSLOTS → (s.swaparray i).isFree = true → (s.swaparray i).cnt = 0

/-- Slots are in use exactly for the swapped-out pages of processes. -/
structure SlotExact (att : Attach) (s : Kernel) : Prop where
  tracked : ∀ p d z v w, att p = some (d, z) → v < UPAGES → pteOf s d v = some w →
    isSwapped w = true → v * PGSIZE < z
  used : ∀ i, i < NSLOTS → (s.swaparray i).isFree = false →
    ∃ p d z v w, att p = some (d, z) ∧ v < UPAGES ∧ pteOf s d v = some w ∧
      isSwapped w = true ∧ frameOf w = i

/-- The pages the kernel keeps for itself: its own directory with the tables, and
    others. -/
structure Kept where
  kpgdir : Nat
  pages : List Nat

/-- What a study assumes beyond the common invariant. `single`: no page is shared,
    and an entry of the process table without an address space has size 0.
    `strict`: no swap slot has leaked. `resident`: nothing is swapped out. `kept`: every
    page is accounted for, and these are the ones the kernel keeps for itself. -/
structure Mode where
  single : Bool
  strict : Bool
  resident : Bool
  kept : Option Kept

/-- The same study, without the claim about leaks. -/
def Mode.lax (mode : Mode) : Mode := { mode with strict := false }

/-- A process runs, and entries of the process table without an address space have
    size 0. -/
def Clean (s : Kernel) : Prop :=
  s.cur < NPROC ∧ ∀ p, p < NPROC → (s.proc p).state.live = false → (s.proc p).sz = 0

structure Inv [KernelImage] (mode : Mode) (own : Owners) (att : Attach) (s : Kernel) :
    Prop where
  frames : FrameInv own s
  tables : TableInv own s
  maps : MapInv own s
  procs : ProcInv own att s
  unshared : mode.single = true → ∀ n, n < NFRAMES → (s.rmap n).refcount ≤ 1
  idle : mode.single = true → Clean s
  resident : mode.resident = true → ∀ i, i < NSLOTS → (s.swaparray i).isFree = true
  slots : mode.strict = true → SlotExact att s

theorem Tracked.upages {own : Owners} {att : Attach} {s : Kernel} (h : ProcInv own att s)
    {d v : Nat} (ht : Tracked att d v) : v < UPAGES := by
  obtain ⟨p, z, hatt, hv⟩ := ht
  have hz := h.size p d z hatt
  simp only [KERNBASE, PGSIZE, UPAGES] at *
  omega

theorem Tracked.dir {own : Owners} {att : Attach} {s : Kernel} (h : ProcInv own att s)
    {d v : Nat} (ht : Tracked att d v) : own d = .dir := by
  obtain ⟨p, z, hatt, -⟩ := ht
  exact h.dir p d z hatt

/-! ### Views -/

/-- The page stored in a swap slot. -/
def slotPage (s : Kernel) (idx : Nat) : Page := fun o =>
  s.disk (slotBlock idx + o / 512) (o % 512)

theorem slotPage_congr {s s' : Kernel} (h : s'.disk = s.disk) : slotPage s' = slotPage s := by
  funext idx o
  simp only [slotPage, h]

/-- What is found at an entry: the page, and whether user code may use it. -/
def viewOf (s : Kernel) (w : Word) : Option (Page × Bool) :=
  if has w PTE_P then some (s.mem (frameOf w), has w PTE_U)
  else if has w PTE_S then
    some (slotPage s (frameOf w), has (s.swaparray (frameOf w)).pagePerm PTE_U)
  else none

def view (s : Kernel) (d v : Nat) : Option (Page × Bool) := (pteOf s d v).bind (viewOf s)

theorem view_congr {s s' : Kernel} {d v : Nat} (hpte : pteOf s' d v = pteOf s d v)
    (hmem : ∀ w, pteOf s d v = some w → has w PTE_P = true →
      s'.mem (frameOf w) = s.mem (frameOf w))
    (hperm : ∀ i, (s'.swaparray i).pagePerm = (s.swaparray i).pagePerm)
    (hdisk : s'.disk = s.disk) : view s' d v = view s d v := by
  rw [view, view, hpte]
  cases hw : pteOf s d v with
  | none => rfl
  | some w =>
    rw [Option.bind_some, Option.bind_some, viewOf, viewOf]
    by_cases hp : has w PTE_P = true
    · rw [if_pos hp, if_pos hp, hmem w hw hp]
    · rw [if_neg hp, if_neg hp, hperm, slotPage_congr hdisk]

/-- Both sides show a page, with the same bytes and the same permission. -/
def SameView (a b : Option (Page × Bool)) : Prop :=
  ∃ page page' user, a = some (page, user) ∧ b = some (page', user) ∧
    ∀ o, o < PGSIZE → page' o = page o

theorem SameView.of_eq {a b : Option (Page × Bool)} {x : Page × Bool} (ha : a = some x)
    (hb : b = a) : SameView a b :=
  ⟨x.1, x.1, x.2, ha, hb.trans ha, fun _ _ => rfl⟩

theorem SameView.trans {a b c : Option (Page × Bool)} (h : SameView a b) (h' : SameView b c) :
    SameView a c := by
  obtain ⟨page, page', user, rfl, rfl, heq⟩ := h
  obtain ⟨page1, page2, user', h1, rfl, heq'⟩ := h'
  have hinj := Option.some.inj h1
  rw [Prod.mk.injEq] at hinj
  obtain ⟨rfl, rfl⟩ := hinj
  exact ⟨page, page2, user, rfl, rfl, fun o ho => (heq' o ho).trans (heq o ho)⟩

/-- The entry is present, or belongs to the memory of a process. -/
def Visible (att : Attach) (s : Kernel) (d v : Nat) : Prop :=
  ∃ w, pteOf s d v = some w ∧ (has w PTE_P = true ∨ Tracked att d v)

/-! ### Background change -/

/-- The process table up to resident sizes. -/
structure SameProcs (s s' : Kernel) : Prop where
  proc : ∀ p, s'.proc p = { s.proc p with rss := (s'.proc p).rss }
  cur : s'.cur = s.cur
  nextpid : s'.nextpid = s.nextpid
  initproc : s'.initproc = s.initproc

theorem SameProcs.refl (s : Kernel) : SameProcs s s := ⟨fun _ => rfl, rfl, rfl, rfl⟩

theorem SameProcs.trans {s s1 s2 : Kernel} (h : SameProcs s s1) (h' : SameProcs s1 s2) :
    SameProcs s s2 where
  proc p := by rw [h'.proc p, h.proc p]
  cur := h'.cur.trans h.cur
  nextpid := h'.nextpid.trans h.nextpid
  initproc := h'.initproc.trans h.initproc

theorem SameProcs.state {s s' : Kernel} (h : SameProcs s s') (p : Nat) :
    (s'.proc p).state = (s.proc p).state := by rw [h.proc p]

theorem SameProcs.sz {s s' : Kernel} (h : SameProcs s s') (p : Nat) :
    (s'.proc p).sz = (s.proc p).sz := by rw [h.proc p]

theorem SameProcs.pgdir {s s' : Kernel} (h : SameProcs s s') (p : Nat) :
    (s'.proc p).pgdir = (s.proc p).pgdir := by rw [h.proc p]

theorem SameProcs.clean {s s' : Kernel} (h : SameProcs s s') : Clean s' ↔ Clean s := by
  simp only [Clean, h.cur, h.state, h.sz]

theorem SameProcs.attach {s s' : Kernel} (h : SameProcs s s') : attachOf s' = attachOf s := by
  funext p
  simp only [attachOf, h.state, h.sz, h.pgdir]

/-- The same entry, up to a cleared accessed bit. -/
def PteSim (w' w : Word) : Prop := w' = w ∨ (has w PTE_P = true ∧ w' = w &&& ~~~PTE_A)

theorem PteSim.refl (w : Word) : PteSim w w := .inl rfl

theorem clearA_bit (w : Word) {i : Nat} (hi : i ≠ 5) :
    (w &&& ~~~PTE_A).getLsbD i = w.getLsbD i := by
  grind [getLsbD_A]

theorem frameOf_clearA (w : Word) : frameOf (w &&& ~~~PTE_A) = frameOf w :=
  frameOf_congr fun _ hi => clearA_bit w (by omega)

theorem PteSim.bit {w' w : Word} (h : PteSim w' w) {i : Nat} (hi : i ≠ 5) :
    w'.getLsbD i = w.getLsbD i := by
  rcases h with rfl | ⟨-, rfl⟩
  · rfl
  · exact clearA_bit w hi

theorem PteSim.frame {w' w : Word} (h : PteSim w' w) : frameOf w' = frameOf w := by
  rcases h with rfl | ⟨-, rfl⟩
  · rfl
  · exact frameOf_clearA w

theorem PteSim.present {w' w : Word} (h : PteSim w' w) : has w' PTE_P = has w PTE_P := by
  rw [has_P, has_P, h.bit (by decide)]

theorem PteSim.eq_of_absent {w' w : Word} (h : PteSim w' w) (hp : has w PTE_P = false) :
    w' = w := by
  rcases h with rfl | ⟨hp', -⟩
  · rfl
  · rw [hp] at hp'; cases hp'

theorem PteSim.trans {w w1 w2 : Word} (h : PteSim w1 w) (h' : PteSim w2 w1) :
    PteSim w2 w := by
  rcases h' with rfl | ⟨hp, rfl⟩
  · exact h
  · have hpw := hp
    rw [h.present] at hpw
    refine .inr ⟨hpw, ?_⟩
    rcases h with rfl | ⟨-, rfl⟩
    · rfl
    · rw [BitVec.and_assoc, BitVec.and_self]

/-- The entries an eviction may take: present, in `V`, the only mapping of their
    page. -/
def Evictable (V : Nat → Nat → Prop) (s : Kernel) (d v : Nat) (w : Word) : Prop :=
  v < UPAGES ∧ has w PTE_P = true ∧ V d v ∧ (s.rmap (frameOf w)).refcount = 1

structure Drift (own : Owners) (att : Attach) (V : Nat → Nat → Prop) (s s' : Kernel) :
    Prop where
  procs : SameProcs s s'
  table : ∀ d i t, own d = .dir → tableOf s d i = some t → tableOf s' d i = some t
  fresh : ∀ d v, own d = .dir → v < 2 ^ 20 → pteOf s d v = none →
    pteOf s' d v = none ∨ pteOf s' d v = some 0
  pte : ∀ d v w, own d = .dir → v < 2 ^ 20 → pteOf s d v = some w → ¬ Evictable V s d v w →
    ∃ w', pteOf s' d v = some w' ∧ PteSim w' w
  refs : ∀ d v w, Upte own s d v w → has w PTE_P = true → ¬ Evictable V s d v w →
    (s'.rmap (frameOf w)).refcount = (s.rmap (frameOf w)).refcount
  view : ∀ d v, own d = .dir → v < UPAGES → Visible att s d v →
    SameView (view s d v) (view s' d v)
  held : ∀ f, own f = .held ∨ (∃ p, own f = .stack p) → s'.mem f = s.mem f

/-- Pages that are neither free nor user memory keep their role. -/
def Retains (own own' : Owners) : Prop :=
  ∀ f, own f ≠ .free → own f ≠ .user → own' f = own f

theorem Retains.of_dir {own own' : Owners} (h : Retains own own') {d : Nat}
    (hd : own d = .dir) : own' d = .dir := by
  rw [h d (by rw [hd]; simp) (by rw [hd]; simp), hd]

theorem Retains.of_held {own own' : Owners} (h : Retains own own') {f : Nat}
    (hf : own f = .held) : own' f = .held := by
  rw [h f (by rw [hf]; simp) (by rw [hf]; simp), hf]

theorem Retains.of_stack {own own' : Owners} (h : Retains own own') {f p : Nat}
    (hf : own f = .stack p) : own' f = .stack p := by
  rw [h f (by rw [hf]; simp) (by rw [hf]; simp), hf]

/-- Allocation changes the roles of free and user pages only, and makes no
    directory; the kernel ends up with no page that it did not have. -/
structure Keeps (own own' : Owners) : Prop where
  retains : Retains own own'
  dir : ∀ f, own' f = .dir → own f = .dir
  kernel : ∀ f, (own' f).isKernel → own' f = own f

theorem Keeps.refl (own : Owners) : Keeps own own :=
  ⟨fun _ _ _ => rfl, fun _ h => h, fun _ _ => rfl⟩

/-- The kernel has the same pages. -/
def SameKernel (own own' : Owners) : Prop :=
  ∀ f, (own f).isKernel ∨ (own' f).isKernel → own' f = own f

theorem SameKernel.trans {own own1 own2 : Owners} (h : SameKernel own own1)
    (h' : SameKernel own1 own2) : SameKernel own own2 := by
  rintro f (hf | hf)
  · have h1 := h f (.inl hf)
    rw [h' f (.inl (by rw [h1]; exact hf)), h1]
  · have h2 := h' f (.inr hf)
    rw [h2, h f (.inr (by rw [← h2]; exact hf))]

theorem SameKernel.of_stack {own own' : Owners} (h : SameKernel own own') {f p : Nat}
    (hf : own f = .stack p) : own' f = .stack p := by
  rw [h f (.inl (by rw [hf]; trivial)), hf]

theorem sameKernel_newDir {own : Owners} {d : Nat} (hd : own d = .free ∨ own d = .user) :
    SameKernel own (update own d .dir) := by
  intro f hf
  refine update_of_ne ?_ _ _
  rintro rfl
  rw [update_self] at hf
  rcases hf with hf | hf
  · rcases hd with hd | hd <;> rw [hd] at hf <;> exact hf
  · exact hf

theorem Keeps.sameKernel {own own' : Owners} (h : Keeps own own') : SameKernel own own' := by
  rintro f (hf | hf)
  · refine h.retains f ?_ ?_ <;> intro heq <;> rw [heq] at hf <;> exact hf
  · exact h.kernel f hf

theorem Retains.trans {own own1 own2 : Owners} (h : Retains own own1)
    (h' : Retains own1 own2) : Retains own own2 := by
  intro f hf hu
  have hk := h f hf hu
  rw [h' f (by rw [hk]; exact hf) (by rw [hk]; exact hu), hk]

theorem Keeps.trans {own own1 own2 : Owners} (h : Keeps own own1) (h' : Keeps own1 own2) :
    Keeps own own2 where
  retains := h.retains.trans h'.retains
  dir f hf := h.dir f (h'.dir f hf)
  kernel f hf := by grind [h'.kernel, h.kernel]

theorem retains_update {own : Owners} {f : Nat} {o : Owner}
    (hf : own f = .free ∨ own f = .user) : Retains own (update own f o) := by
  intro g hfree huser
  have hne : g ≠ f := by grind
  exact update_of_ne hne _ _

theorem keeps_update {own : Owners} {f : Nat} {o : Owner} (hf : own f = .free ∨ own f = .user)
    (hdir : o ≠ .dir) (hkern : ¬ o.isKernel) : Keeps own (update own f o) where
  retains := retains_update hf
  dir g hg := by grind
  kernel g hg := by grind

theorem Drift.pte_some {own : Owners} {att : Attach} {V : Nat → Nat → Prop} {s s' : Kernel}
    (h : Drift own att V s s') {d v : Nat} {w : Word} (hd : own d = .dir)
    (hw : pteOf s d v = some w) : ∃ w', pteOf s' d v = some w' := by
  obtain ⟨ptr, hslot, -⟩ := pteOf_eq_some.1 hw
  have htab := h.table d _ _ hd (pteSlot_eq_some.1 hslot).1
  exact ⟨_, pteOf_of_slot (pteSlot_eq_some.2 ⟨htab, (pteSlot_eq_some.1 hslot).2⟩)⟩

theorem Drift.slot {own : Owners} {att : Attach} {V : Nat → Nat → Prop} {s s' : Kernel}
    (h : Drift own att V s s') {d v : Nat} {ptr : PtePtr} (hd : own d = .dir)
    (hslot : pteSlot s d v = some ptr) : pteSlot s' d v = some ptr :=
  pteSlot_eq_some.2 ⟨h.table d _ _ hd (pteSlot_eq_some.1 hslot).1, (pteSlot_eq_some.1 hslot).2⟩

theorem Drift.visible {own : Owners} {att : Attach} {V : Nat → Nat → Prop} {s s' : Kernel}
    (h : Drift own att V s s') (hV : ∀ d v, V d v → Tracked att d v) {d v : Nat}
    (hd : own d = .dir) (hv : v < UPAGES) (hvis : Visible att s d v) : Visible att s' d v := by
  obtain ⟨w, hw, hcase⟩ := hvis
  by_cases ht : Tracked att d v
  · obtain ⟨w', hw'⟩ := h.pte_some hd hw
    exact ⟨w', hw', .inr ht⟩
  · have hp := hcase.resolve_right ht
    have hne : ¬ Evictable V s d v w := fun he => ht (hV d v he.2.2.1)
    obtain ⟨w', hw', hsim⟩ := h.pte d v w hd (upages_lt hv) hw hne
    exact ⟨w', hw', .inl (by rw [hsim.present, hp])⟩

theorem Drift.trans {own own1 : Owners} {att : Attach} {V : Nat → Nat → Prop}
    {s s1 s2 : Kernel} (hV : ∀ d v, V d v → Tracked att d v) (hk : Retains own own1)
    (h : Drift own att V s s1) (h' : Drift own1 att V s1 s2) : Drift own att V s s2 where
  procs := h.procs.trans h'.procs
  table d i t hd ht := h'.table d i t (hk.of_dir hd) (h.table d i t hd ht)
  fresh d v hd hv hnone := by
    rcases h.fresh d v hd hv hnone with h1 | h1
    · exact h'.fresh d v (hk.of_dir hd) hv h1
    · have habs : ¬ Evictable V s1 d v 0 := by
        rintro ⟨-, hp, -⟩
        simp at hp
      obtain ⟨w', hw', hsim⟩ := h'.pte d v 0 (hk.of_dir hd) hv h1 habs
      exact .inr (by rw [hw', hsim.eq_of_absent (by decide)])
  pte d v w hd hv hw hne := by
    obtain ⟨w1, hw1, hsim⟩ := h.pte d v w hd hv hw hne
    have hne1 : ¬ Evictable V s1 d v w1 := by
      rintro ⟨hu, hp, hVdv, hone⟩
      rw [hsim.present] at hp
      rw [hsim.frame, h.refs d v w ⟨hd, hu, hw⟩ hp hne] at hone
      exact hne ⟨hu, hp, hVdv, hone⟩
    obtain ⟨w2, hw2, hsim2⟩ := h'.pte d v w1 (hk.of_dir hd) hv hw1 hne1
    exact ⟨w2, hw2, hsim.trans hsim2⟩
  refs d v w hu hp hne := by
    obtain ⟨w1, hw1, hsim⟩ := h.pte d v w hu.1 (upages_lt hu.2.1) hu.2.2 hne
    have hone := h.refs d v w hu hp hne
    have hp1 : has w1 PTE_P = true := by rw [hsim.present, hp]
    have hne1 : ¬ Evictable V s1 d v w1 := by
      rintro ⟨hu1, -, hVdv, hone1⟩
      rw [hsim.frame, hone] at hone1
      exact hne ⟨hu1, hp, hVdv, hone1⟩
    have hone1 := h'.refs d v w1 ⟨hk.of_dir hu.1, hu.2.1, hw1⟩ hp1 hne1
    rw [hsim.frame] at hone1
    exact hone1.trans hone
  view d v hd hv hvis :=
    (h.view d v hd hv hvis).trans
      (h'.view d v (hk.of_dir hd) hv (h.visible hV hd hv hvis))
  held f hf := by
    have hkept : own1 f = own f := by
      apply hk f
      · rcases hf with h | ⟨p, h⟩ <;> rw [h] <;> simp
      · rcases hf with h | ⟨p, h⟩ <;> rw [h] <;> simp
    rw [h'.held f (by rw [hkept]; exact hf), h.held f hf]

theorem Inv.view_some [KernelImage] {mode : Mode} {own : Owners} {att : Attach} {s : Kernel}
    (h : Inv mode own att s) {d v : Nat} (hvis : Visible att s d v) :
    ∃ x, view s d v = some x := by
  obtain ⟨w, hw, hcase⟩ := hvis
  by_cases hp : has w PTE_P = true
  · exact ⟨_, by rw [view, hw, Option.bind_some, viewOf, if_pos hp]⟩
  · obtain ⟨p, z, hatt, hv⟩ := hcase.resolve_left hp
    obtain ⟨w', hw', hcase'⟩ := h.procs.page p d z v hatt hv
    have heq : w' = w := Option.some.inj (hw'.symm.trans hw)
    subst heq
    have hsw := hcase'.resolve_left hp
    exact ⟨_, by rw [view, hw, Option.bind_some, viewOf, if_neg hp, if_pos (swapped_flag hsw)]⟩

/-- A change that keeps the maps, the user pages, the slots and the disk, seen with
    the roles `own` of an earlier moment. -/
theorem drift_of_same [KernelImage] {mode : Mode} {own own1 : Owners} {att : Attach}
    {V : Nat → Nat → Prop} {s s' : Kernel} (h : Inv mode own1 att s) (hret : Retains own own1)
    (hprocs : SameProcs s s')
    (hmem : ∀ f, (own1 f).isMap ∨ own1 f = .user → s'.mem f = s.mem f)
    (hheld : ∀ f, own f = .held ∨ (∃ p, own f = .stack p) → s'.mem f = s.mem f)
    (hrmap : s'.rmap = s.rmap) (hslots : s'.swaparray = s.swaparray) (hdisk : s'.disk = s.disk) :
    Drift own att V s s' := by
  have hmaps : SameMaps own1 s s' := fun f hf => hmem f (.inl hf)
  refine ⟨hprocs, ?_, ?_, ?_, ?_, ?_, hheld⟩
  · intro d i t hd ht
    rw [hmaps.table (hret.of_dir hd), ht]
  · intro d v hd hv hnone
    exact .inl (by rw [hmaps.pte h.tables (hret.of_dir hd) hv, hnone])
  · grind [hmaps.pte, h.tables, hret.of_dir, PteSim.refl]
  · intro d v w _ _ _
    rw [hrmap]
  · intro d v hd hv hvis
    obtain ⟨x, hx⟩ := h.view_some hvis
    refine SameView.of_eq hx ?_
    refine view_congr (hmaps.pte h.tables (hret.of_dir hd) (upages_lt hv)) ?_
      (fun i => by rw [hslots]) hdisk
    intro w hw hp
    exact hmem _ (.inr (h.maps.user d v w ⟨hret.of_dir hd, hv, hw⟩ hp).1)

end CowPaging
