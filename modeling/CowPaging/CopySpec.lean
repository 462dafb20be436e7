import CowPaging.AccessSpec

/-!
# The copy-on-write copy

`copyuvm` gives the child a directory whose entries name the pages of the parent,
takes the write permission from both sides and counts the new mapping. While it
runs the parent's pages must stay in memory; then the child ends up seeing what
the parent sees, and nobody sees a change.
-/

namespace CowPaging

open Bytes StateExcept SlotTable

variable {own own0 own' : Owners} {att : Attach} {s s0 s' : Kernel} {c d v : Nat}
  {ptr ptr' : PtePtr}

theorem pagesOf_le {z : Nat} (h : z ≤ KERNBASE) : pagesOf z ≤ UPAGES := by
  simp only [pagesOf, PGROUNDUP, UPAGES, KERNBASE, PGSIZE] at h ⊢
  omega

theorem PteSim.has_bit {w w' : Word} {k : Nat} (h : PteSim w' w) (hk : k < 32) (h5 : k ≠ 5) :
    has w' (BitVec.twoPow 32 k) = has w (BitVec.twoPow 32 k) := by
  rw [has_twoPow _ _ hk, has_twoPow _ _ hk, h.bit h5]

/-! ### Room in the reverse map -/

/-- Every directory but `d` belongs to a process, and some process slot has none. -/
structure Roomy (own : Owners) (att : Attach) (d : Nat) : Prop where
  attached : ∀ e, own e = .dir → e = d ∨ ∃ p z, p < NPROC ∧ att p = some (e, z)
  vacant : ∃ p, p < NPROC ∧ att p = none

/-- A page that `d` does not map has a free slot in the reverse map. -/
theorem Roomy.refcount_lt {n : Nat} (h : Roomy own att d) (hmaps : MapInv own s) (hn : n < NFRAMES)
    (hd : ∀ v w, Upte own s d v w → has w PTE_P = true → frameOf w ≠ n) :
    (s.rmap n).refcount < NPROC := by
  obtain ⟨p0, hp0, hnone⟩ := h.vacant
  have hex := hmaps.exact n hn
  rw [hex.count_eq_ncard]
  -- each mapping belongs to a process other than `p0`, and to one mapping per process
  have hproc : ∀ q ∈ mappers own s n, ∃ p e z v, p < NPROC ∧ att p = some (e, z) ∧
      own e = .dir ∧ v < UPAGES ∧ pteSlot s e v = some q ∧
      ∃ w, pteOf s e v = some w ∧ has w PTE_P = true ∧ frameOf w = n := by
    rintro q ⟨e, v, w, hu, hp, hf, hq⟩
    rcases h.attached e hu.1 with rfl | ⟨p, z, hlt, hatt⟩
    · exact (hd v w hu hp hf).elim
    · exact ⟨p, e, z, v, hlt, hatt, hu.1, hu.2.1, hq, w, hu.2.2, hp, hf⟩
  choose! proc dir size page hlt hatt hdir hpage hslot word hword hpres hframe using hproc
  have hmapsTo : ∀ q ∈ mappers own s n, proc q ∈ (Finset.range NPROC).erase p0 := by grind
  have hinj : Set.InjOn proc (mappers own s n) := by
    intro q hq q' hq' heq
    have hsame : dir q = dir q' := by grind
    have hv : page q = page q' := by
      refine hmaps.once (dir q) (page q) (page q') (word q) (word q')
        ⟨hdir q hq, hpage q hq, hword q hq⟩
        ⟨hdir q hq, hpage q' hq', by rw [hsame]; exact hword q' hq'⟩ (hpres q hq) (hpres q' hq') ?_
      rw [hframe q hq, hframe q' hq']
    have := hslot q hq
    rw [hsame, hv, hslot q' hq'] at this
    exact (Option.some.inj this).symm
  calc (mappers own s n).ncard ≤ (((Finset.range NPROC).erase p0 : Finset Nat) : Set Nat).ncard :=
        Set.ncard_le_ncard_of_injOn proc hmapsTo hinj (Finset.finite_toSet _)
    _ = ((Finset.range NPROC).erase p0).card := Set.ncard_coe_finset _
    _ < NPROC := by grind

/-! ### One page -/

theorem storeWord_absorb {t t' i i' : Nat} {x y z : Word} (hne : t ≠ t') :
    ((s.storeWord t' i' x).storeWord t i y).storeWord t' i' z =
      (s.storeWord t i y).storeWord t' i' z := by
  have hmem : (((s.storeWord t' i' x).storeWord t i y).storeWord t' i' z).mem =
      ((s.storeWord t i y).storeWord t' i' z).mem := by
    funext f
    by_cases h' : f = t'
    · subst h'
      simp [Kernel.storeWord, Kernel.setPage, hne.symm]
    · by_cases h : f = t
      · subst h
        simp [Kernel.storeWord, Kernel.setPage, hne]
      · simp [Kernel.storeWord, Kernel.setPage, h, h']
  simp only [Kernel.storeWord, Kernel.setPage] at hmem ⊢
  rw [hmem]

theorem pteAt_storeWord_ne {x : Word} (hne : ptr.table ≠ ptr'.table) :
    pteAt (s.storeWord ptr'.table ptr'.index x) ptr = pteAt s ptr := by
  simp [pteAt, Kernel.storeWord, Kernel.setPage, hne]

theorem pteAt_storeWord_self {x : Word} :
    pteAt (s.storeWord ptr.table ptr.index x) ptr = x := by
  simp [pteAt, Kernel.storeWord, Kernel.setPage]

/-- The state after the body of the loop of `copyuvm`: the parent's entry `ptr`
    lost its write permission and the child's entry `ptr'` is the same word. -/
def Kernel.shared (s : Kernel) (ptr ptr' : PtePtr) : Kernel :=
  (s.storeWord ptr.table ptr.index (pteAt s ptr &&& ~~~PTE_W)).linked ptr'
    (pteAt s ptr &&& ~~~PTE_W) (frameOf (pteAt s ptr))

theorem clearW_bit (w : Word) : has (w &&& ~~~PTE_W) PTE_W = false := by simp_all

/-- Both directories name the same page at `v`, with the same permission. -/
structure Shared (s : Kernel) (d c v : Nat) : Prop where
  parent : has (entry s d v) PTE_P = true
  child : has (entry s c v) PTE_P = true
  frame : frameOf (entry s c v) = frameOf (entry s d v)
  user : has (entry s c v) PTE_U = has (entry s d v) PTE_U

theorem Shared.sim (h : Shared s d c v) (hd : PteSim (entry s' d v) (entry s d v))
    (hc : PteSim (entry s' c v) (entry s c v)) : Shared s' d c v where
  parent := by rw [hd.present, h.parent]
  child := by rw [hc.present, h.child]
  frame := by rw [hd.frame, hc.frame, h.frame]
  user := by grind [h.user, has_U, hc.bit, hd.bit]

theorem Shared.view (h : Shared s d c v) : view s c v = view s d v := by
  rw [view_of_present (pteOf_of_entry h.child) h.child,
    view_of_present (pteOf_of_entry h.parent) h.parent, h.frame, h.user]

variable [KernelImage] {mode : Mode} {keep : Bool} {evict : K Unit} {E : Halt → Prop}

theorem Inv.readonly {n : Nat} {w : Word} (h : Inv mode own att s) (hu : Upte own s d v w)
    (hp : has w PTE_P = true) (hW : has w PTE_W = false) (hn : frameOf w = n) :
    ∀ e u x, Upte own s e u x → has x PTE_P = true → frameOf x = n → has x PTE_W = false := by
  intro e u x hu' hp' hn'
  cases hx : has x PTE_W with
  | false => rfl
  | true =>
    have hone := h.maps.writable e u x hu' hp' hx
    obtain ⟨rfl, rfl⟩ := h.sole_mapper hu' hp' hone hu hp (hn.trans hn'.symm)
    have heq : w = x := Option.some.inj (hu.2.2.symm.trans hu'.2.2)
    rw [← heq, hW] at hx
    exact hx.symm

/-- The body of the loop shares page `v`; every other entry stays. -/
theorem shared_step (h : Inv mode own att s) (hmode : mode.single = false) (hd : own d = .dir)
    (hc : own c = .dir) (hne : d ≠ c) (hv : v < UPAGES) (hslot : pteSlot s d v = some ptr)
    (hp : has (pteAt s ptr) PTE_P = true) (hslot' : pteSlot s c v = some ptr')
    (habs : has (pteAt s ptr') PTE_P = false) (hdet : ∀ p z, att p ≠ some (c, z))
    (honce : ∀ u w, Upte own s c u w → has w PTE_P = true → frameOf w ≠ frameOf (pteAt s ptr))
    (hroom : Roomy own att c) :
    Inv mode own att (s.shared ptr ptr') ∧ Preserves own att s (s.shared ptr ptr') ∧
      Shared (s.shared ptr ptr') d c v ∧
      ∀ e u, own e = .dir → u < 2 ^ 20 → ¬ ((e = d ∨ e = c) ∧ u = v) →
        entry (s.shared ptr ptr') e u = entry s e u := by
  have hv20 := upages_lt hv
  have ht := sameTarget_clearW (pteAt s ptr)
  have hW := clearW_bit (pteAt s ptr)
  unfold Kernel.shared
  generalize pteAt s ptr &&& ~~~PTE_W = x at ht hW
  -- the parent's entry first
  obtain ⟨hinv1, hpres1, -, hpte1⟩ := flags_step h hd hv hslot hp ht fun hw => by grind
  have hst1 := pteStore_storeWord h.tables hd hv20 hslot x
  generalize s.storeWord ptr.table ptr.index x = s1 at hinv1 hpres1 hpte1 hst1
  have hslot1 : pteSlot s1 c v = some ptr' := (hst1.slot hc).trans hslot'
  have hentry1 : ∀ e u, own e = .dir → u < 2 ^ 20 → ¬ (e = d ∧ u = v) →
      entry s1 e u = entry s e u := fun e u he hu hn => by rw [hst1.entry_eq he hu, if_neg hn]
  have hchild : pteAt s1 ptr' = pteAt s ptr' := by grind [entry_of_pte, pteOf_of_slot]
  have hxp : has x PTE_P = true := ht.present.trans hp
  have hup : Upte own s d v (pteAt s ptr) := ⟨hd, hv, pteOf_of_slot hslot⟩
  have hframe : frameOf x = frameOf (pteAt s ptr) := ht.frame
  rw [← hframe] at honce ⊢
  have honce1 : ∀ u w, Upte own s1 c u w → has w PTE_P = true → frameOf w ≠ frameOf x := by
    intro u w hu hpw
    refine honce u w ⟨hc, hu.2.1, ?_⟩ hpw
    rw [← hu.2.2, hst1.pte c u hc (upages_lt hu.2.1), if_neg fun heq => hne heq.1.symm]
  have hx : Upte own s1 d v x := ⟨hd, hv, hpte1⟩
  have hlt := hinv1.frame_lt hx hxp
  -- then the child's, with the new mapping counted
  have hst2 : PteStore own c v x s1 (s1.linked ptr' x (frameOf x)) :=
    pteStore_of_mem hinv1.tables hc hv20 hslot1 fun _ _ => rfl
  have hinv2 : Inv mode own att (s1.linked ptr' x (frameOf x)) := hinv1.share hmode hst2
    ((sameRest_storeWord _ _ _ _).trans (sameRest_setRmap _ _ _))
    (hinv1.maps.user d v x hx hxp).1 rfl (hroom.refcount_lt hinv1.maps hlt honce1)
    ⟨hc, hv, pteOf_of_slot hslot1⟩ hslot1 (by rw [hchild, habs]) hxp
    (hinv1.maps.user d v x hx hxp).2 hW honce1 (hinv1.readonly hx hxp hW rfl)
    fun _ p z hatt => (hdet p z hatt).elim
  have hnew : ¬ Visible att s1 c v := by
    rintro ⟨w, hw, hcase⟩
    rw [pteOf_of_slot hslot1, hchild] at hw
    have hw' := Option.some.inj hw
    rcases hcase with hpw | ⟨p, z, hatt, -⟩
    · grind
    · exact hdet p z hatt
  have hpres2 := preserves_linked hinv1 hc hv hslot1 hnew x (frameOf x)
  have hentry2 : ∀ e u, own e = .dir → u < 2 ^ 20 → ¬ (e = c ∧ u = v) →
      entry (s1.linked ptr' x (frameOf x)) e u = entry s1 e u :=
    fun e u he hu hn => by rw [hst2.entry_eq he hu, if_neg hn]
  have hself : entry (s1.linked ptr' x (frameOf x)) c v = x := by
    rw [hst2.entry_eq hc hv20, if_pos ⟨rfl, rfl⟩]
  have hparent : entry (s1.linked ptr' x (frameOf x)) d v = x := by
    rw [hentry2 d v hd hv20 fun heq => hne heq.1, entry_of_pte hpte1]
  refine ⟨hinv2, hpres1.trans (fun _ _ _ => rfl) hpres2, ?_, ?_⟩
  · exact ⟨by rw [hparent, hxp], by rw [hself, hxp], by rw [hself, hparent], by rw [hself, hparent]⟩
  · grind

/-! ### The loop -/

/-- The first `n` pages are shared with the new directory `c`. -/
structure Copied (mode : Mode) (own₀ own : Owners) (d c pages n : Nat) (s₀ s : Kernel) :
    Prop where
  fresh : own₀ c = .free ∨ own₀ c = .user
  keeps : Keeps (Function.update own₀ c .dir) own
  inv : Inv mode own (attachOf s) s
  pres : Preserves own₀ (attachOf s₀) s₀ s
  quiet : Quiet own₀ (attachOf s₀) (fun _ _ => False) s₀ s
  shared : ∀ v, v < n → Shared s d c v
  parent : ∀ v, v < pages → has (entry s d v) PTE_P = true
  empty : ∀ v, n ≤ v → v < UPAGES → entry s c v = 0

theorem Copied.child {pages n : Nat} (h : Copied mode own0 own d c pages n s0 s) :
    own c = .dir := h.keeps.retains.of_dir (Function.update_self _ _ _)

theorem Copied.sameKernel {pages n : Nat} (h : Copied mode own0 own d c pages n s0 s) :
    SameKernel own0 own :=
  (sameKernel_newDir h.fresh).trans h.keeps.sameKernel

theorem Copied.retains {pages n : Nat} (h : Copied mode own0 own d c pages n s0 s) :
    Retains own0 own := (retains_update h.fresh).trans h.keeps.retains

/-- The process whose memory is copied. -/
structure Source (mode : Mode) (own : Owners) (d c z : Nat) (s : Kernel) : Prop where
  attached : attachOf s s.cur = some (d, z)
  dir : own d = .dir
  size : z ≤ KERNBASE
  roomy : Roomy own (attachOf s) c
  detached : ∀ p z, attachOf s p ≠ some (c, z)
  mode : mode.single = false

theorem Copied.roomy {pages n z : Nat} (h : Copied mode own0 own d c pages n s0 s)
    (hsrc : Source mode own0 d c z s0) : Roomy own (attachOf s) c := by
  rw [h.pres.procs.attach]
  refine ⟨fun e he => ?_, hsrc.roomy.vacant⟩
  by_cases heq : e = c
  · exact .inl heq
  · have hdir := h.keeps.dir e he
    rw [Function.update_of_ne heq] at hdir
    exact hsrc.roomy.attached e hdir

theorem Copied.unattached {pages n z : Nat} (h : Copied mode own0 own d c pages n s0 s)
    (hsrc : Source mode own0 d c z s0) (p y : Nat) : attachOf s p ≠ some (c, y) := by
  rw [h.pres.procs.attach]
  exact hsrc.detached p y

theorem Copied.ne {pages n z : Nat} (h : Copied mode own0 own d c pages n s0 s)
    (hsrc : Source mode own0 d c z s0) : d ≠ c := by grind [hsrc.dir, h.fresh]

/-- While page `n` of the child is being mapped the two directories stay as they are. -/
theorem Copied.drift {own1 : Owners} {pages n z : Nat} {s1 : Kernel}
    (h : Copied mode own0 own d c pages n s0 s) (hsrc : Source mode own0 d c z s0)
    (hkeeps : Keeps own own1) (hinv : Inv mode own1 (attachOf s) s1)
    (hdrift : Drift own (attachOf s) (Victims true s) s s1) (hz : pages ≤ UPAGES)
    (hn : n ≤ UPAGES) : Copied mode own0 own1 d c pages n s0 s1 := by
  have hcur : (s.proc s.cur).pgdir = d := by
    rw [h.pres.procs.cur, h.pres.procs.pgdir]
    exact (attachOf_eq_some.1 hsrc.attached).2.2.1
  have hsim : ∀ u, u < UPAGES → PteSim (entry s1 d u) (entry s d u) := fun u hu =>
    hdrift.entry_sim (h.retains.of_dir hsrc.dir) (upages_lt hu)
      fun he => he.2.2.1.2 rfl hcur.symm
  have hsim' : ∀ u, u < UPAGES → PteSim (entry s1 c u) (entry s c u) := fun u hu =>
    hdrift.entry_sim h.child (upages_lt hu)
      (not_evictable (not_tracked (h.unattached hsrc)) _)
  have hatt := hdrift.procs.attach
  refine ⟨h.fresh, h.keeps.trans hkeeps, by rw [hatt]; exact hinv, ?_, ?_, ?_, ?_, ?_⟩
  · refine h.pres.trans h.retains ?_
    rw [← h.pres.procs.attach]
    exact hdrift.preserves fun _ _ hV => hV.1
  · refine h.quiet.trans h.retains ?_
    rw [← h.pres.procs.attach]
    exact hdrift.quiet fun _ _ hV => hV.1
  · intro u hu
    exact (h.shared u hu).sim (hsim u (by omega)) (hsim' u (by omega))
  · intro u hu
    rw [(hsim u (by omega)).present, h.parent u hu]
  · intro u hlo hhi
    have hsim := hsim' u hhi
    rw [h.empty u hlo hhi] at hsim
    exact hsim.eq_of_absent (has_zero _)

/-- Page `n` gets shared. -/
theorem Copied.succ {pages n z : Nat} (h : Copied mode own0 own d c pages n s0 s)
    (hsrc : Source mode own0 d c z s0) (hn : n < pages) (hz : pages ≤ UPAGES)
    (hslot : pteSlot s d n = some ptr) (hslot' : pteSlot s c n = some ptr') :
    Copied mode own0 own d c pages (n + 1) s0 (s.shared ptr ptr') := by
  have hd := h.retains.of_dir hsrc.dir
  have hne := h.ne hsrc
  have hword : entry s d n = pteAt s ptr := entry_of_pte (pteOf_of_slot hslot)
  have hp : has (pteAt s ptr) PTE_P = true := by rw [← hword]; exact h.parent n hn
  have habs : has (pteAt s ptr') PTE_P = false := by
    rw [← entry_of_pte (pteOf_of_slot hslot'), h.empty n (Nat.le_refl n) (by omega), has_zero]
  -- a page of the child below `n` is a page of the parent, which maps each page once
  have honce : ∀ u w, Upte own s c u w → has w PTE_P = true →
      frameOf w ≠ frameOf (pteAt s ptr) := by
    intro u w hu hpw heq
    have hent := entry_of_pte hu.2.2
    have hlt : u < n := by
      by_contra hge
      rw [← hent, h.empty u (by omega) hu.2.1, has_zero] at hpw
      cases hpw
    have hsh := h.shared u hlt
    have hsame : u = n := by
      refine h.inv.maps.once d u n (entry s d u) (entry s d n)
        ⟨hd, hu.2.1, pteOf_of_entry hsh.parent⟩
        ⟨hd, by omega, pteOf_of_entry (h.parent n hn)⟩ hsh.parent (h.parent n hn) ?_
      rw [← hsh.frame, hent, hword, heq]
    omega
  obtain ⟨hinv, hpres, hself, hrest⟩ := shared_step h.inv hsrc.mode hd h.child hne (by omega)
    hslot hp hslot' habs (h.unattached hsrc) honce (h.roomy hsrc)
  have hatt := hpres.procs.attach
  refine ⟨h.fresh, h.keeps, by rw [hatt]; exact hinv, ?_, ?_, ?_, ?_, ?_⟩
  · refine h.pres.trans h.retains ?_
    rw [← h.pres.procs.attach]
    exact hpres
  · refine h.quiet.trans (fun _ _ _ => rfl) ?_
    intro e u he hu _ _ habs
    by_cases heq : e = d ∧ u = n
    · grind
    · rw [hrest e u (h.retains.of_dir he) (upages_lt hu) ?_, habs]
      rintro ⟨rfl | rfl, hun⟩
      · exact heq ⟨rfl, hun⟩
      · rcases h.fresh with hf | hf <;> rw [hf] at he <;> cases he
  · intro u hu
    by_cases heq : u = n
    · subst heq; exact hself
    · refine (h.shared u (by omega)).sim ?_ ?_
      · grind [upages_lt, PteSim.refl]
      · grind [h.child, upages_lt, PteSim.refl]
  · grind [hself.parent, upages_lt, h.parent]
  · intro u hlo hhi
    rw [hrest c u h.child (upages_lt hhi) fun hx => by omega]
    exact h.empty u (by omega) hhi

theorem Copied.charge {pages n : Nat} (h : Copied mode own0 own d c pages n s0 s) (p : Nat)
    {f : Proc → Proc} (hf : ∀ pr, f pr = { pr with rss := (f pr).rss }) :
    Copied mode own0 own d c pages n s0 (s.setProc p f) := by
  have hprocs := sameProcs_setRss s p hf
  have hsame : ∀ e u, entry (s.setProc p f) e u = entry s e u := fun e u =>
    congrArg (fun x => x.getD 0) (pteOf_of_mem_eq rfl e u)
  refine ⟨h.fresh, h.keeps, by rw [hprocs.attach]; exact h.inv.setRss p hf, ?_, ?_, ?_, ?_, ?_⟩
  · refine h.pres.trans h.retains ?_
    rw [← h.pres.procs.attach]
    exact preserves_setRss h.inv p hf
  · exact h.quiet.trans (fun _ _ _ => rfl) (quiet_of_pte fun e u _ _ => pteOf_of_mem_eq rfl e u)
  · intro v hv
    exact (h.shared v hv).sim (by rw [hsame]; exact PteSim.refl _)
      (by rw [hsame]; exact PteSim.refl _)
  · intro v hv; rw [hsame]; exact h.parent v hv
  · intro v hlo hhi; rw [hsame]; exact h.empty v hlo hhi

theorem copyuvmLoop_succ {child left pages n z k : Nat} {Q : Bool → Kernel → Prop}
    (hsup : Supply mode true evict E (k + 1) s) (h : Copied mode own0 own d c pages n s0 s)
    (hsrc : Source mode own0 d c z s0) (hn : n < pages) (hz : pages ≤ UPAGES)
    (hrest : ∀ own1 s1, Copied mode own0 own1 d c pages (n + 1) s0 s1 →
      Supply mode true evict E k s1 →
      wp (copyuvmLoop evict d c child left ((n + 1) * PGSIZE)) s1 Q E) :
    wp (copyuvmLoop evict d c child (left + 1) (n * PGSIZE)) s Q E := by
  have hd := h.retains.of_dir hsrc.dir
  have hv : n < UPAGES := by omega
  have hv20 := upages_lt hv
  have hp := h.parent n hn
  obtain ⟨ptr, hslot, hword⟩ := pteOf_eq_some.1 (pteOf_of_entry hp)
  have hpw : has (pteAt s ptr) PTE_P = true := by rw [hword]; exact hp
  rw [copyuvmLoop, wp_bind, h.inv.walk hd (mul_PGSIZE_lt hv20), mul_PGSIZE_div, hslot]
  simp only [wp_bind, wp_loadPte, hpw, Bool.not_true, Bool.false_eq_true, if_false]
  rw [mappages_one hv20]
  have hmiss := missing_le_one s c n
  refine wp_conseq (mapOne_spec (c := k) h.inv h.child hv20
    (by rw [h.empty n (Nat.le_refl n) hv, has_zero]) (hsup.mono (by omega))) ?_
  rintro r s2 ⟨rfl, ptr', own1, s1, hwalk, hsup1, rfl⟩
  have h1 := h.drift hsrc hwalk.keeps hwalk.inv hwalk.drift hz (by omega)
  have hd1 := h1.retains.of_dir hsrc.dir
  have hslot1 : pteSlot s1 d n = some ptr := hwalk.drift.slot hd hslot
  -- the child's table is another page than the parent's
  have htne : ptr.table ≠ ptr'.table := by
    intro heq
    have ho := h1.inv.tables.slot_owner hd1 hv20 hslot1
    rw [heq, h1.inv.tables.slot_owner h1.child hv20 hwalk.slot] at ho
    exact h1.ne hsrc (Owner.tab.inj ho).1.symm
  have hframe : frameOf (pteAt s ptr) = frameOf (pteAt s1 ptr) := by
    have hcur : (s.proc s.cur).pgdir = d := by
      rw [h.pres.procs.cur, h.pres.procs.pgdir]
      exact (attachOf_eq_some.1 hsrc.attached).2.2.1
    exact (hwalk.drift.found hd hv20 hslot fun he => he.2.2.1.2 rfl hcur.symm).2.frame.symm
  generalize PTE_ADDR (pteAt s ptr) ||| PTE_FLAGS (pteAt s ptr) ||| PTE_P = x
  have hst := pteStore_storeWord h1.inv.tables h1.child hv20 hwalk.slot x
  have hT : TableInv own1 (s1.storeWord ptr'.table ptr'.index x) :=
    h1.inv.tables.store (SameMapRoles.refl _) hst.table
  have hF : FrameInv own1 (s1.storeWord ptr'.table ptr'.index x) := h1.inv.frames.congr rfl
  simp only [ne_eq, not_true_eq_false, if_false, wp_bind]
  rw [wp_walkpgdir hT hF h1.child (mul_PGSIZE_lt hv20), mul_PGSIZE_div, hst.slot h1.child,
    hwalk.slot]
  have hlt : frameOf (pteAt s1 ptr) < NFRAMES := by
    have hp1 := h1.parent n hn
    rw [entry_of_pte (pteOf_of_slot hslot1)] at hp1
    exact h1.inv.frame_lt ⟨hd1, hv, pteOf_of_slot hslot1⟩ hp1
  simp only [wp_bind, wp_loadPte, wp_storePte, pteAt_storeWord_ne htne,
    pteAt_storeWord_self, storeWord_absorb htne, hframe]
  rw [wp_of_ok (incSharing_eq hlt), addRss, wp_modify, Nat.succ_mul n PGSIZE |>.symm]
  exact hrest own1 _ ((h1.succ hsrc hn hz hslot1 hwalk.slot).charge child fun _ => rfl)
    (hsup1.congr rfl)

theorem copyuvmLoop_spec {pages z k : Nat} (child : Nat)
    (hsrc : Source mode own0 d c z s0) (hz : pages ≤ UPAGES) :
    ∀ {left n : Nat} {s : Kernel} {own : Owners}, n + left = pages →
      Copied mode own0 own d c pages n s0 s → Supply mode true evict E (k + left) s →
      wp (copyuvmLoop evict d c child left (n * PGSIZE)) s (fun r s' => r = true ∧
        (∃ own', Copied mode own0 own' d c pages pages s0 s') ∧
        Supply mode true evict E k s') E := by
  intro left
  induction left with
  | zero =>
    intro n s own hn h hsup
    have heq : n = pages := by omega
    subst heq
    exact ⟨rfl, ⟨own, h⟩, hsup⟩
  | succ left ih =>
    intro n s own hn h hsup
    exact copyuvmLoop_succ (k := k + left) hsup h hsrc (by omega) hz
      fun own1 s1 h1 hsup1 => ih (by omega) h1 hsup1

/-- `copyuvm` of a process whose pages are all in memory. -/
theorem copyuvm_spec {z k : Nat} (child : Nat)
    (hsup : Supply mode true evict E (k + pagesOf z + 10) s)
    (h : Inv mode own (attachOf s) s) (hmode : mode.single = false)
    (hatt : attachOf s s.cur = some (d, z))
    (hroom : (∀ e, own e = .dir → ∃ p z, p < NPROC ∧ attachOf s p = some (e, z)) ∧
      ∃ p, p < NPROC ∧ attachOf s p = none)
    (hres : ∀ v, v < pagesOf z → has (entry s d v) PTE_P = true) :
    wp (copyuvm evict d z child) s (fun r s' => ∃ c own', r = some c ∧
      Copied mode own own' d c (pagesOf z) (pagesOf z) s s' ∧
      (∀ p y, attachOf s p ≠ some (c, y)) ∧ Supply mode true evict E k s') E := by
  unfold copyuvm
  rw [wp_bind]
  refine wp_conseq (setupkvm_spec h hsup) ?_
  rintro r s1 ⟨c, own1, rfl, hspace, honly, hsup1⟩
  have hdir := h.procs.dir _ _ _ hatt
  have hsize := h.procs.size _ _ _ hatt
  have hz : pagesOf z ≤ UPAGES := pagesOf_le hsize
  have hsrc : Source mode own d c z s :=
    ⟨hatt, hdir, hsize, ⟨fun e he => .inr (hroom.1 e he), hroom.2⟩, hspace.detached, hmode⟩
  have hcopied : Copied mode own own1 d c (pagesOf z) 0 s s1 := by
    refine ⟨hspace.fresh, hspace.keeps, hspace.inv,
      hspace.drift.preserves fun _ _ hV => hV.1, hspace.drift.quiet fun _ _ hV => hV.1,
      fun v hv => absurd hv (Nat.not_lt_zero v), ?_, ?_⟩
    · intro v hv
      have hsim := hspace.drift.entry_sim hdir (upages_lt (Nat.lt_of_lt_of_le hv hz))
        fun he => he.2.2.1.2 rfl (attachOf_eq_some.1 hatt).2.2.1.symm
      rw [hsim.present, hres v hv]
    · exact fun v _ hv => honly.empty v hv
  simp only [wp_bind]
  have hloop := copyuvmLoop_spec child hsrc hz (Nat.zero_add _) hcopied hsup1
  rw [Nat.zero_mul] at hloop
  refine wp_conseq hloop ?_
  rintro r s2 ⟨rfl, ⟨own2, hcopied2⟩, hsup2⟩
  exact ⟨c, own2, rfl, hcopied2, hspace.detached, hsup2⟩

end CowPaging
