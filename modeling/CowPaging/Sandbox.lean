import CowPaging.FlatTables

/-!
# A new address space is built from free pages

While pages are free, `exec` writes only to pages that were free when it began: the directory,
its tables, and the pages it maps for user code. `LeavesPages` says that the pages in `P` and
their entries in the reverse map are as they were, and that the running process was charged for
`n` pages. `Sandbox` is what makes every next step such a step: the directory, its tables and
the pages behind its user entries are outside `P`.

Roles play a small part here. A page that was taken from the free list for user code is just
held; what matters is that it is no table.
-/

namespace CowPaging

open Bytes StateExcept SlotTable
open Function (update_of_ne update_self update_idem update_eq_self update)

/-- `rss += PGSIZE`. -/
def chargePage (rss : Nat) : Nat := (rss + PGSIZE) % 2 ^ 32

/-- The pages in `P` are left alone, and the running process was charged for `n` pages. -/
structure LeavesPages (P : Nat → Prop) (n : Nat) (s s' : Kernel) : Prop where
  mem : ∀ f, P f → s'.mem f = s.mem f
  rmap : ∀ f, P f → s'.rmap f = s.rmap f
  cur : s'.cur = s.cur
  procs : s'.proc = update s.proc s.cur
    { s.proc s.cur with rss := chargePage^[n] (s.proc s.cur).rss }

variable {P : Nat → Prop} {n n' : Nat} {s s1 s' : Kernel}

theorem leavesPages_of_procs (hmem : ∀ f, P f → s'.mem f = s.mem f)
    (hrmap : ∀ f, P f → s'.rmap f = s.rmap f) (hcur : s'.cur = s.cur) (hproc : s'.proc = s.proc) :
    LeavesPages P 0 s s' := by
  refine ⟨hmem, hrmap, hcur, ?_⟩
  rw [hproc]
  exact (update_eq_self _ _).symm

theorem LeavesPages.refl (s : Kernel) : LeavesPages P 0 s s :=
  leavesPages_of_procs (fun _ _ => rfl) (fun _ _ => rfl) rfl rfl

theorem LeavesPages.trans (h : LeavesPages P n s s1) (h' : LeavesPages P n' s1 s') :
    LeavesPages P (n + n') s s' where
  mem f hf := (h'.mem f hf).trans (h.mem f hf)
  rmap f hf := (h'.rmap f hf).trans (h.rmap f hf)
  cur := h'.cur.trans h.cur
  procs := by
    rw [h'.procs, h.cur, h.procs, update_self, update_idem, Nat.add_comm,
      Function.iterate_add_apply]

variable [KernelImage]

/-- The directory `d`, its tables, and the pages of user code behind it are not in `P`; its
    first `n` pages are mapped. -/
structure Sandbox (P : Nat → Prop) (own : Owners) (d n : Nat) (s : Kernel) : Prop where
  paged : Paged own s
  dir : own d = .dir
  apart : ∀ f, P f → own f ≠ .free ∧ f ≠ d ∧ ∀ i, own f ≠ .tab d i
  bound : n ≤ UPAGES
  present : ∀ v, v < UPAGES → (has (entry s d v) PTE_P = true ↔ v < n)
  pages : ∀ v, v < n → ∃ w, pteOf s d v = some w ∧ own (frameOf w) = .held ∧ ¬ P (frameOf w)
  user : ∀ v w, v < 2 ^ 20 → pteOf s d v = some w → has w PTE_U = true →
    own (frameOf w) = .held ∧ ¬ P (frameOf w)

/-- Pages that were held still are. -/
def StillHeld (own own' : Owners) : Prop := ∀ f, own f = .held → own' f = .held

variable {own own' : Owners} {d v va f : Nat} {ptr : PtePtr} {w : Word} {rest : List Nat}

/-! ### Steps -/

theorem Sandbox.pop (h : Sandbox P own d n s) (hlist : s.freelist = f :: rest) (num : Nat) :
    own f = .free ∧ ¬ P f ∧
      Sandbox P (update own f .held) d n { s with freelist := rest, numFreePages := num } ∧
      LeavesPages P 0 s { s with freelist := rest, numFreePages := num } := by
  have hfree : own f = .free :=
    (h.paged.frames.free_iff f).1 (by rw [hlist]; exact List.mem_cons_self)
  have hP : ¬ P f := fun hf => (h.apart f hf).1 hfree
  have hheld : StillHeld own (update own f .held) := by
    intro g hg
    by_cases hgf : g = f
    · rw [hgf, update_self]
    · rw [update_of_ne hgf, hg]
  have hext := h.paged.pop (n := num) hlist
  refine ⟨hfree, hP, ⟨hext.paged, hext.dir d h.dir, ?_, h.bound, h.present, ?_, ?_⟩,
    leavesPages_of_procs (fun _ _ => rfl) (fun _ _ => rfl) rfl rfl⟩
  · grind [Function.update_apply, h.apart]
  · intro v hv
    obtain ⟨w, hw, hown, hnot⟩ := h.pages v hv
    exact ⟨w, hw, hheld _ hown, hnot⟩
  · intro v w hv hw hU
    obtain ⟨hown, hnot⟩ := h.user v w hv hw hU
    exact ⟨hheld _ hown, hnot⟩

theorem Sandbox.setPage (h : Sandbox P own d n s) (hf : own f = .held) (hP : ¬ P f) (page : Page) :
    Sandbox P own d n (s.setPage f page) ∧ LeavesPages P 0 s (s.setPage f page) := by
  have hmaps : SameMaps own s (s.setPage f page) := sameMaps_setPage (by rw [hf]; exact id)
  have hpte : ∀ v, v < 2 ^ 20 → pteOf (s.setPage f page) d v = pteOf s d v :=
    fun v hv => hmaps.pte h.paged.tables h.dir hv
  constructor
  · refine ⟨⟨h.paged.frames.congr rfl, h.paged.tables.congr (SameRoles.refl own) hmaps⟩, h.dir,
      h.apart, h.bound, ?_, ?_, ?_⟩
    · intro v hv
      rw [entry, hpte v (upages_lt hv)]
      exact h.present v hv
    · intro v hv
      rw [hpte v (upages_lt (Nat.lt_of_lt_of_le hv h.bound))]
      exact h.pages v hv
    · intro v w hv hw
      rw [hpte v hv] at hw
      exact h.user v w hv hw
  · refine leavesPages_of_procs (fun g hg => ?_) (fun _ _ => rfl) rfl rfl
    have hgf : g ≠ f := fun heq => hP (heq ▸ hg)
    exact update_of_ne hgf _ _

/-- An entry of the directory is written. One that maps a page of user code maps a held page. -/
theorem Sandbox.store (h : Sandbox P own d n s) (hv : v < 2 ^ 20) (hslot : pteSlot s d v = some ptr)
    (hn : n' = n ∨ (n' = n + 1 ∧ v = n ∧ n' ≤ UPAGES))
    (hp : v < UPAGES → (has w PTE_P = true ↔ v < n'))
    (hw : v < n' ∨ has w PTE_U = true → own (frameOf w) = .held ∧ ¬ P (frameOf w)) :
    Sandbox P own d n' (s.storeWord ptr.table ptr.index w) ∧
      LeavesPages P 0 s (s.storeWord ptr.table ptr.index w) := by
  have hst := pteStore_storeWord h.paged.tables h.dir hv hslot w
  have howner := h.paged.tables.slot_owner h.dir hv hslot
  have hbound := h.bound
  constructor
  · refine ⟨⟨h.paged.frames.congr rfl, h.paged.tables.store (SameMapRoles.refl own) hst.table⟩, h.dir,
      h.apart, by omega, ?_, ?_, ?_⟩
    · intro u hu
      rw [hst.entry_eq h.dir (upages_lt hu)]
      by_cases huv : u = v
      · grind
      · rw [if_neg fun heq => huv heq.2, h.present u hu]
        omega
    · intro u hu
      have hu20 : u < 2 ^ 20 := upages_lt (show u < UPAGES by omega)
      rw [hst.pte d u h.dir hu20]
      by_cases huv : u = v
      · grind
      · rw [if_neg fun heq => huv heq.2]
        exact h.pages u (by omega)
    · intro u x hu hx hU
      rw [hst.pte d u h.dir hu] at hx
      by_cases huv : u = v
      · grind
      · rw [if_neg fun heq => huv heq.2] at hx
        exact h.user u x hu hx hU
  · refine leavesPages_of_procs (fun g hg => ?_) (fun _ _ => rfl) rfl rfl
    have hgt : g ≠ ptr.table := by
      rintro rfl
      exact (h.apart _ hg).2.2 _ howner
    exact update_of_ne hgt _ _

theorem Sandbox.walkpgdirAlloc (h : Sandbox P own d n s) (hva : va < 2 ^ 32) :
    wp (walkpgdirAlloc noEvict d va) s (fun r s' => ∃ ptr own', r = some ptr ∧
      pteSlot s' d (va / PGSIZE) = some ptr ∧ Sandbox P own' d n s' ∧ StillHeld own own' ∧
      LeavesPages P 0 s s') fun _ => True := by
  unfold CowPaging.walkpgdirAlloc
  rw [wp_bind, wp_walkpgdir h.paged.tables h.paged.frames h.dir hva]
  cases hslot : pteSlot s d (va / PGSIZE) with
  | some ptr => exact ⟨ptr, own, rfl, hslot, h, fun _ hf => hf, LeavesPages.refl s⟩
  | none =>
    have htab : tableOf s d (va / PGSIZE / 1024) = none := Option.map_eq_none_iff.1 hslot
    have hi : va / PGSIZE / 1024 < 1024 := by
      simp only [PGSIZE]
      omega
    simp only [wp_bind]
    cases hlist : s.freelist with
    | nil =>
      unfold kalloc
      rw [wp_bind, wp_popFree_nil hlist]
      trivial
    | cons f rest =>
      rw [wp_of_ok (kalloc_cons hlist)]
      simp only [memset, wp_bind, wp_modify, wp_pure]
      obtain ⟨hfree, hP, hpop, -⟩ := h.pop hlist (decr32 s.numFreePages)
      have hheld : update own f .held f = .held := update_self _ _ _
      have hflt : f < NFRAMES := (hpop.paged.frames.range f (by rw [hheld]; simp)).2
      obtain ⟨hp, hframe⟩ := pde_bits hflt
      have hnt := newTable_of_store hpop.paged.tables hpop.dir hi hheld htab hp hframe
      have hext := hpop.paged.newTable hnt hheld hpop.dir hi rfl
      rw [update_idem] at hext
      -- a page of user code is not the new table, which was free
      have hother : ∀ g, own g = .held →
          update own f (.tab d (va / PGSIZE / 1024)) g = .held := by
        intro g hg
        have hgf : g ≠ f := by
          rintro rfl
          rw [hfree] at hg
          cases hg
        rw [update_of_ne hgf, hg]
      rw [PDX_eq hva]
      refine ⟨⟨f, PTX va⟩, _, rfl, ?_, ⟨hext.paged, hext.dir d hpop.dir, ?_, h.bound, ?_, ?_, ?_⟩, hother,
        leavesPages_of_procs ?_ (fun _ _ => rfl) rfl rfl⟩
      · rw [pteSlot_eq_some, hnt.table d _ hpop.dir hi, if_pos ⟨rfl, rfl⟩]
        exact ⟨rfl, PTX_eq va⟩
      · intro g hg
        have hgf : g ≠ f := fun heq => hP (heq ▸ hg)
        rw [update_of_ne hgf]
        exact h.apart g hg
      · intro v hv
        rw [hext.entry d v hpop.dir (upages_lt hv) id]
        exact h.present v hv
      · intro v hv
        obtain ⟨w, hw, hown, hnot⟩ := h.pages v hv
        have hv20 := upages_lt (Nat.lt_of_lt_of_le hv h.bound)
        exact ⟨w, hnt.pte d v w hpop.dir hv20 hw, hother _ hown, hnot⟩
      · intro v w hv hw hU
        obtain ⟨hown, hnot⟩ := h.user v w hv (hnt.pte_old hpop.dir hv hw (ne_zero_of_has hU)) hU
        exact ⟨hother _ hown, hnot⟩
      · intro g hg
        have hgf : g ≠ f := fun heq => hP (heq ▸ hg)
        have hgd := (h.apart g hg).2.1
        simp only [Kernel.storeWord, Kernel.setPage, update_of_ne hgd, update_of_ne hgf]

/-! ### `mappages` -/

/-- One page is mapped: for user code a held one, the next after the first `n`. -/
theorem Sandbox.mapOne {pa perm : Word} (h : Sandbox P own d n s) (hv : v < 2 ^ 20)
    (hn : n' = n ∨ (n' = n + 1 ∧ v = n ∧ n' ≤ UPAGES)) (hlt : v < UPAGES → v < n')
    (hw : v < n' ∨ has (pa ||| perm ||| PTE_P) PTE_U = true →
      own (frameOf (pa ||| perm ||| PTE_P)) = .held ∧ ¬ P (frameOf (pa ||| perm ||| PTE_P))) :
    wp (mapOne noEvict d (v * PGSIZE) pa perm) s (fun r s' => r = 0 ∧ ∃ own',
      Sandbox P own' d n' s' ∧ StillHeld own own' ∧ LeavesPages P 0 s s') fun _ => True := by
  unfold CowPaging.mapOne
  rw [wp_bind]
  have hwalk := h.walkpgdirAlloc (mul_PGSIZE_lt hv)
  rw [mul_PGSIZE_div] at hwalk
  refine wp_conseq hwalk ?_
  rintro - s1 ⟨ptr, own1, rfl, hslot, h1, hheld, hleaves⟩
  simp only [wp_bind, wp_loadPte]
  refine wp_ite (fun _ => trivial) fun _ => ?_
  have hp : has (pa ||| perm ||| PTE_P) PTE_P = true := by simp
  obtain ⟨h2, hleaves2⟩ := h1.store hv hslot hn (fun hup => iff_of_true hp (hlt hup))
    fun hor => ⟨hheld _ (hw hor).1, (hw hor).2⟩
  exact ⟨rfl, own1, h2, hheld, hleaves.trans hleaves2⟩

omit [KernelImage] in
theorem kernel_entry_closed {pa perm : Word} (hpa : pa.toNat % PGSIZE = 0)
    (hperm : has perm PTE_U = false) : has (pa ||| perm ||| PTE_P) PTE_U = false := by
  have hbit : pa.getLsbD 2 = false := by
    simp only [PGSIZE] at hpa
    rw [BitVec.getLsbD, Nat.testBit_eq_decide_div_mod_eq]
    simp only [decide_eq_false_iff_not]
    omega
  rw [has_U] at hperm
  rw [has_U, BitVec.getLsbD_or, BitVec.getLsbD_or, hbit, hperm, getLsbD_P]
  rfl

theorem Sandbox.mappagesLoop {perm : Word} (hperm : has perm PTE_U = false) {left : Nat} :
    ∀ {s : Kernel} {own : Owners} {v : Nat} {pa : Word}, Sandbox P own d 0 s → UPAGES ≤ v →
      v + left < 2 ^ 20 → pa.toNat % PGSIZE = 0 →
      wp (mappagesLoop noEvict d perm left (v * PGSIZE) pa) s (fun r s' => r = 0 ∧ ∃ own',
        Sandbox P own' d 0 s' ∧ LeavesPages P 0 s s') fun _ => True := by
  have hone : ∀ {s : Kernel} {own : Owners} {v : Nat} {pa : Word}, Sandbox P own d 0 s → UPAGES ≤ v →
      v < 2 ^ 20 → pa.toNat % PGSIZE = 0 →
      wp (CowPaging.mapOne noEvict d (v * PGSIZE) pa perm) s (fun r s' => r = 0 ∧ ∃ own',
        Sandbox P own' d 0 s' ∧ LeavesPages P 0 s s') fun _ => True := by
    intro s own v pa h hlo hv hpa
    refine wp_conseq (h.mapOne hv (.inl rfl) (fun hup => absurd hup (Nat.not_lt.2 hlo)) ?_) ?_
    · rintro (hlt | hset)
      · exact absurd hlt (Nat.not_lt_zero v)
      · rw [kernel_entry_closed hpa hperm] at hset
        cases hset
    · rintro r s' ⟨hr, own', h', -, hleaves⟩
      exact ⟨hr, own', h', hleaves⟩
  induction left with
  | zero =>
    intro s own v pa h hlo hv hpa
    exact hone h hlo hv hpa
  | succ left ih =>
    intro s own v pa h hlo hv hpa
    rw [CowPaging.mappagesLoop, wp_bind]
    refine wp_conseq (hone h hlo (by omega) hpa) ?_
    rintro r s1 ⟨rfl, own1, h1, hleaves1⟩
    have hnext : (v * PGSIZE + PGSIZE) % 2 ^ 32 = (v + 1) * PGSIZE := by
      simp only [PGSIZE]
      omega
    have hpa' : (pa + BitVec.ofNat 32 PGSIZE).toNat % PGSIZE = 0 := by
      rw [BitVec.toNat_add, BitVec.toNat_ofNat]
      simp only [PGSIZE] at hpa ⊢
      omega
    rw [if_neg (by decide), hnext]
    refine wp_conseq (ih h1 (by omega) (by omega) hpa') ?_
    rintro r s2 ⟨rfl, own2, h2, hleaves2⟩
    exact ⟨rfl, own2, h2, hleaves1.trans hleaves2⟩

/-! ### `setupkvm` -/

/-- An entry of `kmap`: whole pages above `KERNBASE`, closed to user code. -/
def KernelMap (k : Kmap) : Prop :=
  k.physStart % PGSIZE = 0 ∧ k.physStart < 2 ^ 32 ∧ has k.perm PTE_U = false ∧
    ∃ v n, k.virt = v * PGSIZE ∧ UPAGES ≤ v ∧ v + n < 2 ^ 20 ∧
      (k.physEnd + 2 ^ 32 - k.physStart) % 2 ^ 32 = (n + 1) * PGSIZE

theorem kernelMap_kmap : ∀ k ∈ kmap, KernelMap k := by
  have htext := KernelImage.text_pos
  have hdata := KernelImage.data_le
  have hend := KernelImage.end_lt
  simp only [EXTMEM, PGSIZE, NFRAMES, PHYSTOP] at htext hend
  have hW : has PTE_W PTE_U = false := by decide
  intro k hk
  simp only [kmap, List.mem_cons, List.not_mem_nil, or_false] at hk
  rcases hk with rfl | rfl | rfl | rfl
  · exact ⟨by decide, by decide, hW, 524288, 255, rfl, by decide, by decide, rfl⟩
  · refine ⟨show EXTMEM % PGSIZE = 0 by decide, show EXTMEM < 2 ^ 32 by decide, has_zero _, 524544,
      KernelImage.dataPage - 257, rfl, by decide, by omega, ?_⟩
    simp only [EXTMEM, PGSIZE]
    omega
  · refine ⟨Nat.mul_mod_left _ _, ?_, hW, 524288 + KernelImage.dataPage,
      1023 - KernelImage.dataPage, ?_, ?_, by omega, ?_⟩
    · simp only [PGSIZE]
      omega
    · simp only [KERNBASE, PGSIZE]
      omega
    · simp only [UPAGES, KERNBASE, PGSIZE]
      omega
    · simp only [PHYSTOP, PGSIZE]
      omega
  · exact ⟨by decide, by decide, hW, DEVSPACE / PGSIZE, 8191, by decide, by decide, by decide, by decide⟩

theorem Sandbox.mapKernel : ∀ {l : List Kmap} {s : Kernel} {own : Owners}, Sandbox P own d 0 s →
    (∀ k ∈ l, KernelMap k) →
    wp (mapKernel noEvict d l) s (fun r s' => r = true ∧ ∃ own',
      Sandbox P own' d 0 s' ∧ LeavesPages P 0 s s') fun _ => True := by
  intro l
  induction l with
  | nil =>
    intro s own h _
    exact ⟨rfl, own, h, LeavesPages.refl s⟩
  | cons k l ih =>
    intro s own h hl
    obtain ⟨hphys, hlt, hperm, v, n, hvirt, hlo, hhi, hsize⟩ := hl k List.mem_cons_self
    rw [CowPaging.mapKernel, wp_bind, hvirt, hsize, mappages_pages hhi]
    refine wp_conseq (h.mappagesLoop hperm hlo hhi ?_) ?_
    · rw [BitVec.toNat_ofNat, Nat.mod_eq_of_lt hlt, hphys]
    · rintro r s1 ⟨rfl, own1, h1, hleaves1⟩
      rw [if_neg (by decide)]
      refine wp_conseq (ih h1 fun k hk => hl k (List.mem_cons_of_mem _ hk)) ?_
      rintro r s2 ⟨rfl, own2, h2, hleaves2⟩
      exact ⟨rfl, own2, h2, hleaves1.trans hleaves2⟩

theorem setupkvm_sandbox (h : Paged own s) (hP : ∀ f, P f → own f ≠ .free) :
    wp (setupkvm noEvict) s (fun r s' => ∃ d own', r = some d ∧ Sandbox P own' d 0 s' ∧
      LeavesPages P 0 s s') fun _ => True := by
  unfold setupkvm
  rw [wp_bind]
  cases hlist : s.freelist with
  | nil =>
    unfold kalloc
    rw [wp_bind, wp_popFree_nil hlist]
    trivial
  | cons f rest =>
    rw [wp_of_ok (kalloc_cons hlist)]
    simp only [memset, wp_bind, wp_modify]
    rw [if_neg (by decide), wp_bind]
    have hfree : own f = .free :=
      (h.frames.free_iff f).1 (by rw [hlist]; exact List.mem_cons_self)
    have hnot : ¬ P f := fun hf => hP f hf hfree
    have hext := h.pop (n := decr32 s.numFreePages) hlist
    have hheld : update own f .held f = .held := update_self _ _ _
    generalize hpop : ({ s with freelist := rest, numFreePages := decr32 s.numFreePages } : Kernel) = s1
      at hext
    have hpte : ∀ v, pteOf (s1.setPage f fun _ => 0) f v = none :=
      fun v => pteOf_none_iff.2 (tableOf_zero f _)
    have hnew : Sandbox P (update own f .dir) f 0 (s1.setPage f fun _ => 0) := by
      rw [← update_idem (a := f) (v := .held) (w := .dir) own]
      refine ⟨⟨?_, newDir_tableInv hext.paged.tables hheld⟩, update_self _ _ _, ?_,
        Nat.zero_le _, ?_, ?_, ?_⟩
      · exact (hext.paged.frames.update (by rw [hheld]; simp) (by rw [hheld]; simp) (by simp)).congr rfl
      · intro g hg
        have hgf : g ≠ f := fun heq => hnot (heq ▸ hg)
        rw [update_of_ne hgf, update_of_ne hgf]
        refine ⟨hP g hg, hgf, fun i htab => ?_⟩
        have hdir := (h.tables.tab_dir f i g htab).1
        rw [hfree] at hdir
        cases hdir
      · intro v _
        rw [entry_of_none (hpte v), has_zero]
        exact iff_of_false Bool.false_ne_true (Nat.not_lt_zero v)
      · grind
      · grind
    refine wp_conseq (hnew.mapKernel kernelMap_kmap) ?_
    rintro r s2 ⟨rfl, own2, h2, hleaves⟩
    rw [if_pos rfl]
    refine ⟨f, own2, rfl, h2, ?_⟩
    have hfirst : LeavesPages P 0 s (s1.setPage f fun _ => 0) := by
      subst hpop
      refine leavesPages_of_procs (fun g hg => ?_) (fun _ _ => rfl) rfl rfl
      have hgf : g ≠ f := fun heq => hnot (heq ▸ hg)
      exact update_of_ne hgf _ _
    exact hfirst.trans hleaves

/-! ### `allocuvm` -/

omit [KernelImage] in
/-- The entry of the reverse map for a page outside `P` changes. -/
theorem leavesPages_setRmap (hP : ¬ P f) (r : Rmap) : LeavesPages P 0 s (s.setRmap f r) := by
  refine leavesPages_of_procs (fun _ _ => rfl) (fun g hg => ?_) rfl rfl
  have hgf : g ≠ f := fun heq => hP (heq ▸ hg)
  exact update_of_ne hgf _ _

omit [KernelImage] in
theorem leavesPages_charge (s : Kernel) :
    LeavesPages P 1 s (s.setProc s.cur fun pr => { pr with rss := (pr.rss + PGSIZE) % 2 ^ 32 }) :=
  ⟨fun _ _ => rfl, fun _ _ => rfl, rfl, rfl⟩

theorem Sandbox.congr (h : Sandbox P own d n s) (hmem : s'.mem = s.mem)
    (hlist : s'.freelist = s.freelist) : Sandbox P own d n s' where
  paged := ⟨h.paged.frames.congr hlist, h.paged.tables.congr (SameRoles.refl own) (sameMaps_of_mem hmem)⟩
  dir := h.dir
  apart := h.apart
  bound := h.bound
  present v hv := by
    rw [entry, pteOf_of_mem_eq hmem]
    exact h.present v hv
  pages v hv := by
    rw [pteOf_of_mem_eq hmem]
    exact h.pages v hv
  user v w hv hw := by
    rw [pteOf_of_mem_eq hmem] at hw
    exact h.user v w hv hw

/-- One turn of the loop of `allocuvm`. -/
theorem Sandbox.allocuvmLoop_succ {left oldsz newsz : Nat} {Q : Nat → Kernel → Prop}
    (h : Sandbox P own d n s) (hn : n < UPAGES)
    (hrest : ∀ own1 s1, Sandbox P own1 d (n + 1) s1 → LeavesPages P 1 s s1 →
      wp (allocuvmLoop noEvict d oldsz newsz left ((n + 1) * PGSIZE)) s1 Q fun _ => True) :
    wp (allocuvmLoop noEvict d oldsz newsz (left + 1) (n * PGSIZE)) s Q fun _ => True := by
  rw [allocuvmLoop, wp_bind]
  cases hlist : s.freelist with
  | nil =>
    unfold kalloc
    rw [wp_bind, wp_popFree_nil hlist]
    trivial
  | cons f rest =>
    rw [wp_of_ok (kalloc_cons hlist)]
    simp only [memset, wp_bind, wp_modify]
    obtain ⟨-, hP, hpop, hleaves⟩ := h.pop hlist (decr32 s.numFreePages)
    have hheld : update own f .held f = .held := update_self _ _ _
    have hflt : f < NFRAMES := (hpop.paged.frames.range f (by rw [hheld]; simp)).2
    obtain ⟨hzero, hleaves1⟩ := hpop.setPage hheld hP fun _ => 0
    have hframe : frameOf (frameAddr f ||| (PTE_W ||| PTE_U) ||| PTE_P) = f :=
      (userWord_bits (Nat.lt_of_lt_of_le hflt (by decide))).1
    rw [mappages_one (upages_lt hn)]
    refine wp_conseq (hzero.mapOne (upages_lt hn) (.inr ⟨rfl, rfl, hn⟩)
      (fun _ => Nat.lt_succ_self n) ?_) ?_
    · intro _
      rw [hframe]
      exact ⟨hheld, hP⟩
    rintro r s1 ⟨rfl, own1, h1, -, hleaves2⟩
    rw [if_neg (by decide)]
    obtain ⟨w, hw, -⟩ := h1.pages n (Nat.lt_succ_self n)
    obtain ⟨ptr, hslot, -⟩ := pteOf_eq_some.1 hw
    rw [wp_bind, wp_walkpgdir h1.paged.tables h1.paged.frames h1.dir (mul_PGSIZE_lt (upages_lt hn)),
      mul_PGSIZE_div, hslot]
    simp only [nonNull, wp_bind, wp_pure, incSharing, wp_get]
    rw [if_pos hflt]
    simp only [wp_set, addRss, wp_modify]
    rw [← Nat.succ_mul]
    refine hrest own1 _ (h1.congr rfl rfl) ?_
    exact (((hleaves.trans hleaves1).trans hleaves2).trans (leavesPages_setRmap hP _)).trans
      (leavesPages_charge _)

theorem Sandbox.allocuvmLoop (oldsz newsz : Nat) {left : Nat} : ∀ {n : Nat} {s : Kernel} {own : Owners},
    Sandbox P own d n s → n + left ≤ UPAGES →
    wp (allocuvmLoop noEvict d oldsz newsz left (n * PGSIZE)) s (fun r s' => r = newsz ∧ ∃ own',
      Sandbox P own' d (n + left) s' ∧ LeavesPages P left s s') fun _ => True := by
  induction left with
  | zero =>
    intro n s own h _
    exact ⟨rfl, own, h, LeavesPages.refl s⟩
  | succ left ih =>
    intro n s own h hle
    apply h.allocuvmLoop_succ (by omega)
    intro own1 s1 h1 hleaves1
    refine wp_conseq (ih h1 (by omega)) ?_
    rintro r s2 ⟨hr, own2, h2, hleaves2⟩
    refine ⟨hr, own2, ?_, ?_⟩
    · rwa [show n + (left + 1) = n + 1 + left by omega]
    · rw [show left + 1 = 1 + left by omega]
      exact hleaves1.trans hleaves2

/-- A space of size `sz` that was grown to size `sz'`. -/
structure Enlarged (P : Nat → Prop) (d sz sz' : Nat) (s s' : Kernel) : Prop where
  mono : sz ≤ sz'
  sandbox : ∃ own, Sandbox P own d (pagesOf sz') s'
  leaves : LeavesPages P (pagesOf sz' - pagesOf sz) s s'

omit [KernelImage] in
theorem pagesOf_mono {a b : Nat} (h : a ≤ b) : pagesOf a ≤ pagesOf b := by
  simp only [pagesOf, PGROUNDUP, PGSIZE]
  omega

theorem Enlarged.refl {sz : Nat} (h : Sandbox P own d (pagesOf sz) s) : Enlarged P d sz sz s s :=
  ⟨Nat.le_refl sz, ⟨own, h⟩, by rw [Nat.sub_self]; exact LeavesPages.refl s⟩

theorem Enlarged.trans {a b c : Nat} (h : Enlarged P d a b s s1) (h' : Enlarged P d b c s1 s') :
    Enlarged P d a c s s' := by
  refine ⟨h.mono.trans h'.mono, h'.sandbox, ?_⟩
  have hab := pagesOf_mono h.mono
  have hbc := pagesOf_mono h'.mono
  rw [show pagesOf c - pagesOf a = pagesOf b - pagesOf a + (pagesOf c - pagesOf b) by omega]
  exact h.leaves.trans h'.leaves

/-- Where `allocuvm` fails the size stays what it was. -/
theorem Sandbox.allocuvm {oldsz newsz : Nat} (h : Sandbox P own d (pagesOf oldsz) s) :
    wp (allocuvm noEvict d oldsz newsz) s (fun r s' => ∃ sz, Enlarged P d oldsz sz s s' ∧
      (r ≠ 0 → r = sz ∧ newsz ≤ sz)) fun _ => True := by
  unfold CowPaging.allocuvm
  refine wp_ite (fun _ => ?_) fun hlt => wp_ite (fun hless => ?_) fun hge => ?_
  · exact ⟨oldsz, Enlarged.refl h, fun hne => absurd rfl hne⟩
  · exact ⟨oldsz, Enlarged.refl h, fun _ => ⟨rfl, hless.le⟩⟩
  · have hle := pagesOf_mono (Nat.le_of_not_lt hge)
    have hup : pagesOf newsz ≤ UPAGES := pagesOf_le (Nat.le_of_not_le hlt)
    have hloop := Sandbox.allocuvmLoop oldsz newsz h
      (show pagesOf oldsz + (pagesOf newsz - pagesOf oldsz) ≤ UPAGES by omega)
    rw [show pagesOf oldsz * PGSIZE = PGROUNDUP oldsz by
      simp only [pagesOf, PGROUNDUP, PGSIZE]; omega] at hloop
    refine wp_conseq hloop ?_
    rintro r s' ⟨rfl, own', h', hleaves⟩
    rw [show pagesOf oldsz + (pagesOf r - pagesOf oldsz) = pagesOf r by omega] at h'
    exact ⟨r, ⟨Nat.le_of_not_lt hge, ⟨own', h'⟩, hleaves⟩, fun _ => ⟨rfl, Nat.le_refl r⟩⟩

/-! ### Filling the image -/

/-- The page behind an entry among the first `n`. -/
theorem Sandbox.page (h : Sandbox P own d n s) (hv : v < n) (hslot : pteSlot s d v = some ptr) :
    own (frameOf (pteAt s ptr)) = .held ∧ ¬ P (frameOf (pteAt s ptr)) := by
  grind [h.pages, pteOf_of_slot]

theorem Sandbox.loaduvmLoop {ip : File} {addr offset sz left : Nat} :
    ∀ {i : Nat} {s : Kernel}, Sandbox P own d n s → (addr + i) / PGSIZE + left ≤ n →
      wp (loaduvmLoop d addr ip offset sz left i) s (fun _ s' => Sandbox P own d n s' ∧
        LeavesPages P 0 s s') fun _ => True := by
  induction left with
  | zero =>
    intro i s h _
    exact ⟨h, LeavesPages.refl s⟩
  | succ left ih =>
    intro i s h hle
    have hv : (addr + i) / PGSIZE < n := by omega
    have hva : addr + i < 2 ^ 32 := by grind [h.bound, UPAGES, KERNBASE, PGSIZE]
    rw [CowPaging.loaduvmLoop, wp_bind,
      wp_walkpgdir h.paged.tables h.paged.frames h.dir hva]
    cases hslot : pteSlot s d ((addr + i) / PGSIZE) with
    | none => trivial
    | some ptr =>
      simp only [wp_bind, wp_loadPte]
      refine wp_ite (fun _ => ?_) fun _ => trivial
      obtain ⟨hown, hnot⟩ := h.page hv hslot
      simp only [wp_bind, wp_modify]
      obtain ⟨h1, hleaves1⟩ : Sandbox P own d n (s.copyIn _ 0 _) ∧ LeavesPages P 0 s (s.copyIn _ 0 _) :=
        h.setPage hown hnot _
      refine wp_ite (fun _ => ⟨h1, hleaves1⟩) fun _ => ?_
      have hnext : (addr + (i + PGSIZE)) / PGSIZE = (addr + i) / PGSIZE + 1 := by
        simp only [PGSIZE]
        omega
      refine wp_conseq (ih h1 (by omega)) ?_
      rintro r s2 ⟨h2, hleaves2⟩
      exact ⟨h2, hleaves1.trans hleaves2⟩

theorem Sandbox.execLoad {ip : File} {left : Nat} : ∀ {off sz : Nat} {s : Kernel} {own : Owners},
    Sandbox P own d (pagesOf sz) s →
    wp (execLoad noEvict d ip left off sz) s (fun r s' => ∃ sz', Enlarged P d sz sz' s s' ∧
      ∀ z, r = some z → z = sz') fun _ => True := by
  induction left with
  | zero =>
    intro off sz s own h
    exact ⟨sz, Enlarged.refl h, fun z hz => (Option.some.inj hz).symm⟩
  | succ left ih =>
    intro off sz s own h
    rw [CowPaging.execLoad]
    have hfail : ∀ {s' : Kernel} {sz' : Nat}, Enlarged P d sz sz' s s' →
        wp (pure none : K (Option Nat)) s' (fun r s' => ∃ sz', Enlarged P d sz sz' s s' ∧
          ∀ z, r = some z → z = sz') fun _ => True :=
      fun hlarge => ⟨_, hlarge, fun z hz => by cases hz⟩
    refine wp_ite (fun _ => hfail (Enlarged.refl h)) fun _ => ?_
    dsimp only
    refine wp_ite (fun _ => ih h) fun _ => wp_ite (fun _ => hfail (Enlarged.refl h)) fun hmem =>
      wp_ite (fun _ => hfail (Enlarged.refl h)) fun _ => ?_
    rw [wp_bind]
    refine wp_conseq h.allocuvm ?_
    rintro r s1 ⟨sz1, hlarge, hr⟩
    refine wp_ite (fun _ => hfail hlarge) fun hne => wp_ite (fun _ => hfail hlarge) fun haligned => ?_
    obtain ⟨rfl, hnew⟩ := hr hne
    obtain ⟨own1, h1⟩ := hlarge.sandbox
    rw [wp_bind, loaduvm, if_neg haligned]
    refine wp_conseq (h1.loaduvmLoop ?_) ?_
    · simp only [pagesOf, PGROUNDUP, PGSIZE] at haligned ⊢
      omega
    · rintro c s2 ⟨h2, hleaves⟩
      have hlarge2 : Enlarged P d sz r s s2 :=
        ⟨hlarge.mono, ⟨own1, h2⟩, hlarge.leaves.trans hleaves⟩
      refine wp_ite (fun _ => hfail hlarge2) fun _ => ?_
      refine wp_conseq (ih h2) ?_
      rintro r' s3 ⟨sz3, hlarge3, hr'⟩
      exact ⟨sz3, hlarge2.trans hlarge3, hr'⟩

/-! ### The stack -/

theorem Sandbox.clearpteu (h : Sandbox P own d n s) (hv : va / PGSIZE < n) :
    wp (clearpteu d va) s (fun _ s' => Sandbox P own d n s' ∧ LeavesPages P 0 s s')
      fun _ => True := by
  have hup := Nat.lt_of_lt_of_le hv h.bound
  have hva : va < 2 ^ 32 := by
    have hlt := upages_lt hup
    simp only [PGSIZE] at hlt
    omega
  rw [CowPaging.clearpteu, wp_bind, wp_walkpgdir h.paged.tables h.paged.frames h.dir hva]
  cases hslot : pteSlot s d (va / PGSIZE) with
  | none => trivial
  | some ptr =>
    simp only [wp_bind, wp_loadPte]
    have hframe : frameOf (pteAt s ptr &&& ~~~PTE_U) = frameOf (pteAt s ptr) := by
      apply Nat.eq_of_testBit_eq
      intro i
      rw [testBit_frameOf, testBit_frameOf, clearU_bit _ (by omega)]
    refine h.store (upages_lt hup) hslot (.inl rfl) (fun _ => ?_) fun _ => ?_
    · rw [has_P, clearU_bit _ (by decide), ← has_P, ← entry_of_pte (pteOf_of_slot hslot)]
      exact h.present _ hup
    · rw [hframe]
      exact h.page hv hslot

/-- `copyout` goes through entries that are open to user code. -/
theorem Sandbox.copyoutLoop : ∀ {turns va : Nat} {buf : List Byte} {s : Kernel},
    Sandbox P own d n s → va < 2 ^ 32 →
    wp (copyoutLoop d turns va buf) s (fun _ s' => Sandbox P own d n s' ∧ LeavesPages P 0 s s')
      fun _ => True := by
  intro turns
  induction turns with
  | zero =>
    intro va buf s h _
    cases buf with
    | nil => exact ⟨h, LeavesPages.refl s⟩
    | cons b buf => trivial
  | succ turns ih =>
    intro va buf s h hva
    cases buf with
    | nil => exact ⟨h, LeavesPages.refl s⟩
    | cons b buf =>
      rw [copyoutLoop_cons, wp_bind, uva2ka, wp_bind]
      have hva0 : PGROUNDDOWN va < 2 ^ 32 := by
        simp only [PGROUNDDOWN, PGSIZE]
        omega
      rw [wp_walkpgdir h.paged.tables h.paged.frames h.dir hva0]
      cases hslot : pteSlot s d (PGROUNDDOWN va / PGSIZE) with
      | none => trivial
      | some ptr =>
        simp only [nonNull, wp_bind, wp_pure, wp_loadPte]
        refine wp_ite (fun _ => ⟨h, LeavesPages.refl s⟩) fun _ =>
          wp_ite (fun _ => ⟨h, LeavesPages.refl s⟩) fun hU => ?_
        rw [wp_pure]
        refine wp_ite (fun _ => ?_) fun _ => trivial
        obtain ⟨hown, hnot⟩ := h.user (PGROUNDDOWN va / PGSIZE) _
          (by simp only [PGSIZE] at *; omega) (pteOf_of_slot hslot) (by simpa using hU)
        simp only [wp_bind, wp_modify]
        obtain ⟨h1, hleaves1⟩ : Sandbox P own d n (s.copyIn _ _ _) ∧ LeavesPages P 0 s (s.copyIn _ _ _) :=
          h.setPage hown hnot _
        refine wp_conseq (ih h1 (Nat.mod_lt _ (by decide))) ?_
        rintro r s2 ⟨h2, hleaves2⟩
        exact ⟨h2, hleaves1.trans hleaves2⟩

theorem Sandbox.pushArgs {argv : List (List Byte)} : ∀ {sp : Nat} {ustack : List Nat} {s : Kernel},
    Sandbox P own d n s →
    wp (pushArgs d argv sp ustack) s (fun _ s' => Sandbox P own d n s' ∧ LeavesPages P 0 s s')
      fun _ => True := by
  induction argv with
  | nil =>
    intro sp ustack s h
    exact ⟨h, LeavesPages.refl s⟩
  | cons arg rest ih =>
    intro sp ustack s h
    rw [CowPaging.pushArgs]
    refine wp_ite (fun _ => ⟨h, LeavesPages.refl s⟩) fun _ => ?_
    dsimp only
    rw [wp_bind]
    refine wp_conseq (h.copyoutLoop (by omega)) ?_
    rintro r s1 ⟨h1, hleaves1⟩
    refine wp_ite (fun _ => ⟨h1, hleaves1⟩) fun _ => ?_
    refine wp_conseq (ih h1) ?_
    rintro r s2 ⟨h2, hleaves2⟩
    exact ⟨h2, hleaves1.trans hleaves2⟩

theorem Sandbox.execStack {argv : List (List Byte)} {sz : Nat} (h : Sandbox P own d (pagesOf sz) s) :
    wp (execStack noEvict d sz argv) s (fun r s' => ∃ sz', Enlarged P d sz sz' s s' ∧
      ∀ z sp, r = some (z, sp) → z = sz') fun _ => True := by
  have hround : pagesOf (PGROUNDUP sz) = pagesOf sz := by
    simp only [pagesOf, PGROUNDUP, PGSIZE]
    omega
  have hup : Enlarged P d sz (PGROUNDUP sz) s s := by
    refine ⟨?_, ⟨own, by rw [hround]; exact h⟩, ?_⟩
    · simp only [PGROUNDUP, PGSIZE]
      omega
    · rw [hround, Nat.sub_self]
      exact LeavesPages.refl s
  obtain ⟨own', h'⟩ := hup.sandbox
  unfold CowPaging.execStack
  simp only [wp_bind]
  generalize hn : PGROUNDUP sz + 2 * PGSIZE = newsz
  refine wp_conseq h'.allocuvm ?_
  rintro r s1 ⟨sz1, hlarge, hr⟩
  have hlarge1 := hup.trans hlarge
  refine wp_ite (fun _ => ⟨sz1, hlarge1, fun z sp hz => by cases hz⟩) fun hne => ?_
  obtain ⟨rfl, -⟩ := hr hne
  obtain ⟨own1, h1⟩ := hlarge1.sandbox
  -- from here on the size does not change
  have hdone : ∀ {s' : Kernel} {res : Option (Nat × Nat)}, Sandbox P own1 d (pagesOf r) s' →
      LeavesPages P 0 s1 s' → (∀ z sp, res = some (z, sp) → z = r) →
      ∃ sz', Enlarged P d sz sz' s s' ∧ ∀ z sp, res = some (z, sp) → z = sz' :=
    fun hs hleaves hres => ⟨r, ⟨hlarge1.mono, ⟨own1, hs⟩, hlarge1.leaves.trans hleaves⟩, hres⟩
  simp only [wp_bind]
  refine wp_conseq (h1.clearpteu ?_) ?_
  · simp only [pagesOf, PGROUNDUP, PGSIZE]
    omega
  rintro - s2 ⟨h2, hleaves2⟩
  refine wp_conseq h2.pushArgs ?_
  rintro (_ | ⟨sp, args⟩) s3 ⟨h3, hleaves3⟩
  · exact hdone h3 (hleaves2.trans hleaves3) fun z sp hz => by cases hz
  · simp only [wp_bind]
    refine wp_conseq (h3.copyoutLoop (Nat.mod_lt _ (by decide))) ?_
    rintro c s4 ⟨h4, hleaves4⟩
    have hleaves := (hleaves2.trans hleaves3).trans hleaves4
    refine wp_ite (fun _ => hdone h4 hleaves fun z sp hz => by cases hz) fun _ =>
      hdone h4 hleaves fun z sp hz => ?_
    exact (Prod.mk.inj (Option.some.inj hz)).1.symm

end CowPaging
