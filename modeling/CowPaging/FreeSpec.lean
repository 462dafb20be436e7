import CowPaging.GrowSpec

/-!
# Taking address spaces apart

`deallocuvm` unmaps pages of a directory that no process is attached to while it
runs, and frees those that nobody else maps; `freevm` then frees the tables and
the directory. Every page that is not freed keeps its role and its bytes.
-/

namespace CowPaging

open Bytes StateExcept SlotTable
open Function (update_of_ne update_self update)

variable {own own' : Owners} {att : Attach} {s s' : Kernel} {d v : Nat} {ptr : PtePtr}

/-! ### Unmapping pages of one directory -/

/-- Some entries of `d` in `X` were cleared, and user pages that lost their last
    mapping were freed. -/
structure Unmaps (own own' : Owners) (d : Nat) (X : Nat → Prop) (s s' : Kernel) : Prop where
  procs : SameProcs s s'
  slots : s'.swaparray = s.swaparray
  disk : s'.disk = s.disk
  roles : ∀ f, own' f = own f ∨ (own f = .user ∧ own' f = .free)
  mem : ∀ f, own' f ≠ .free → (∀ i, own f ≠ .tab d i) → s'.mem f = s.mem f
  pte : ∀ v, v < 2 ^ 20 → pteOf s' d v = pteOf s d v ∨ (X v ∧ pteOf s' d v = some 0)

theorem Unmaps.refl (own : Owners) (d : Nat) (X : Nat → Prop) (s : Kernel) :
    Unmaps own own d X s s :=
  ⟨SameProcs.refl s, rfl, rfl, fun _ => .inl rfl, fun _ _ _ => rfl, fun _ _ => .inl rfl⟩

theorem Unmaps.same {X : Nat → Prop} (h : Unmaps own own' d X s s') {f : Nat}
    (hf : own f ≠ .user) : own' f = own f :=
  (h.roles f).resolve_right fun hr => hf hr.1

theorem Unmaps.sameKernel {X : Nat → Prop} (h : Unmaps own own' d X s s') :
    SameKernel own own' := by
  rintro f (hf | hf)
  · refine h.same fun hu => ?_
    rw [hu] at hf
    exact hf
  · rcases h.roles f with hr | ⟨-, hfree⟩
    · exact hr
    · rw [hfree] at hf
      exact hf.elim

theorem Unmaps.held {X : Nat → Prop} (h : Unmaps own own' d X s s') {f : Nat}
    (hf : own f = .held) : s'.mem f = s.mem f := by grind [h.mem, h.same]

theorem Unmaps.trans {own1 own2 : Owners} {X : Nat → Prop} {s1 s2 : Kernel}
    (h : Unmaps own own1 d X s s1) (h' : Unmaps own1 own2 d X s1 s2) :
    Unmaps own own2 d X s s2 where
  procs := h.procs.trans h'.procs
  slots := h'.slots.trans h.slots
  disk := h'.disk.trans h.disk
  roles f := by
    rcases h.roles f with h1 | ⟨hu, hf⟩
    · grind [h'.roles]
    · grind [h'.roles]
  mem f hfree htab := by
    have h1 : own1 f ≠ .free := by grind [h'.roles]
    have htab1 : ∀ i, own1 f ≠ .tab d i := by grind [h.roles]
    rw [h'.mem f hfree htab1, h.mem f h1 htab]
  pte v hv := by
    rcases h'.pte v hv with h2 | h2
    · rw [h2]
      exact h.pte v hv
    · exact .inr h2

theorem Unmaps.mono {X Y : Nat → Prop} (h : Unmaps own own' d X s s')
    (hXY : ∀ v, v < 2 ^ 20 → X v → Y v) : Unmaps own own' d Y s s' :=
  ⟨h.procs, h.slots, h.disk, h.roles, h.mem, fun v hv =>
    (h.pte v hv).imp id fun hx => ⟨hXY v hv hx.1, hx.2⟩⟩

section

variable [KernelImage] {mode : Mode} {E : Halt → Prop}

omit [KernelImage] in
theorem Unmaps.slot {X : Nat → Prop} (h : Unmaps own own' d X s s') (hd : own d = .dir) (v : Nat) :
    pteSlot s' d v = pteSlot s d v := by grind [h.same, h.mem, pteSlot_congr, tableOf]

theorem Inv.frame_ne_zero (h : Inv mode own att s) {f : Nat} (hf : own f ≠ .unmanaged) : f ≠ 0 := by
  have hrange := (h.frames.range f hf).1
  have hdata := KernelImage.data_le
  have htext : 0 < KernelImage.dataPage := Nat.lt_of_le_of_lt (Nat.zero_le _) KernelImage.text_pos
  omega

theorem Inv.unmapped {r : Rmap} (h : Inv mode own att s) (hd : own d = .dir) (hv : v < UPAGES)
    (hslot : pteSlot s d v = some ptr) (hdet : ∀ p z, att p ≠ some (d, z))
    (hp : has (pteAt s ptr) PTE_P = true)
    (hlist : r.Lists (mappers own s (frameOf (pteAt s ptr)) \ {ptr}))
    (hcount : r.refcount = (s.rmap (frameOf (pteAt s ptr))).refcount - 1)
    (hprocs : SameProcs s s') (hslots : s'.swaparray = s.swaparray) (hdisk : s'.disk = s.disk)
    (hrmap : s'.rmap = update s.rmap (frameOf (pteAt s ptr)) r)
    (hmem : ∀ f, f ≠ ptr.table → own' f ≠ .free → s'.mem f = s.mem f)
    (htab : s'.mem ptr.table = stw (s.mem ptr.table) ptr.index 0)
    (hcase : (r.refcount = 0 ∧ own' = update own (frameOf (pteAt s ptr)) .free ∧
        s'.freelist = frameOf (pteAt s ptr) :: s.freelist) ∨
      (r.refcount ≠ 0 ∧ own' = own ∧ s'.freelist = s.freelist)) :
    Inv mode own' att s' ∧ Unmaps own own' d (fun u => u = v) s s' ∧
      has (entry s' d v) PTE_P = false := by
  have hv20 := upages_lt hv
  have hpte := pteOf_of_slot hslot
  have hu : Upte own s d v (pteAt s ptr) := ⟨hd, hv, hpte⟩
  have huser := (h.maps.user d v _ hu hp).1
  have howner := h.tables.slot_owner hd hv20 hslot
  have hroles : ∀ f, own' f = own f ∨ (own f = .user ∧ own' f = .free) := by
    intro f
    rcases hcase with ⟨-, rfl, -⟩ | ⟨-, rfl, -⟩
    · by_cases hf : f = frameOf (pteAt s ptr)
      · subst hf
        exact .inr ⟨huser, update_self _ _ _⟩
      · exact .inl (update_of_ne hf _ _)
    · exact .inl rfl
  have hkept : ∀ f, own f ≠ .user → own f ≠ .free → own' f ≠ .free := by
    intro f hfu hff hfree
    rcases hroles f with h' | ⟨h', -⟩
    · exact hff (h' ▸ hfree)
    · exact hfu h'
  have hst : PteStore own d v 0 s s' := by
    refine pteStore_of_mem h.tables hd hv20 hslot fun f hf => ?_
    by_cases hft : f = ptr.table
    · subst hft
      simp only [Kernel.storeWord, Kernel.setPage, update_self, htab]
    · have hmap : own' f ≠ .free := by
        refine hkept f ?_ ?_ <;> intro heq <;> rw [heq] at hf <;> exact hf
      simp only [Kernel.storeWord, Kernel.setPage, update_of_ne hft, hmem f hft hmap]
  have hzero : pteOf s' d v = some 0 := by rw [hst.pte d v hd hv20, if_pos ⟨rfl, rfl⟩]
  refine ⟨h.unmap hst hslots hprocs hu hslot hp hdet hlist hcount hrmap hcase,
    ⟨hprocs, hslots, hdisk, hroles, ?_, ?_⟩, by rw [entry_of_pte hzero, has_zero]⟩
  · intro f hfree hnt
    refine hmem f ?_ hfree
    rintro rfl
    exact hnt _ howner
  · intro u hu20
    by_cases huv : u = v
    · subst huv
      exact .inr ⟨rfl, hzero⟩
    · left
      rw [hst.pte d u hd hu20, if_neg fun heq => huv heq.2]

theorem unmapPte_spec (h : Inv mode own att s) (hd : own d = .dir) (hv : v < UPAGES)
    (hslot : pteSlot s d v = some ptr) (hdet : ∀ p z, att p ≠ some (d, z)) (p : Nat) :
    wp (unmapPte p ptr) s (fun _ s' => ∃ own', Inv mode own' att s' ∧
      Unmaps own own' d (fun u => u = v ∧ has (entry s d u) PTE_P = true) s s' ∧
      has (entry s' d v) PTE_P = false) E := by
  have hpte := pteOf_of_slot hslot
  unfold unmapPte
  rw [wp_bind, wp_loadPte]
  by_cases hp : has (pteAt s ptr) PTE_P = true
  swap
  · rw [if_neg hp]
    refine ⟨own, h, Unmaps.refl own d _ s, ?_⟩
    rw [entry_of_pte hpte]
    exact Bool.eq_false_of_not_eq_true hp
  have hu : Upte own s d v (pteAt s ptr) := ⟨hd, hv, hpte⟩
  have huser := (h.maps.user d v _ hu hp).1
  have hlt := h.frame_lt hu hp
  have howner := h.tables.slot_owner hd (upages_lt hv) hslot
  have hne : ptr.table ≠ frameOf (pteAt s ptr) := by grind
  rw [if_pos hp, if_neg (h.frame_ne_zero (by rw [huser]; simp)), wp_bind]
  obtain ⟨r, hdec, hlist, hcount⟩ :=
    decSharing_eq hlt (h.maps.exact _ hlt) (hu.mem_mappers hp hslot)
  rw [wp_of_ok hdec]
  have hrss : ∀ pr : Proc, (if pr.rss > 0 then
      { pr with rss := (pr.rss + (2 ^ 32 - PGSIZE)) % 2 ^ 32 } else pr) =
      { pr with rss := (if pr.rss > 0 then
        { pr with rss := (pr.rss + (2 ^ 32 - PGSIZE)) % 2 ^ 32 } else pr).rss } := by
    intro pr
    split <;> rfl
  have hprocs : ∀ t : Kernel, SameProcs s t → SameProcs s
      ((t.setProc p fun pr => if pr.rss > 0 then
        { pr with rss := (pr.rss + (2 ^ 32 - PGSIZE)) % 2 ^ 32 } else pr).storeWord
          ptr.table ptr.index 0) :=
    fun t ht => (ht.trans (sameProcs_setRss t p hrss)).trans (sameRest_storeWord _ _ _ _).procs
  -- the entry that is dropped was present
  have honly : ∀ {own' : Owners} {t : Kernel}, Inv mode own' att t ∧
      Unmaps own own' d (fun u => u = v) s t ∧ has (entry t d v) PTE_P = false →
      Inv mode own' att t ∧ Unmaps own own' d (fun u => u = v ∧ has (entry s d u) PTE_P = true) s t ∧
        has (entry t d v) PTE_P = false := by
    rintro own' t ⟨hinv, hun, habs⟩
    refine ⟨hinv, hun.mono ?_, habs⟩
    rintro u - rfl
    rw [entry_of_pte hpte]
    exact ⟨rfl, hp⟩
  by_cases hzero : r.refcount = 0
  · have hfree := kfree_eq (s := s.setRmap (frameOf (pteAt s ptr)) r) (f := frameOf (pteAt s ptr))
      (h.frames.congr rfl) (by rw [huser]; simp)
    simp only [hzero, beq_self_eq_true, if_true, wp_bind]
    rw [wp_of_ok hfree]
    refine ⟨update own (frameOf (pteAt s ptr)) .free, honly ?_⟩
    refine h.unmapped hd hv hslot hdet hp hlist hcount (hprocs _ ⟨fun _ => rfl, rfl, rfl, rfl⟩) rfl
      rfl rfl ?_ ?_ (.inl ⟨hzero, rfl, rfl⟩)
    · intro f hft hff
      have hfn : f ≠ frameOf (pteAt s ptr) := by
        rintro rfl
        exact hff (update_self _ _ _)
      exact (update_of_ne hft _ _).trans (update_of_ne hfn _ _)
    · refine (update_self _ _ _).trans ?_
      exact congrArg (fun m => stw m ptr.index 0) (update_of_ne hne _ _)
  · have hbeq : (r.refcount == 0) = false := by simpa using hzero
    simp only [hbeq, Bool.false_eq_true, if_false, wp_bind]
    refine ⟨own, honly (h.unmapped hd hv hslot hdet hp hlist hcount
      (hprocs _ ⟨fun _ => rfl, rfl, rfl, rfl⟩) rfl rfl rfl ?_ (update_self _ _ _)
      (.inr ⟨hzero, rfl, rfl⟩))⟩
    intro f hft _
    exact update_of_ne hft _ _

omit [KernelImage] in
theorem lt_pagesOf {v sz : Nat} : v * PGSIZE < sz ↔ v < pagesOf sz := mul_lt_iff_lt_roundup

/-- The loop of `deallocuvm` from page `v` on. -/
theorem deallocuvmLoop_spec {p oldsz : Nat} (hold : oldsz ≤ KERNBASE)
    (hdet : ∀ p z, att p ≠ some (d, z)) {turns : Nat} :
    ∀ {s : Kernel} {own : Owners} {v : Nat}, Inv mode own att s → own d = .dir →
      pagesOf oldsz ≤ v + turns →
      wp (deallocuvmLoop d p oldsz turns (v * PGSIZE)) s (fun _ s' => ∃ own',
        Inv mode own' att s' ∧
        Unmaps own own' d (fun u => v ≤ u ∧ has (entry s d u) PTE_P = true) s s' ∧
        ∀ u, v ≤ u → u < pagesOf oldsz → has (entry s' d u) PTE_P = false) E := by
  have hup : pagesOf oldsz ≤ UPAGES := by
    simp only [pagesOf, PGROUNDUP, PGSIZE, UPAGES, KERNBASE] at hold ⊢
    omega
  induction turns with
  | zero =>
    intro s own v h hd hle
    rw [deallocuvmLoop, if_neg (fun hlt => by rw [lt_pagesOf] at hlt; omega)]
    exact ⟨own, h, Unmaps.refl own d _ s, fun u hu hlt => by omega⟩
  | succ turns ih =>
    intro s own v h hd hle
    rw [deallocuvmLoop]
    by_cases hlt : v * PGSIZE < oldsz
    swap
    · rw [if_neg hlt]
      rw [lt_pagesOf] at hlt
      exact ⟨own, h, Unmaps.refl own d _ s, fun u hu hlt => by omega⟩
    rw [if_pos hlt]
    rw [lt_pagesOf] at hlt
    have hv20 : v < 2 ^ 20 := upages_lt (by omega)
    rw [wp_bind, h.walk hd (mul_PGSIZE_lt hv20), mul_PGSIZE_div]
    cases hslot : pteSlot s d v with
    | none =>
      -- the whole table is missing: go on with the next one
      have hnext : PGADDR (PDX (v * PGSIZE) + 1) 0 0 = (v / 1024 + 1) * 1024 * PGSIZE := by
        rw [PDX_eq (mul_PGSIZE_lt hv20), mul_PGSIZE_div]
        simp only [PGADDR, PGSIZE]
        omega
      rw [hnext]
      refine wp_conseq (ih h hd (by omega)) ?_
      rintro - s' ⟨own', h', hun, habs⟩
      refine ⟨own', h', hun.mono fun u _ hu => ⟨by omega, hu.2⟩, fun u hu hlt' => ?_⟩
      by_cases hnear : (v / 1024 + 1) * 1024 ≤ u
      · exact habs u hnear hlt'
      · have hnone : pteOf s d u = none := by
          rw [pteOf_none_iff, show u / 1024 = v / 1024 by omega]
          exact Option.map_eq_none_iff.1 hslot
        rcases hun.pte u (by omega) with hsame | ⟨hX, -⟩
        · rw [entry_of_none (hsame.trans hnone), has_zero]
        · exact (hnear hX.1).elim
    | some ptr =>
      rw [wp_bind]
      refine wp_conseq (unmapPte_spec h hd (by omega) hslot hdet p) ?_
      rintro - s1 ⟨own1, h1, hun1, habs1⟩
      have hd1 : own1 d = .dir := by rw [hun1.same (by rw [hd]; simp), hd]
      rw [← Nat.succ_mul]
      refine wp_conseq (ih h1 hd1 (by omega)) ?_
      rintro - s' ⟨own', h', hun, habs⟩
      refine ⟨own', h', (hun1.mono ?_).trans (hun.mono ?_), fun u hu hlt' => ?_⟩
      · grind
      · -- the entries above `v` are as they were
        rintro u hu20 ⟨hu, hp⟩
        refine ⟨by omega, ?_⟩
        rcases hun1.pte u hu20 with hsame | ⟨hX, -⟩
        · rwa [entry, ← hsame]
        · omega
      by_cases huv : u = v
      · subst huv
        rcases hun.pte u hv20 with hsame | ⟨-, hzero⟩
        · rw [entry, hsame, ← entry, habs1]
        · rw [entry_of_pte hzero, has_zero]
      · exact habs u (by omega) hlt'

/-! ### Freeing the tables -/

/-- Roles while `freevm` frees the tables of `d`: those below index `i` are free,
    the others and the directory are held. -/
def tablesFreed (own : Owners) (d i : Nat) : Owners := fun f =>
  match own f with
  | .tab e j => if e = d then (if j < i then .free else .held) else .tab e j
  | o => if f = d then .held else o

omit [KernelImage] in
theorem tablesFreed_zero (hd : own d = .dir) : tablesFreed own d 0 = dropDir own d := by
  grind [tablesFreed, dropDir]

omit [KernelImage] in
theorem tablesFreed_dir {i : Nat} (hd : own d = .dir) : tablesFreed own d i d = .held := by
  simp [tablesFreed, hd]

omit [KernelImage] in
theorem tablesFreed_succ_of_none (hT : TableInv own s) (hd : own d = .dir) {i : Nat}
    (hi : i < 1024) (hnone : tableOf s d i = none) :
    tablesFreed own d (i + 1) = tablesFreed own d i := by
  funext f
  unfold tablesFreed
  cases h : own f with
  | tab e j =>
    by_cases he : e = d
    · subst he
      have hji : j ≠ i := by
        rintro rfl
        rw [(hT.tab_iff e j f hd hi).2 h] at hnone
        exact Option.some_ne_none _ hnone
      by_cases hj : j < i
      · simp [hj, Nat.lt_succ_of_lt hj]
      · simp [hj, show ¬ j < i + 1 by omega]
    · simp [he]
  | _ => rfl

omit [KernelImage] in
theorem tablesFreed_succ_of_some (hT : TableInv own s) (hd : own d = .dir) {i t : Nat}
    (hi : i < 1024) (hsome : tableOf s d i = some t) :
    tablesFreed own d (i + 1) = update (tablesFreed own d i) t .free := by
  have ht := (hT.tab_iff d i t hd hi).1 hsome
  funext f
  by_cases hf : f = t
  · subst hf
    rw [update_self]
    simp [tablesFreed, ht]
  · rw [update_of_ne hf]
    unfold tablesFreed
    cases h : own f with
    | tab e j =>
      by_cases he : e = d
      · subst he
        have hji : j ≠ i := by
          rintro rfl
          rw [(hT.tab_iff e j f hd hi).2 h] at hsome
          exact hf (Option.some.inj hsome)
        by_cases hj : j < i
        · simp [hj, Nat.lt_succ_of_lt hj]
        · simp [hj, show ¬ j < i + 1 by omega]
      · simp [he]
    | _ => rfl

/-- Pages that are not free keep their bytes; slots, disk and processes are the
    same. -/
structure OnlyFreed (own : Owners) (s s' : Kernel) : Prop where
  procs : SameProcs s s'
  slots : s'.swaparray = s.swaparray
  disk : s'.disk = s.disk
  mem : ∀ f, own f ≠ .free → s'.mem f = s.mem f

omit [KernelImage] in
/-- One `kfree` of a held page. -/
theorem onlyFreed_freed {own1 : Owners} {f : Nat} {s1 : Kernel} (h : OnlyFreed own1 s s1)
    (hmono : ∀ g, own' g ≠ .free → own1 g ≠ .free) (hf : own' f = .free) :
    OnlyFreed own' s (s1.freed f) := by
  refine ⟨h.procs.trans ⟨fun _ => rfl, rfl, rfl, rfl⟩, h.slots, h.disk, fun g hg => ?_⟩
  have hne : g ≠ f := by
    rintro rfl
    exact hg hf
  rw [← h.mem g (hmono g hg)]
  exact update_of_ne hne _ _

theorem freeTables_spec (h : Inv mode (dropDir own d) att s) (hT : TableInv own s)
    (hd : own d = .dir) :
    wp (freeTables d) s (fun _ s' => Inv mode (tablesFreed own d 1024) att s' ∧
      OnlyFreed (tablesFreed own d 1024) s s') E := by
  unfold freeTables
  refine wp_loopFrom (fun i s' => Inv mode (tablesFreed own d i) att s' ∧
    OnlyFreed (tablesFreed own d i) s s') ?_ ?_
  · rintro i s1 - hi ⟨h1, honly⟩
    have hi' : i < 1024 := by simpa [NPDENTRIES] using hi
    have hmemd : s1.mem d = s.mem d := honly.mem d (by rw [tablesFreed_dir hd]; simp)
    simp only [wp_bind, wp_get, hmemd]
    by_cases hp : has (ldw (s.mem d) i) PTE_P = true
    · have hsome : tableOf s d i = some (frameOf (ldw (s.mem d) i)) := by rw [tableOf, if_pos hp]
      have ht := (hT.tab_iff d i _ hd hi').1 hsome
      have hheld : tablesFreed own d i (frameOf (ldw (s.mem d) i)) = .held := by
        simp [tablesFreed, ht]
      rw [if_pos hp, wp_of_ok (kfree_eq h1.frames (by rw [hheld]; simp)),
        tablesFreed_succ_of_some hT hd hi' hsome]
      refine ⟨h1.freed (by rw [hheld]; trivial) (by rw [hheld]; simp) (by rw [hheld]; simp),
        onlyFreed_freed honly ?_ (update_self _ _ _)⟩
      intro g hg hfree
      by_cases hgt : g = frameOf (ldw (s.mem d) i)
      · grind
      · grind
    · have hnone : tableOf s d i = none := by rw [tableOf, if_neg hp]
      rw [if_neg hp, tablesFreed_succ_of_none hT hd hi' hnone]
      exact ⟨h1, honly⟩
  · rw [tablesFreed_zero hd]
    exact ⟨h, SameProcs.refl s, rfl, rfl, fun _ _ => rfl⟩

/-! ### `freevm` -/

/-- Directory `d`, its tables and the pages only it mapped are free; every page
    that is not free keeps its role and its bytes. -/
structure FreedSpace (own own' : Owners) (d : Nat) (s s' : Kernel) : Prop where
  only : OnlyFreed own' s s'
  roles : ∀ f, own' f ≠ .free → own' f = own f
  stays : ∀ f, own f ≠ .user → f ≠ d → (∀ i, own f ≠ .tab d i) → own' f = own f
  gone : own' d = .free

theorem freevm2_spec (h : Inv mode own att s) (hd : own d = .dir)
    (hdet : ∀ p z, att p ≠ some (d, z)) (p : Nat) :
    wp (freevm2 d p) s (fun _ s' => ∃ own', Inv mode own' att s' ∧
      FreedSpace own own' d s s') E := by
  unfold freevm2 deallocuvm2
  have hpages : pagesOf KERNBASE = UPAGES := by decide
  rw [if_neg (by decide), show PGROUNDUP 0 = 0 * PGSIZE by decide, wp_bind, wp_bind]
  refine wp_conseq (deallocuvmLoop_spec (Nat.le_refl _) hdet h hd (by omega)) ?_
  rintro - s1 ⟨own1, h1, hun, habs⟩
  have hd1 : own1 d = .dir := by rw [hun.same (by rw [hd]; simp), hd]
  have hdrop := h1.dropDir hd1 (fun u w hu => by
    rw [← entry_of_pte hu.2.2]
    exact habs u (Nat.zero_le u) (by rw [hpages]; exact hu.2.1)) hdet
  rw [wp_pure, wp_bind]
  refine wp_conseq (freeTables_spec hdrop h1.tables hd1) ?_
  rintro - s2 ⟨h2, honly⟩
  have hheld : tablesFreed own1 d 1024 d = .held := tablesFreed_dir hd1
  rw [wp_of_ok (kfree_eq h2.frames (by rw [hheld]; simp))]
  have hroles : ∀ f, update (tablesFreed own1 d 1024) d .free f ≠ .free →
      own1 f = update (tablesFreed own1 d 1024) d .free f ∧ f ≠ d ∧
        ∀ i, own1 f ≠ .tab d i := by
    intro f hf
    have hne : f ≠ d := by grind
    rw [update_of_ne hne] at hf ⊢
    unfold tablesFreed at hf ⊢
    cases ho : own1 f with
    | tab e j =>
      have hj := (h1.tables.tab_dir e j f ho).2
      by_cases he : e = d
      · simp [ho, he, hj] at hf
      · simp [he, hne]
    | _ => simp [hne]
  refine ⟨_, h2.freed (by rw [hheld]; trivial) (by rw [hheld]; simp) (by rw [hheld]; simp),
    ⟨?_, ?_, ?_, update_self _ _ _⟩⟩
  · have honly' : OnlyFreed (update (tablesFreed own1 d 1024) d .free) s1
        (s2.freed d) := by grind [onlyFreed_freed, Function.update_apply]
    refine ⟨hun.procs.trans honly'.procs, honly'.slots.trans hun.slots,
      honly'.disk.trans hun.disk, fun f hf => ?_⟩
    obtain ⟨heq, -, htab⟩ := hroles f hf
    rw [honly'.mem f hf]
    refine hun.mem f (by rw [heq]; exact hf) fun i hi => ?_
    rcases hun.roles f with hr | ⟨hr, -⟩
    · exact htab i (hr.trans hi)
    · grind
  · grind [hun.roles]
  · intro f huser hne htab
    have hsame := hun.same huser
    rw [update_of_ne hne, ← hsame]
    unfold tablesFreed
    cases ho : own1 f with
    | tab e j => grind
    | _ => simp [hne]

theorem freevm_spec (h : Inv mode own att s) (hd : own d = .dir)
    (hdet : ∀ p z, att p ≠ some (d, z)) :
    wp (freevm d) s (fun _ s' => ∃ own', Inv mode own' att s' ∧
      FreedSpace own own' d s s') E := by
  unfold freevm
  rw [wp_bind, wp_get]
  exact freevm2_spec h hd hdet _

/-! ### Other address spaces -/

omit [KernelImage] in
theorem TableInv.pte_congr {e : Nat} (hT : TableInv own s) (he : own e = .dir)
    (hv : v < 2 ^ 20) (hdir : s'.mem e = s.mem e)
    (htab : ∀ t i, own t = .tab e i → s'.mem t = s.mem t) : pteOf s' e v = pteOf s e v := by
  have htable : tableOf s' e (v / 1024) = tableOf s e (v / 1024) := by
    rw [tableOf, tableOf, hdir]
  cases hs : pteSlot s e v with
  | none => rw [pteOf, pteOf, pteSlot_congr htable, hs]; rfl
  | some q =>
    rw [pteOf_of_slot hs, pteOf_of_slot ((pteSlot_congr htable).trans hs), pteAt, pteAt,
      htab q.table _ (hT.slot_owner he hv hs)]

omit [KernelImage] in
theorem FreedSpace.kept {f : Nat} (hfs : FreedSpace own own' d s s') (hf : own f ≠ .user)
    (hfree : own f ≠ .free) (hne : f ≠ d) (htab : ∀ i, own f ≠ .tab d i) :
    own' f = own f ∧ s'.mem f = s.mem f := by
  have hsame := hfs.stays f hf hne htab
  exact ⟨hsame, hfs.only.mem f (by rw [hsame]; exact hfree)⟩

omit [KernelImage] in
theorem FreedSpace.sameKernel (hfs : FreedSpace own own' d s s') (hd : own d = .dir) :
    SameKernel own own' := by
  rintro f (hf | hf)
  · refine hfs.stays f ?_ ?_ fun i => ?_
    · intro hu
      rw [hu] at hf
      exact hf
    · rintro rfl
      rw [hd] at hf
      exact hf
    · intro ht
      rw [ht] at hf
      exact hf
  · refine hfs.roles f fun hfree => ?_
    rw [hfree] at hf
    exact hf

omit [KernelImage] in
theorem FreedSpace.held {f : Nat} (hfs : FreedSpace own own' d s s') (hd : own d = .dir)
    (hf : own f = .held) : s'.mem f = s.mem f := by
  refine hfs.only.mem f ?_
  rw [hfs.sameKernel hd f (.inl (by rw [hf]; trivial)), hf]
  simp

omit [KernelImage] in
theorem FreedSpace.dir {e : Nat} (hfs : FreedSpace own own' d s s') (he : own e = .dir)
    (hne : e ≠ d) : own' e = .dir ∧ s'.mem e = s.mem e := by grind [hfs.kept]

omit [KernelImage] in
theorem FreedSpace.pte {e : Nat} (hfs : FreedSpace own own' d s s') (hT : TableInv own s)
    (hd : own d = .dir) (he : own e = .dir) (hne : e ≠ d) (hv : v < 2 ^ 20) :
    pteOf s' e v = pteOf s e v := by
  refine hT.pte_congr he hv (hfs.dir he hne).2 fun t i ht => ?_
  have htd : t ≠ d := by grind
  exact (hfs.kept (by rw [ht]; simp) (by rw [ht]; simp) htd (by rw [ht]; simp [hne])).2

theorem FreedSpace.view {e : Nat} (hfs : FreedSpace own own' d s s') (h : Inv mode own att s)
    (h' : Inv mode own' att s') (hd : own d = .dir) (he : own e = .dir) (hne : e ≠ d)
    (hv : v < UPAGES) : view s' e v = view s e v := by
  have hpte := hfs.pte h.tables hd he hne (upages_lt hv)
  refine view_congr hpte (fun w hw hp => ?_) (fun i => by rw [hfs.only.slots]) hfs.only.disk
  have huser := (h'.maps.user e v w ⟨(hfs.dir he hne).1, hv, hpte.trans hw⟩ hp).1
  exact hfs.only.mem _ (by rw [huser]; simp)

omit [KernelImage] in
theorem Unmaps.dir {X : Nat → Prop} {e : Nat} (hun : Unmaps own own' d X s s')
    (he : own e = .dir) : own' e = .dir ∧ s'.mem e = s.mem e := by grind [hun.same, hun.mem]

omit [KernelImage] in
theorem Unmaps.pte_other {X : Nat → Prop} {e : Nat} (hun : Unmaps own own' d X s s')
    (hT : TableInv own s) (he : own e = .dir) (hne : e ≠ d) (hv : v < 2 ^ 20) :
    pteOf s' e v = pteOf s e v := by
  refine hT.pte_congr he hv (hun.dir he).2 fun t i ht => ?_
  have hsame := hun.same (f := t) (by rw [ht]; simp)
  exact hun.mem t (by rw [hsame, ht]; simp) (by rw [ht]; simp [hne])

theorem Unmaps.view {X : Nat → Prop} {e : Nat} (hun : Unmaps own own' d X s s')
    (h' : Inv mode own' att s') (he : own e = .dir) (hv : v < UPAGES)
    (hpte : pteOf s' e v = pteOf s e v) : view s' e v = view s e v := by
  refine view_congr hpte (fun w hw hp => ?_) (fun i => by rw [hun.slots]) hun.disk
  have huser := (h'.maps.user e v w ⟨(hun.dir he).1, hv, hpte.trans hw⟩ hp).1
  refine hun.mem _ (by rw [huser]; simp) fun i hi => ?_
  rcases hun.roles (frameOf w) with hr | ⟨hr, -⟩
  · grind
  · rw [hr] at hi
    cases hi

end

end CowPaging
