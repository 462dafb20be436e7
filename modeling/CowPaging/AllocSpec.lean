import CowPaging.DirSteps

/-!
# The page allocator and the page walk

What `kalloc` does to the invariant, for any eviction routine that keeps its
contract `EvictOk`: it returns a page that is now held, and the rest of the state
drifts. `Supply` is the allocator's side condition: the free list is long enough,
or the eviction routine can be relied on. On top of it, the page walk with and
without allocation, and `mappages`.
-/

namespace CowPaging

open Bytes StateExcept SlotTable
open Function (update_of_ne update_self update_idem update)

/-! ### The contract of the eviction routine -/

theorem wp_popFree_cons {s : Kernel} {E : Halt → Prop} {Q : Option Nat → Kernel → Prop} {f : Nat} {rest : List Nat}
    (h : s.freelist = f :: rest) :
    wp popFree s Q E ↔
      Q (some f) { s with freelist := rest, numFreePages := decr32 s.numFreePages } := by
  simp only [popFree, wp_bind, wp_get, h, wp_set, wp_pure]

theorem wp_popFree_nil {s : Kernel} {E : Halt → Prop} {Q : Option Nat → Kernel → Prop} (h : s.freelist = []) :
    wp popFree s Q E ↔ Q none s := by
  simp only [popFree, wp_bind, wp_get, h, wp_pure]

/-- While pages are free, `kalloc` evicts nothing. -/
theorem kalloc_cons {s : Kernel} {evict : K Unit} {f : Nat} {rest : List Nat}
    (hlist : s.freelist = f :: rest) :
    kalloc evict s =
      .ok (some f, { s with freelist := rest, numFreePages := decr32 s.numFreePages }) := by
  have hwp : wp (kalloc evict) s (fun r s' => r = some f ∧
      s' = { s with freelist := rest, numFreePages := decr32 s.numFreePages })
      fun _ => False := by
    unfold kalloc
    rw [wp_bind, wp_popFree_cons hlist]
    exact ⟨rfl, rfl⟩
  obtain ⟨_, _, hok, rfl, rfl⟩ := exists_ok_of_wp hwp
  exact hok

/-- The pages an eviction may take: memory of processes, and not of the current
    process when `keep` is set. -/
def Victims (keep : Bool) (s : Kernel) (d v : Nat) : Prop :=
  Tracked (attachOf s) d v ∧ (keep = true → d ≠ (s.proc s.cur).pgdir)

theorem SameProcs.victims {s s' : Kernel} (h : SameProcs s s') (keep : Bool) :
    Victims keep s' = Victims keep s := by
  funext d v
  rw [Victims, Victims, h.attach, h.cur, h.pgdir]

section

variable [KernelImage]

/-- Directories have the tables they had. -/
def SameTables (own : Owners) (s s' : Kernel) : Prop :=
  ∀ d i, own d = .dir → tableOf s' d i = tableOf s d i

/-- On an empty free list, `evict` frees one user page and lets the rest drift. -/
def EvictOk (mode : Mode) (keep : Bool) (evict : K Unit) (E : Halt → Prop) : Prop :=
  ∀ own s, Inv mode own (attachOf s) s → s.freelist = [] →
    wp evict s (fun _ s' => ∃ f, own f = .user ∧ s'.freelist = [f] ∧
      Inv mode (update own f .free) (attachOf s) s' ∧
      Drift own (attachOf s) (Victims keep s) s s' ∧ SameTables own s s') E

/-- `c` pages can be allocated from `s`. -/
def Supply (mode : Mode) (keep : Bool) (evict : K Unit) (E : Halt → Prop) (c : Nat)
    (s : Kernel) : Prop :=
  c ≤ s.freelist.length ∨ EvictOk mode keep evict E

variable {mode : Mode} {keep : Bool} {evict : K Unit} {E : Halt → Prop}

theorem Supply.mono {c c' : Nat} {s : Kernel} (h : Supply mode keep evict E c s)
    (hle : c' ≤ c) : Supply mode keep evict E c' s :=
  h.imp (fun hlen => Nat.le_trans hle hlen) id

theorem Supply.congr {c : Nat} {s s' : Kernel} (h : Supply mode keep evict E c s)
    (hlist : s'.freelist = s.freelist) : Supply mode keep evict E c s' :=
  h.imp (fun hlen => by rw [hlist]; exact hlen) id

theorem evictOk_noEvict (hE : E .noEvict) : EvictOk mode keep noEvict E :=
  fun _ _ _ _ => hE

/-! ### `kalloc` and `kfree` -/

variable {own own' : Owners} {att : Attach} {s s' : Kernel}

theorem Inv.pop (h : Inv mode own att s) {f : Nat} {rest : List Nat} {n : Nat}
    (hlist : s.freelist = f :: rest) :
    own f = .free ∧
      Inv mode (update own f .held) att { s with freelist := rest, numFreePages := n } := by
  have hfree : own f = .free :=
    (h.frames.free_iff f).1 (by rw [hlist]; exact List.mem_cons_self)
  refine ⟨hfree, h.congr (sameRoles_update (by rw [hfree]; trivial) trivial) (sameMaps_of_mem rfl)
    rfl rfl (h.frames.pop hlist rfl) h.idle⟩

theorem drift_pop {V : Nat → Nat → Prop} (h : Inv mode own att s) {rest : List Nat} {n : Nat} :
    Drift own att V s { s with freelist := rest, numFreePages := n } :=
  drift_of_same h (fun _ _ _ => rfl) ⟨fun _ => rfl, rfl, rfl, rfl⟩ (fun _ _ => rfl)
    (fun _ _ => rfl) rfl rfl rfl

/-- `kalloc` in one state, where `evict` keeps its contract if it is called. -/
theorem kalloc_from (h : Inv mode own (attachOf s) s)
    (hev : s.freelist = [] → wp evict s (fun _ s' => ∃ f, own f = .user ∧ s'.freelist = [f] ∧
      Inv mode (update own f .free) (attachOf s) s' ∧
      Drift own (attachOf s) (Victims keep s) s s' ∧ SameTables own s s') E) :
    wp (kalloc evict) s (fun r s' => ∃ f, r = some f ∧ (own f = .free ∨ own f = .user) ∧
      Inv mode (update own f .held) (attachOf s) s' ∧
      Drift own (attachOf s) (Victims keep s) s s' ∧ SameTables own s s' ∧
      s.freelist.length - 1 ≤ s'.freelist.length) E := by
  unfold kalloc
  rw [wp_bind]
  cases hlist : s.freelist with
  | cons f rest =>
    rw [wp_popFree_cons hlist]
    obtain ⟨hfree, hinv⟩ := h.pop (n := decr32 s.numFreePages) hlist
    exact ⟨f, rfl, .inl hfree, hinv, drift_pop h, fun _ _ _ => rfl, le_rfl⟩
  | nil =>
    rw [wp_popFree_nil hlist]
    simp only [wp_bind]
    refine wp_conseq (hev hlist) ?_
    rintro - s1 ⟨f, huser, hlist1, hinv1, hdrift1, htab1⟩
    rw [wp_popFree_cons hlist1]
    obtain ⟨-, hinv⟩ := hinv1.pop (n := decr32 s1.numFreePages) hlist1
    rw [update_idem] at hinv
    exact ⟨f, rfl, .inr huser, hinv,
      hdrift1.trans (fun _ _ hV => hV.1) (retains_update (.inr huser)) (drift_pop hinv1),
      htab1, Nat.zero_le _⟩

theorem kalloc_spec {c : Nat} (h : Inv mode own (attachOf s) s)
    (hsup : Supply mode keep evict E (c + 1) s) :
    wp (kalloc evict) s (fun r s' => ∃ f, r = some f ∧ (own f = .free ∨ own f = .user) ∧
      Inv mode (update own f .held) (attachOf s) s' ∧
      Drift own (attachOf s) (Victims keep s) s s' ∧ SameTables own s s' ∧
      Supply mode keep evict E c s') E := by
  have hev : s.freelist = [] → EvictOk mode keep evict E := by
    refine fun hlist => hsup.resolve_left fun hlen => ?_
    rw [hlist] at hlen
    simp at hlen
  refine wp_conseq (kalloc_from h fun hlist => hev hlist own s h hlist) ?_
  rintro r s' ⟨f, hr, hf, hinv, hdrift, htab, hlen⟩
  exact ⟨f, hr, hf, hinv, hdrift, htab, hsup.imp (fun hc => by omega) id⟩

/-- Writing a page that was allocated since `own`. -/
theorem drift_fill {V : Nat → Nat → Prop} {own1 : Owners} {f : Nat} (h : Inv mode own1 att s)
    (hret : Retains own own1) (hf : own f = .free ∨ own f = .user) (hheld : own1 f = .held)
    (page : Page) : Drift own att V s (s.setPage f page) := by
  refine drift_of_same h hret ⟨fun _ => rfl, rfl, rfl, rfl⟩ ?_ ?_ rfl rfl rfl
  · intro g hg
    refine update_of_ne ?_ _ _
    rintro rfl
    rw [hheld] at hg
    rcases hg with hg | hg
    · exact hg.elim
    · cases hg
  · intro g hg
    refine update_of_ne ?_ _ _
    rintro rfl
    rcases hf with hf | hf <;> rcases hg with hg | ⟨p, hg⟩ <;> rw [hf] at hg <;>
      cases hg

/-- The state after `kfree`. -/
def Kernel.freed (s : Kernel) (f : Nat) : Kernel :=
  { s with
    mem := update s.mem f (stw (fun _ => 1) 0 (linkWord s.freelist))
    freelist := f :: s.freelist
    numFreePages := incr32 s.numFreePages }

theorem kfree_eq {f : Nat} (h : FrameInv own s) (hm : own f ≠ .unmanaged) :
    kfree f s = .ok ((), s.freed f) := by
  have hrange := h.range f hm
  have hno : ¬ (f < KernelImage.endPage ∨ NFRAMES ≤ f) := by omega
  rw [kfree, if_neg hno]
  rfl

theorem Inv.freed (h : Inv mode own att s) {f : Nat} (hplain : (own f).isPlain)
    (hfree : own f ≠ .free) (hm : own f ≠ .unmanaged) :
    Inv mode (update own f .free) att (s.freed f) := by
  refine h.congr (sameRoles_update hplain trivial) ?_ rfl rfl (h.frames.push hfree hm rfl) h.idle
  intro g hg
  have hne : g ≠ f := by
    rintro rfl
    cases ho : own g <;> rw [ho] at hg hplain <;> first | exact hg.elim | exact hplain.elim
  exact update_of_ne hne _ _

/-! ### The page walk -/

variable {d v va : Nat} {ptr : PtePtr}

theorem walkpgdir_eq (hT : TableInv own s) (hF : FrameInv own s) (hd : own d = .dir)
    (hva : va < 2 ^ 32) : walkpgdir d va s = .ok (pteSlot s d (va / PGSIZE), s) := by
  have hpdx := PDX_eq hva
  have hlt : va / PGSIZE / 1024 < 1024 := by
    simp only [PGSIZE]
    omega
  simp only [walkpgdir, bind, StateT.bind, Except.bind, get, getThe, MonadStateOf.get,
    StateT.get, pure, Except.pure]
  by_cases hp : has (ldw (s.mem d) (PDX va)) PTE_P = true
  · have htab : tableOf s d (va / PGSIZE / 1024) = some (frameOf (ldw (s.mem d) (PDX va))) := by
      rw [tableOf, ← hpdx, if_pos hp]
    have howner := (hT.tab_iff d _ _ hd hlt).1 htab
    have hframe := (hF.range _ (by rw [howner]; simp)).2
    rw [if_pos hp, if_pos hframe, pteSlot, htab, Option.map_some, PTX_eq]
    rfl
  · have htab : tableOf s d (va / PGSIZE / 1024) = none := by
      rw [tableOf, ← hpdx, if_neg hp]
    rw [if_neg hp, pteSlot, htab, Option.map_none]
    rfl

theorem wp_walkpgdir {Q : Option PtePtr → Kernel → Prop} (hT : TableInv own s)
    (hF : FrameInv own s) (hd : own d = .dir) (hva : va < 2 ^ 32) :
    wp (walkpgdir d va) s Q E ↔ Q (pteSlot s d (va / PGSIZE)) s :=
  wp_of_ok (walkpgdir_eq hT hF hd hva)

theorem Inv.walk {Q : Option PtePtr → Kernel → Prop} (h : Inv mode own att s)
    (hd : own d = .dir) (hva : va < 2 ^ 32) :
    wp (walkpgdir d va) s Q E ↔ Q (pteSlot s d (va / PGSIZE)) s :=
  wp_walkpgdir h.tables h.frames hd hva

theorem Drift.refl {V : Nat → Nat → Prop} (h : Inv mode own att s) : Drift own att V s s :=
  drift_of_same h (fun _ _ _ => rfl) (SameProcs.refl s) (fun _ _ => rfl) (fun _ _ => rfl) rfl
    rfl rfl

/-- Tables that the page walk has to allocate for page `v`. -/
def missing (s : Kernel) (d v : Nat) : Nat := if tableOf s d (v / 1024) = none then 1 else 0

/-- The page walk with allocation found the entry `ptr` of page `v`. -/
structure Walked (mode : Mode) (keep : Bool) (own own' : Owners) (d v : Nat) (ptr : PtePtr)
    (s s' : Kernel) : Prop where
  keeps : Keeps own own'
  inv : Inv mode own' (attachOf s) s'
  drift : Drift own (attachOf s) (Victims keep s) s s'
  slot : pteSlot s' d v = some ptr
  word : pteAt s' ptr = entry s d v

/-- Adding a table moves no page that anybody sees. `own` is the role function
    before the page `f` was taken. -/
theorem drift_newTable {V : Nat → Nat → Prop} {i f : Nat} {pde : Word} {own1 : Owners}
    (h : Inv mode own1 att s) (hret : Retains own own1) (hf : own f = .free ∨ own f = .user)
    (hheld : own1 f = .held) (hd : own d = .dir)
    (hnt : NewTable own1 d i f s ((s.setPage f fun _ => 0).storeWord d i pde)) :
    Drift own att V s ((s.setPage f fun _ => 0).storeWord d i pde) := by
  have hd1 := hret.of_dir hd
  have hmem : ∀ g, g ≠ f → g ≠ d →
      ((s.setPage f fun _ => 0).storeWord d i pde).mem g = s.mem g := by
    intro g hgf hgd
    simp only [Kernel.storeWord, Kernel.setPage, update_of_ne hgd,
      update_of_ne hgf]
  refine ⟨⟨fun _ => rfl, rfl, rfl, rfl⟩, ?_, ?_, ?_, fun _ _ _ _ _ _ => rfl, ?_, ?_⟩
  · intro e j t he ht
    have hmiss : ¬ (e = d ∧ j = i) := by grind [hnt.missing]
    by_cases hed : e = d
    · subst hed
      have hji : j ≠ i := fun hj => hmiss ⟨rfl, hj⟩
      have hfe : e ≠ f := by grind
      rw [← ht, tableOf, tableOf]
      simp only [Kernel.storeWord, Kernel.setPage, update_self,
        update_of_ne hfe, ldw_stw_ne _ _ hji]
    · grind [tableOf]
  · intro e u he hu hnone
    exact hnt.pte_none (hret.of_dir he) hu hnone
  · grind [hnt.pte, hret.of_dir, PteSim.refl]
  · intro e u he hu hvis
    obtain ⟨x, hx⟩ := h.view_some hvis
    refine SameView.of_eq hx ?_
    obtain ⟨w, hw, -⟩ := hvis
    have hpte := hnt.pte e u w (hret.of_dir he) (upages_lt hu) hw
    refine view_congr (hpte.trans hw.symm) (fun w' hw' hp => ?_) (fun _ => rfl) rfl
    have huser := (h.maps.user e u w' ⟨hret.of_dir he, hu, hw'⟩ hp).1
    refine hmem _ ?_ ?_ <;> intro heq
    · grind
    · grind
  · grind

omit [KernelImage] in
theorem pde_bits {f : Nat} (hf : f < NFRAMES) :
    has (frameAddr f ||| PTE_P ||| PTE_W ||| PTE_U) PTE_P = true ∧
      frameOf (frameAddr f ||| PTE_P ||| PTE_W ||| PTE_U) = f := by
  have hlt := nframes_lt hf
  constructor
  · simp
  · rw [BitVec.or_assoc, BitVec.or_assoc]
    refine frameOf_mk hlt fun i hi => ?_
    simp only [BitVec.getLsbD_or, getLsbD_P, getLsbD_W, getLsbD_U, Bool.or_eq_false_iff,
      decide_eq_false_iff_not]
    omega

theorem walkpgdirAlloc_spec {c : Nat} (h : Inv mode own (attachOf s) s) (hd : own d = .dir)
    (hva : va < 2 ^ 32)
    (hsup : Supply mode keep evict E (c + missing s d (va / PGSIZE)) s) :
    wp (walkpgdirAlloc evict d va) s (fun r s' => ∃ ptr own', r = some ptr ∧
      Walked mode keep own own' d (va / PGSIZE) ptr s s' ∧ Supply mode keep evict E c s') E := by
  unfold walkpgdirAlloc
  rw [wp_bind, h.walk hd hva]
  cases hslot : pteSlot s d (va / PGSIZE) with
  | some ptr =>
    refine ⟨ptr, own, rfl, ⟨Keeps.refl own, h, Drift.refl h, hslot, ?_⟩,
      hsup.mono (Nat.le_add_right c _)⟩
    rw [entry_of_pte (pteOf_of_slot hslot)]
  | none =>
    have htab : tableOf s d (va / PGSIZE / 1024) = none := by
      rw [pteSlot] at hslot
      exact Option.map_eq_none_iff.1 hslot
    have hlt : va / PGSIZE / 1024 < 1024 := by
      simp only [PGSIZE]
      omega
    rw [missing, if_pos htab] at hsup
    simp only [wp_bind]
    refine wp_conseq (kalloc_spec h hsup) ?_
    rintro - s1 ⟨f, rfl, hf, hinv, hdrift, hsame, hsup1⟩
    simp only [memset, wp_bind, wp_modify, wp_pure]
    have hheld : update own f .held f = .held := update_self _ _ _
    have hret : Retains own (update own f .held) := retains_update hf
    have hd1 := hret.of_dir hd
    have hflt : f < NFRAMES := hinv.user_lt (by rw [hheld]; simp)
    obtain ⟨hp, hframe⟩ := pde_bits hflt
    have htab1 : tableOf s1 d (va / PGSIZE / 1024) = none := by rw [hsame d _ hd, htab]
    rw [PDX_eq hva]
    have hnt := newTable_of_store hinv.tables hd1 hlt hheld htab1 hp hframe
    have hinv2 := hinv.newTable hnt hheld hd1 hlt
      ((sameRest_setPage s1 f _).trans (sameRest_storeWord _ _ _ _)) rfl
    rw [update_idem] at hinv2
    have hslot2 : pteSlot ((s1.setPage f fun _ => 0).storeWord d (va / PGSIZE / 1024)
        (frameAddr f ||| PTE_P ||| PTE_W ||| PTE_U)) d (va / PGSIZE) =
        some ⟨f, PTX va⟩ := by
      rw [pteSlot_eq_some, hnt.table d _ hd1 hlt, if_pos ⟨rfl, rfl⟩]
      exact ⟨rfl, PTX_eq va⟩
    refine ⟨⟨f, PTX va⟩, _, rfl, ⟨keeps_update hf (by simp) id, hinv2, ?_, hslot2, ?_⟩,
      hsup1.congr rfl⟩
    · exact hdrift.trans (fun _ _ hV => hV.1) (fun _ _ _ => rfl)
        (drift_newTable hinv hret hf hheld hd hnt)
    · have hzero := hnt.zero (va / PGSIZE) (by simp only [PGSIZE]; omega) rfl
      rw [pteOf_of_slot hslot2] at hzero
      rw [Option.some.inj hzero, entry_of_none (pteOf_none_iff.2 htab)]

/-! ### Pages as numbers -/

omit [KernelImage] in
@[simp] theorem mul_PGSIZE_div (v : Nat) : v * PGSIZE / PGSIZE = v :=
  Nat.mul_div_cancel v (by decide)

omit [KernelImage] in
theorem mul_PGSIZE_lt {v : Nat} (h : v < 2 ^ 20) : v * PGSIZE < 2 ^ 32 := by
  simp only [PGSIZE]
  omega

/-! ### `mappages` -/

omit [KernelImage] in
theorem wp_loadPte {Q : Word → Kernel → Prop} :
    wp (loadPte ptr) s Q E ↔ Q (pteAt s ptr) s := Iff.rfl

omit [KernelImage] in
theorem wp_storePte {Q : Unit → Kernel → Prop} {w : Word} :
    wp (storePte ptr w) s Q E ↔ Q () (s.storeWord ptr.table ptr.index w) := Iff.rfl

theorem mapOne_spec {c : Nat} {pa perm : Word} (h : Inv mode own (attachOf s) s)
    (hd : own d = .dir) (hv : v < 2 ^ 20) (hfree : has (entry s d v) PTE_P = false)
    (hsup : Supply mode keep evict E (c + missing s d v) s) :
    wp (mapOne evict d (v * PGSIZE) pa perm) s (fun r s' => r = 0 ∧ ∃ ptr own' s1,
      Walked mode keep own own' d v ptr s s1 ∧ Supply mode keep evict E c s1 ∧
      s' = s1.storeWord ptr.table ptr.index (pa ||| perm ||| PTE_P)) E := by
  unfold mapOne
  rw [wp_bind]
  have hwalk := walkpgdirAlloc_spec h hd (mul_PGSIZE_lt hv)
    (by rw [mul_PGSIZE_div]; exact hsup)
  rw [mul_PGSIZE_div] at hwalk
  refine wp_conseq hwalk ?_
  rintro - s1 ⟨ptr, own', rfl, hwalked, hsup1⟩
  simp only [wp_bind, wp_loadPte]
  rw [hwalked.word, hfree]
  exact ⟨rfl, ptr, own', s1, hwalked, hsup1, rfl⟩

omit [KernelImage] in
/-- `mappages` over whole pages is its loop. -/
theorem mappages_pages {n : Nat} {pa perm : Word} (hlt : v + n < 2 ^ 20) :
    mappages evict d (v * PGSIZE) ((n + 1) * PGSIZE) pa perm =
      mappagesLoop evict d perm n (v * PGSIZE) pa := by
  have hfirst : PGROUNDDOWN (v * PGSIZE) = v * PGSIZE := by
    simp only [PGROUNDDOWN, PGSIZE]
    omega
  have hlast : PGROUNDDOWN ((v * PGSIZE + (n + 1) * PGSIZE + (2 ^ 32 - 1)) % 2 ^ 32) =
      (v + n) * PGSIZE := by
    simp only [PGROUNDDOWN, PGSIZE]
    omega
  have hturns : ((v + n) * PGSIZE + 2 ^ 32 - v * PGSIZE) % 2 ^ 32 / PGSIZE = n := by
    simp only [PGSIZE]
    omega
  rw [mappages, hfirst, hlast, hturns]

omit [KernelImage] in
theorem mappages_one {pa perm : Word} (hlt : v < 2 ^ 20) :
    mappages evict d (v * PGSIZE) PGSIZE pa perm = mapOne evict d (v * PGSIZE) pa perm := by
  have h : mappages evict d (v * PGSIZE) ((0 + 1) * PGSIZE) pa perm = _ :=
    mappages_pages (by omega)
  rw [Nat.zero_add, Nat.one_mul] at h
  exact h

end

end CowPaging
