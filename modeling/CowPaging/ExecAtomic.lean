import CowPaging.Sandbox
import CowPaging.ExecCall

/-!
# `exec` on arbitrary files

A call of `exec` that fails takes its new address space apart again. While pages are free, what
it built is made of pages that were free before (`Sandbox`), so giving them back restores the
free pages, the reverse map and the resident size of the caller; the inode and the operation of
the log are given back as well. No content of the file leads to a panic.
-/

namespace CowPaging

open Bytes StateExcept SlotTable
open Function (update_of_ne update_self update_idem update_eq_self update)

/-! ### Resident size -/

/-- `if(rss > 0) rss -= PGSIZE`. -/
def dropPage (rss : Nat) : Nat := if rss > 0 then (rss + (2 ^ 32 - PGSIZE)) % 2 ^ 32 else rss

theorem dropPage_chargePage {rss : Nat} (h : rss + PGSIZE < 2 ^ 32) :
    dropPage (chargePage rss) = rss := by
  have hpos : 0 < rss + PGSIZE := Nat.add_pos_right rss (by decide)
  rw [chargePage, Nat.mod_eq_of_lt h, dropPage, if_pos hpos]
  simp only [PGSIZE] at h ⊢
  omega

theorem chargePages {n rss : Nat} (h : rss + n * PGSIZE < 2 ^ 32) :
    chargePage^[n] rss = rss + n * PGSIZE := by
  induction n with
  | zero => simp
  | succ n ih =>
    rw [Nat.succ_mul] at h ⊢
    rw [Function.iterate_succ_apply', ih (by omega), chargePage, Nat.mod_eq_of_lt (by omega)]
    omega

theorem dropPages_chargePages {n rss : Nat} (h : rss + n * PGSIZE < 2 ^ 32) :
    dropPage^[n] (chargePage^[n] rss) = rss := by
  induction n with
  | zero => rfl
  | succ n ih =>
    rw [Nat.succ_mul] at h
    have hn : rss + n * PGSIZE < 2 ^ 32 := by omega
    have hlast : dropPage (chargePage (chargePage^[n] rss)) = chargePage^[n] rss := by
      apply dropPage_chargePage
      rw [chargePages hn]
      omega
    rw [Function.iterate_succ_apply, Function.iterate_succ_apply', hlast, ih hn]

/-! ### Taking an address space apart -/

/-- The entries of the reverse map for the pages in `P` are left alone, and process `p` gave
    back `n` pages. -/
structure GivesBack (P : Nat → Prop) (p n : Nat) (s s' : Kernel) : Prop where
  rmap : ∀ f, P f → s'.rmap f = s.rmap f
  cur : s'.cur = s.cur
  procs : s'.proc = update s.proc p
    { s.proc p with rss := dropPage^[n] (s.proc p).rss }

variable {P : Nat → Prop} {p n n' : Nat} {s s₁ s' : Kernel}

theorem givesBack_of_procs (hrmap : ∀ f, P f → s'.rmap f = s.rmap f) (hcur : s'.cur = s.cur)
    (hproc : s'.proc = s.proc) : GivesBack P p 0 s s' := by
  refine ⟨hrmap, hcur, ?_⟩
  rw [hproc]
  exact (update_eq_self _ _).symm

theorem GivesBack.trans (h : GivesBack P p n s s₁) (h' : GivesBack P p n' s₁ s') :
    GivesBack P p (n + n') s s' where
  rmap f hf := (h'.rmap f hf).trans (h.rmap f hf)
  cur := h'.cur.trans h.cur
  procs := by
    rw [h'.procs, h.procs, update_self, update_idem, Nat.add_comm,
      Function.iterate_add_apply]

section

variable [KernelImage] {mode : Mode} {own own' : Owners} {att : Attach} {d v : Nat} {ptr : PtePtr}

omit [KernelImage] in
/-- `dec_sharing` changes one entry of the reverse map. -/
theorem decSharing_rmap (ptr : PtePtr) (f : Nat) (s : Kernel) :
    wp (decSharing ptr f) s (fun _ s' => ∃ r, s' = s.setRmap f r) fun _ => True := by
  rw [decSharing, wp_bind, wp_get]
  refine wp_ite (fun _ => ?_) fun _ => trivial
  dsimp only
  cases (s.rmap f).slotOf ptr with
  | none => trivial
  | some i => exact ⟨_, rfl⟩

theorem unmapPte_givesBack (hp : has (pteAt s ptr) PTE_P = true) (hP : ¬ P (frameOf (pteAt s ptr))) :
    wp (unmapPte p ptr) s (fun _ s' => GivesBack P p 1 s s') fun _ => True := by
  unfold unmapPte
  rw [wp_bind, wp_loadPte, if_pos hp]
  refine wp_ite (fun _ => trivial) fun _ => ?_
  -- dropping the charge and clearing the entry
  have hlast : ∀ {s₁ : Kernel}, GivesBack P p 0 s s₁ →
      wp (do dropRss p; storePte ptr 0) s₁ (fun _ s' => GivesBack P p 1 s s') fun _ => True := by
    intro s₁ h
    have hdrop : GivesBack P p 1 s₁ (s₁.setProc p fun pr =>
        if pr.rss > 0 then { pr with rss := (pr.rss + (2 ^ 32 - PGSIZE)) % 2 ^ 32 } else pr) := by
      refine ⟨fun _ _ => rfl, rfl, congrArg (update s₁.proc p) ?_⟩
      show (if (s₁.proc p).rss > 0 then _ else _) = _
      rw [Function.iterate_one, dropPage]
      split <;> rfl
    have hall := h.trans hdrop
    exact ⟨hall.rmap, hall.cur, hall.procs⟩
  rw [wp_bind]
  refine wp_conseq (decSharing_rmap ptr _ s) ?_
  rintro doFree _ ⟨r, rfl⟩
  have hdec : GivesBack P p 0 s (s.setRmap (frameOf (pteAt s ptr)) r) := by
    refine givesBack_of_procs (fun g hg => ?_) rfl rfl
    have hne : g ≠ frameOf (pteAt s ptr) := fun heq => hP (heq ▸ hg)
    exact update_of_ne hne _ _
  dsimp only
  refine wp_ite (fun _ => ?_) fun _ => hlast hdec
  rw [wp_bind]
  refine wp_ite (fun _ => trivial) fun _ => ?_
  exact hlast ⟨hdec.rmap, hdec.cur, hdec.procs⟩

/-- A present entry for a page of user code outside `P`. -/
def Spare (P : Nat → Prop) (s : Kernel) (d : Nat) (ptr : PtePtr) : Prop :=
  ∃ v, v < UPAGES ∧ pteSlot s d v = some ptr ∧ has (pteAt s ptr) PTE_P = true ∧
    ¬ P (frameOf (pteAt s ptr))

theorem unmapAll_givesBack (hdet : ∀ p z, att p ≠ some (d, z)) {l : List PtePtr} :
    ∀ {s : Kernel} {own : Owners}, Inv mode own att s → own d = .dir → l.Nodup →
      (∀ ptr ∈ l, Spare P s d ptr) →
      wp (unmapAll p l) s (fun _ s' => GivesBack P p l.length s s') fun _ => True := by
  induction l with
  | nil =>
    intro s own _ _ _ _
    exact givesBack_of_procs (fun _ _ => rfl) rfl rfl
  | cons ptr rest ih =>
    intro s own h hd hnodup hall
    obtain ⟨v, hv, hslot, hp, hP⟩ := hall ptr List.mem_cons_self
    obtain ⟨own₁, s₁, hok, hinv, hd1, hsame⟩ := unmapPte_visit (p := p) h hd hv hslot hdet
    have hfirst := wp_ok (unmapPte_givesBack (p := p) hp hP) hok
    rw [unmapAll, wp_bind, wp_of_ok hok]
    obtain ⟨hnotin, hnodup'⟩ := List.nodup_cons.1 hnodup
    -- the entries that are left are as they were
    have hrest : ∀ q ∈ rest, Spare P s₁ d q := by
      intro q hq
      obtain ⟨u, hu, hqslot, hqp, hqP⟩ := hall q (List.mem_cons_of_mem _ hq)
      have hne : u ≠ v := by grind
      obtain ⟨hs, hpte⟩ := hsame u (upages_lt hu) hne
      have hat : pteAt s₁ q = pteAt s q := by grind [pteOf_of_slot]
      exact ⟨u, hu, hs.trans hqslot, by rw [hat]; exact hqp, by rw [hat]; exact hqP⟩
    refine wp_conseq (ih hinv hd1 hnodup' hrest) ?_
    intro _ s2 h2
    rw [List.length_cons, Nat.add_comm]
    exact hfirst.trans h2

omit [KernelImage] in
/-- The first `n` pages are present, and no others. -/
theorem length_presentSlots {k : Nat} : ∀ {v : Nat}, v ≤ n → n ≤ v + k →
    (∀ u, v ≤ u → u < v + k → (has (entry s d u) PTE_P = true ↔ u < n)) →
    (presentSlots s d v k).length = n - v := by
  induction k with
  | zero => grind [presentSlots, List.length_nil]
  | succ k ih =>
    intro v hlo hhi hall
    have hv := hall v (Nat.le_refl v) (by omega)
    rw [presentSlots]
    by_cases hlt : v < n
    · have hnext := ih (v := v + 1) (by omega) (by omega) fun u hu hu' => hall u (by omega) (by omega)
      obtain ⟨ptr, hslot, hat⟩ := pteOf_eq_some.1 (pteOf_of_entry (hv.2 hlt))
      rw [hslot]
      dsimp only
      rw [hat, if_pos (hv.2 hlt), List.length_cons, hnext]
      omega
    · -- no page from here on is present
      have hnone : ∀ {k v : Nat}, (∀ u, v ≤ u → u < v + k → has (entry s d u) PTE_P ≠ true) →
          presentSlots s d v k = [] := by
        intro k v habs
        refine List.eq_nil_iff_forall_not_mem.2 fun ptr hptr => ?_
        obtain ⟨u, hu, hu', hslot, hp⟩ := mem_presentSlots.1 hptr
        rw [← entry_of_pte (pteOf_of_slot hslot)] at hp
        exact habs u hu hu' hp
      have hzero := hnone (k := k + 1) (v := v) fun u hu hu' hp =>
        hlt (Nat.lt_of_le_of_lt hu ((hall u hu hu').1 hp))
      rw [presentSlots] at hzero
      rw [hzero, List.length_nil]
      omega

theorem freeTables_leaves (d : Nat) :
    Leaves (fun s : Kernel => (s.rmap, s.cur, s.proc)) (freeTables d) fun _ => True := by
  refine leaves_loopFrom (fun i => leaves_get fun s => ?_) _ _
  refine wp_ite (fun _ => ?_) fun _ => ⟨trivial, rfl⟩
  exact wp_ite (fun _ => trivial) fun _ => ⟨trivial, rfl⟩

/-- `freevm` of a directory whose first `n` pages are present and outside `P`. -/
theorem freevm_givesBack (h : Inv mode own att s) (hd : own d = .dir)
    (hdet : ∀ p z, att p ≠ some (d, z)) (hn : n ≤ UPAGES)
    (hpresent : ∀ v, v < UPAGES → (has (entry s d v) PTE_P = true ↔ v < n))
    (hP : ∀ v, v < n → ¬ P (frameOf (entry s d v))) :
    wp (freevm d) s (fun _ s' => GivesBack P s.cur n s s') fun _ => True := by
  have hpages : pagesOf KERNBASE - 0 = UPAGES := by decide
  obtain ⟨visited, s₁, hrun, hvisited, hall⟩ := exists_ok_of_wp
    (deallocWith_visits (p := s.cur) jumpOk_nextTable (Nat.le_refl KERNBASE) hdet h hd
      (show pagesOf KERNBASE ≤ 0 + pagesOf KERNBASE by omega))
  rw [hpages] at hvisited
  have hloop := deallocuvmLoop_of_visits (Nat.le_refl KERNBASE) hrun
  have hback : GivesBack P s.cur n s s₁ := by
    have hspare : ∀ ptr ∈ visited, Spare P s d ptr := by
      intro ptr hptr
      rw [hvisited] at hptr
      obtain ⟨u, -, hu, hslot, hp⟩ := mem_presentSlots.1 hptr
      have hentry := entry_of_pte (pteOf_of_slot hslot)
      rw [Nat.zero_add] at hu
      refine ⟨u, hu, hslot, hp, ?_⟩
      rw [← hentry] at hp ⊢
      exact hP u ((hpresent u hu).1 hp)
    have hnodup : visited.Nodup := by
      rw [hvisited]
      exact nodup_presentSlots h.tables hd (by decide)
    have hlen : visited.length = n := by
      rw [hvisited]
      refine (length_presentSlots (Nat.zero_le n) (by omega) fun u _ hu => ?_).trans (Nat.sub_zero n)
      exact hpresent u (by omega)
    rw [← hlen]
    have hunmap := unmapAll_givesBack (p := s.cur) hdet h hd hnodup hspare
    exact (wp_of_ok hall).1 hunmap
  unfold freevm freevm2 deallocuvm2
  rw [wp_bind, wp_get, if_neg (by decide), show PGROUNDUP 0 = 0 * PGSIZE by decide, wp_bind, wp_bind,
    wp_of_ok hloop, wp_pure, wp_bind]
  refine wp_conseq (freeTables_leaves d s₁) ?_
  rintro - s2 ⟨-, heq⟩
  refine wp_ite (fun _ => trivial) fun _ => ?_
  rw [wp_modify]
  obtain ⟨hrmap, heq⟩ := Prod.mk.inj heq
  obtain ⟨hcur, hproc⟩ := Prod.mk.inj heq
  exact ⟨fun f hf => (congrFun hrmap f).trans (hback.rmap f hf), hcur.trans hback.cur,
    hproc.trans hback.procs⟩

/-! ### Roles after the pages are given back -/

/-- The entry lists the same page-table entries in the same places. -/
structure Rmap.Same (r r' : Rmap) : Prop where
  refcount : r'.refcount = r.refcount
  present : ∀ i, i < NPROC → r'.presentId i = r.presentId i
  pte : ∀ i, i < NPROC → r.presentId i = true → r'.pteId i = r.pteId i

omit [KernelImage] in
theorem Rmap.Same.refl (r : Rmap) : Rmap.Same r r := ⟨rfl, fun _ _ => rfl, fun _ _ _ => rfl⟩

/-- The kernel after a call that failed: the process table, the reverse map and the free pages
    are what they were. -/
structure Restored (s s' : Kernel) : Prop where
  cur : s'.cur = s.cur
  procs : s'.proc = s.proc
  rmap : ∀ f, Rmap.Same (s.rmap f) (s'.rmap f)
  free : ∀ f, f ∈ s'.freelist ↔ f ∈ s.freelist

omit [KernelImage] in
theorem Restored.refl (s : Kernel) : Restored s s :=
  ⟨rfl, rfl, fun _ => Rmap.Same.refl _, fun _ => Iff.rfl⟩

theorem Inv.rmap_free {f : Nat} (h : Inv mode own att s) (hf : own f = .free) :
    (s.rmap f).refcount = 0 ∧ ∀ i, i < NPROC → (s.rmap f).presentId i = false := by
  have hlt := (h.frames.range f (by rw [hf]; simp)).2
  have hlist := h.maps.exact f hlt
  have hunused : ∀ i, i < NPROC → (s.rmap f).presentId i = false := by
    intro i hi
    refine Bool.eq_false_of_not_eq_true fun hused => ?_
    obtain ⟨d, v, w, hu, hp, hframe, -⟩ := (hlist.mem _).2 ⟨i, hi, hused, rfl⟩
    have huser := (h.maps.user d v w hu hp).1
    rw [hframe, hf] at huser
    cases huser
  refine ⟨?_, hunused⟩
  rw [hlist.card, Finset.card_eq_zero, Finset.eq_empty_iff_forall_notMem]
  intro i hi
  obtain ⟨hlt, hused⟩ := mem_usedSlots.1 hi
  rw [hunused i hlt] at hused
  exact Bool.false_ne_true hused

omit [KernelImage] in
theorem TableInv.pte_left {e : Nat} (hT : TableInv own s) (he : own e = .dir) (hv : v < 2 ^ 20)
    (hmem : ∀ f, own f ≠ .free → s'.mem f = s.mem f) : pteOf s' e v = pteOf s e v :=
  hT.pte_congr he hv (hmem e (by rw [he]; simp)) fun t i ht => hmem t (by rw [ht]; simp)

variable {keep : Bool} {m : Memory} {own₀ own₁ : Owners} {s₀ : Kernel}

/-- A new address space in pages that were free. -/
structure Fresh (mode : Mode) (keep : Bool) (own₀ own : Owners) (d : Nat) (m : Memory)
    (s₀ s : Kernel) : Prop where
  start : Inv mode own₀ (attachOf s₀) s₀
  built : Built mode keep own₀ own d m s₀ s
  left : ∀ f, own₀ f ≠ .free → s.mem f = s₀.mem f

theorem Fresh.pte {e : Nat} (h : Fresh mode keep own₀ own d m s₀ s) (he : own₀ e = .dir)
    (hv : v < 2 ^ 20) : pteOf s e v = pteOf s₀ e v := h.start.tables.pte_left he hv h.left

theorem Fresh.dir_old {e : Nat} (h : Fresh mode keep own₀ own d m s₀ s) (he : own e = .dir)
    (hne : e ≠ d) : own₀ e = .dir := by
  have hold := h.built.keeps.dir e he
  rwa [update_of_ne hne] at hold

theorem Fresh.role {f : Nat} (h : Fresh mode keep own₀ own d m s₀ s) (hf : own₀ f ≠ .free) :
    own f = own₀ f := by
  by_cases huser : own₀ f = .user
  · obtain ⟨q, e, v, w, hu, hp, hframe, -⟩ := h.start.maps.mapped f huser
    have hu' : Upte own s e v w :=
      ⟨h.built.retains.of_dir hu.1, hu.2.1, by rw [h.pte hu.1 (upages_lt hu.2.1)]; exact hu.2.2⟩
    have hrole := (h.built.inv.maps.user e v w hu' hp).1
    rw [hframe] at hrole
    rw [hrole, huser]
  · exact h.built.retains f hf huser

variable {att' : Attach}

theorem Fresh.free_iff (h : Fresh mode keep own₀ own d m s₀ s) (h' : Inv mode own' att' s')
    (hfs : FreedSpace own own' d s s') (f : Nat) : own' f = .free ↔ own₀ f = .free := by
  have hdir : ∀ e, own' e = .dir → own e = .dir ∧ e ≠ d := by grind [hfs.gone, hfs.roles]
  constructor
  · intro hfree
    by_contra hused
    have hrole := h.role hused
    by_cases huser : own₀ f = .user
    · -- another directory maps the page
      obtain ⟨q, e, v, w, hu, hp, hframe, -⟩ := h.start.maps.mapped f huser
      have he : own e = .dir := h.built.retains.of_dir hu.1
      have hne : e ≠ d := fun heq => h.built.not_dir (heq ▸ hu.1)
      have hpte : pteOf s' e v = some w := by
        rw [hfs.pte h.built.inv.tables h.built.dir he hne (upages_lt hu.2.1),
          h.pte hu.1 (upages_lt hu.2.1)]
        exact hu.2.2
      have hmapped := (h'.maps.user e v w ⟨(hfs.dir he hne).1, hu.2.1, hpte⟩ hp).1
      rw [hframe, hfree] at hmapped
      cases hmapped
    · have hfd : f ≠ d := by
        rintro rfl
        rcases h.built.fresh with hf | hf
        · exact hused hf
        · exact huser hf
      have htab : ∀ i, own f ≠ .tab d i := by
        intro i ht
        rw [hrole] at ht
        exact h.built.not_dir (h.start.tables.tab_dir d i f ht).1
      have hstays := hfs.stays f (by rw [hrole]; exact huser) hfd htab
      rw [hfree, hrole] at hstays
      exact hused hstays.symm
  · intro hfree
    by_contra hused
    have hrole := hfs.roles f hused
    cases hown : own' f with
    | free => exact hused hown
    | dir => grind [h.dir_old]
    | tab e i =>
      obtain ⟨hd', hi⟩ := h'.tables.tab_dir e i f hown
      obtain ⟨he, hne⟩ := hdir e hd'
      have hold := h.dir_old he hne
      have htable : tableOf s e i = some f := (h.built.inv.tables.tab_iff e i f he hi).2 (hrole ▸ hown)
      rw [tableOf, h.left e (by rw [hold]; simp), ← tableOf] at htable
      rw [(h.start.tables.tab_iff e i f hold hi).1 htable] at hfree
      cases hfree
    | user =>
      obtain ⟨q, e, v, w, hu, hp, hframe, -⟩ := h'.maps.mapped f hown
      obtain ⟨he, hne⟩ := hdir e hu.1
      have hold := h.dir_old he hne
      have hpte : pteOf s₀ e v = some w := by
        rw [← h.pte hold (upages_lt hu.2.1),
          ← hfs.pte h.built.inv.tables h.built.dir he hne (upages_lt hu.2.1)]
        exact hu.2.2
      have huser := (h.start.maps.user e v w ⟨hold, hu.2.1, hpte⟩ hp).1
      rw [hframe, hfree] at huser
      cases huser
    | _ =>
      have hkernel := h.built.sameKernel f (.inr (by rw [← hrole, hown]; trivial))
      rw [← hrole, hown, hfree] at hkernel
      cases hkernel

theorem Fresh.wp_freevm {own₁ : Owners} (h : Fresh mode keep own₀ own d m s₀ s)
    (hbox : Sandbox (fun f => own₀ f ≠ .free) own₁ d n s)
    (hleaves : LeavesPages (fun f => own₀ f ≠ .free) n s₀ s)
    (hrss : (s₀.proc s₀.cur).rss < KERNBASE) {E : Halt → Prop} :
    wp (freevm d) s (fun _ s' => Restored s₀ s') E := by
  have hpages : ∀ v, v < n → ¬ own₀ (frameOf (entry s d v)) ≠ .free := by
    grind [hbox.pages, entry_of_pte]
  have hback := freevm_givesBack (P := fun f => own₀ f ≠ .free) h.built.inv h.built.dir h.built.unattached
    hbox.bound hbox.present hpages
  refine wp_conseq_and (freevm_spec h.built.inv h.built.dir h.built.unattached) hback ?_
  rintro - s' ⟨own', hinv', hfs⟩ hgives
  have hfree := h.free_iff hinv' hfs
  refine ⟨hgives.cur.trans hleaves.cur, ?_, fun f => ?_, fun f => ?_⟩
  · have hsum : (s₀.proc s₀.cur).rss + n * PGSIZE < 2 ^ 32 := by
      grind [hbox.bound, UPAGES, KERNBASE, PGSIZE]
    rw [hgives.procs, hleaves.cur, hleaves.procs, update_self, update_idem,
      dropPages_chargePages hsum]
    exact update_eq_self _ _
  · by_cases hf : own₀ f = .free
    · obtain ⟨hcount, hunused⟩ := h.start.rmap_free hf
      obtain ⟨hcount', hunused'⟩ := hinv'.rmap_free ((hfree f).2 hf)
      refine ⟨hcount'.trans hcount.symm, fun i hi => ?_, fun i hi hused => ?_⟩
      · rw [hunused i hi, hunused' i hi]
      · grind
    · rw [hgives.rmap f hf, hleaves.rmap f hf]
      exact Rmap.Same.refl _
  · rw [hinv'.frames.free_iff, h.start.frames.free_iff]
    exact hfree f

/-! ### The call -/

theorem Inv.execNew_restores (ip : File) {argv : List (List Byte)} (h : Inv mode own (attachOf s) s)
    (hfit : ArgsFit argv) (hrss : (s.proc s.cur).rss < KERNBASE) :
    wp (execNew noEvict ip argv) s (fun r s' => r = none → Restored s s') fun _ => True := by
  have hev : EvictOk mode true noEvict fun _ => True := evictOk_noEvict trivial
  -- all the ways to `bad` once there is a directory
  have hbad : ∀ {d sz : Nat} {m : Memory} {own₁ : Owners} {s₁ s2 : Kernel},
      Built mode true own own₁ d m s s2 → LeavesPages (fun f => own f ≠ .free) 0 s s₁ →
      Enlarged (fun f => own f ≠ .free) d 0 sz s₁ s2 →
      wp (do freevm d; pure none : K (Option Nat)) s2 (fun r s' => r = none → Restored s s')
        fun _ => True := by
    intro d sz m own₁ s₁ s2 hb hleaves hlarge
    obtain ⟨own2, hbox⟩ := hlarge.sandbox
    have hall := hleaves.trans hlarge.leaves
    rw [show 0 + (pagesOf sz - pagesOf 0) = pagesOf sz by simp [pagesOf, PGROUNDUP, PGSIZE]] at hall
    have hfresh : Fresh mode true own own₁ d m s s2 := ⟨h, hb, hall.mem⟩
    rw [wp_bind]
    exact wp_conseq (hfresh.wp_freevm hbox hall hrss) fun _ _ hres _ => hres
  unfold execNew
  refine wp_ite (fun _ _ => Restored.refl s) fun _ => wp_ite (fun _ _ => Restored.refl s) fun _ => ?_
  rw [wp_bind]
  refine wp_conseq_and (setupkvm_spec (c := 0) h (.inr hev))
    (setupkvm_sandbox (P := fun f => own f ≠ .free) h.paged fun _ hf => hf) ?_
  rintro r s₁ ⟨d, own₁, rfl, hspace, honly, -⟩ ⟨d', own2, hd', hbox, hleaves⟩
  cases hd'
  dsimp only
  rw [wp_bind]
  refine wp_conseq_and ((built_empty hspace honly).wp_execLoad hev)
    (Sandbox.execLoad (show Sandbox _ own2 d (pagesOf 0) s₁ from hbox)) ?_
  rintro r s2 ⟨own3, img, hb, hcase⟩ ⟨sz, hlarge, hr⟩
  rcases hcase with ⟨rfl, -⟩ | ⟨rfl, -⟩
  swap
  · exact hbad hb hleaves hlarge
  obtain rfl := hr _ rfl
  obtain ⟨own4, hbox2⟩ := hlarge.sandbox
  dsimp only
  rw [wp_bind]
  refine wp_conseq_and (hb.wp_execStack hev hfit) hbox2.execStack ?_
  rintro r s3 ⟨own5, mem, hb3, hcase⟩ ⟨sz, hlarge3, -⟩
  rcases hcase with ⟨sp, rfl, -⟩ | ⟨rfl, -⟩
  swap
  · exact hbad hb3 hleaves (hlarge.trans hlarge3)
  simp only [wp_bind, wp_get, wp_modify]
  refine wp_conseq (wp_trivial _) ?_
  rintro - s4 - hnone
  cases hnone

variable {path : Str} {argv : List (List Byte)} {m : Flat} {strict : Bool} {found : Option Nat} {fs : Fs}

/-- `exec` of any file returns, whatever the eviction routine, if no allocation finds the free
    list empty; and a call that fails leaves everything as it was. -/
theorem exec_returns_or_restores {s : ExecState} (evict : K Unit) (h : Refines mode own s.kernel m)
    (hstrict : mode.strict = false) (hrun : Runs s.kernel s.kernel.cur)
    (hrss : (s.kernel.proc s.kernel.cur).rss < KERNBASE) (hfs : FsInv strict [] s.fs)
    (hname : namei s.kernel.cur path s.fs = .ok (found, fs))
    (hfile : ∀ ip, found = some ip → (s.fs.inode ip).type = .file)
    (hargv : ∀ arg ∈ argv, arg.length < 2 ^ 24)
    (hroom : execCall noEvict path argv s ≠ .error .noEvict) :
    ∃ r s', execCall evict path argv s = .ok (r, s') ∧
      (r = 0 ∨ r = -1 ∧ Restored s.kernel s'.kernel ∧ s'.tf = s.tf ∧ s'.name = s.name ∧
        s'.outstanding = s.outstanding ∧ ∀ i, s'.fs.ref i = s.fs.ref i) := by
  cases found with
  | none =>
    obtain ⟨d, hd⟩ := namei_origin hname
    obtain ⟨-, hsame, hrefs, -⟩ := wp_ok (hfs.namei hd) hname
    refine ⟨-1, _, execCall_missing hname, .inr ⟨rfl, Restored.refl _, rfl, rfl, rfl, fun i => ?_⟩⟩
    show fs.ref i = s.fs.ref i
    rw [hrefs.refs, hsame.users, hfs.refs.refs]
    rfl
  | some ip =>
    have hfit : ArgsFit argv := fun arg harg => by
      have hlt := hargv arg harg
      omega
    obtain ⟨fs', hrefs, hcall⟩ := hfs.execCall_eq hname (by rw [hfile ip rfl]; decide)
    have hev : EvictOk mode true noEvict fun e => e = .noEvict := evictOk_noEvict rfl
    have hspec := h.wp_execNew (s.content ip) hev hrun hfit fun hm => by grind
    have hrestores := h.kinv.inv.execNew_restores (s.content ip) hfit hrss
    cases hnew : execNew noEvict (s.content ip) argv s.kernel with
    | error e =>
      have hstop : e = .noEvict := wp_error (E := (· = .noEvict)) hspec hnew
      subst hstop
      exact absurd (by rw [hcall, hnew]; rfl) hroom
    | ok x =>
      obtain ⟨out, k⟩ := x
      have hrun' := ((cautious_noEvict evict).execNew (s.content ip) argv).ok hnew
      refine ⟨_, _, by rw [hcall, hrun']; rfl, ?_⟩
      cases out with
      | some sp => exact .inl rfl
      | none => exact .inr ⟨rfl, wp_ok hrestores hnew rfl, rfl, rfl, rfl, hrefs⟩

omit [KernelImage] in
/-- A header that announces a segment the file does not have: the new space is given up. -/
theorem exec_returns_or_restores_first : letI := KernelImage.sample
    ∃ k s', boot 1 [7] Kernel.zero = .ok ((), k) ∧
      execCall findNewPageAfterSwapping [slash, 105] [[97]] (firstExec k 1) = .ok (-1, s') ∧
      Restored (firstExec k 1).kernel s'.kernel ∧ s'.outstanding = 0 := by
  let _ := KernelImage.sample
  have hfit : ArgsFit [[97]] := by
    intro arg harg
    rw [List.mem_singleton.1 harg]
    decide
  obtain ⟨k, own, x, fs', hboot, h, hrun, hrss, hnew, hcall⟩ :=
    firstExec_returns (n := 1) (by decide) hfit fun d => rfl
  obtain ⟨out, k'⟩ := x
  have hspec := h.wp_execNew (headerOnly 1) evictOk_plenty hrun hfit fun hm => by cases hm
  have hnone : Memory.load (headerOnly 1) (headerOnly 1).phnum ((headerOnly 1).word 28)
    Memory.empty = none := rfl
  obtain ⟨own', -, ⟨sp, img, mem, -, -, -, hl, -⟩ | ⟨rfl, -⟩⟩ := wp_ok hspec hnew
  · cases hnone.symm.trans hl.1
  obtain ⟨fs, hname⟩ := firstExec_found k 1
  have hstart : FsInv true [] (firstExec k 1).fs := start_inv imageNames_i
  have hsize : ((firstExec k 1).kernel.proc (firstExec k 1).kernel.cur).rss < KERNBASE := by
    rw [show ((firstExec k 1).kernel.proc (firstExec k 1).kernel.cur).rss = 0 from hrss]
    decide
  have hroom : execCall noEvict [slash, 105] [[97]] (firstExec k 1) ≠ .error .noEvict := by
    rw [hcall]
    intro hstop
    cases hstop
  have hret := exec_returns_or_restores findNewPageAfterSwapping h rfl hrun hsize hstart hname ?_ ?_ hroom
  · obtain ⟨r, s', hok, hor⟩ := hret
    obtain ⟨hr, -⟩ := Prod.mk.inj (Except.ok.inj ((hcall _).symm.trans hok))
    rcases hor with rfl | ⟨rfl, hrestored, -, -, hout, -⟩
    · simp at hr
    · exact ⟨k, s', hboot, hok, hrestored, hout⟩
  · intro ip hip
    cases hip
    rfl
  · intro arg harg
    rw [List.mem_singleton.1 harg]
    decide

end

end CowPaging
