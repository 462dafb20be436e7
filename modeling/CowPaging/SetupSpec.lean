import CowPaging.AllocSpec

/-!
# Building the kernel part of an address space

`setupkvm` takes one page for the directory and nine for tables: one for the
first 4 MB above `KERNBASE`, eight for the devices at the top of the address
space. The new directory has no user page, and its device pages are closed to
user code.
-/

namespace CowPaging

open Bytes StateExcept SlotTable
open Function (update_of_ne update_self update_idem update)

variable [KernelImage] {mode : Mode} {keep : Bool} {evict : K Unit} {E : Halt → Prop}
  {own own0 : Owners} {att : Attach} {s s' : Kernel} {d v : Nat} {ptr : PtePtr} {w : Word}

/-! ### Entries above `KERNBASE` -/

theorem Inv.kernStore (h : Inv mode own att s) (hst : PteStore own d v w s s')
    (hv : UPAGES ≤ v) (hS : has w PTE_S = false) (hrest : SameRest s s')
    (hrmap : s'.rmap = s.rmap) : Inv mode own att s' := by
  have hne : ∀ e u, u < UPAGES → ¬ (e = d ∧ u = v) := by
    rintro e u hu ⟨-, rfl⟩
    omega
  have hpte : ∀ e u, own e = .dir → u < UPAGES → pteOf s' e u = pteOf s e u := by
    grind [hst.pte, upages_lt]
  have hattpte : ∀ p e z u, att p = some (e, z) → u < UPAGES → pteOf s' e u = pteOf s e u :=
    fun p e z u hatt => hpte e u (h.procs.dir p e z hatt)
  refine ⟨h.frames.congr hrest.freelist, h.tables.store (SameMapRoles.refl own) hst.table, ?_, ?_,
    fun hm n hn => by rw [hrmap]; exact h.unshared hm n hn, hrest.procs.idle h,
    h.resident_congr hrest.slots, fun hm => ?_⟩
  · refine h.maps.of_upte ?_ ?_ (fun _ => Iff.rfl) ?_ hrmap
    · intro e u x _
      constructor
      · rintro ⟨he, hu, hx⟩
        exact ⟨he, hu, by rw [← hpte e u he hu]; exact hx⟩
      · rintro ⟨he, hu, hx⟩
        exact ⟨he, hu, by rw [hpte e u he hu]; exact hx⟩
    · intro e u q he _ hq
      rw [hst.slot he, hq]
    · intro e u x he hlo hhi hx
      rw [hst.pte e u he hhi] at hx
      by_cases heq : e = d ∧ u = v
      · grind
      · rw [if_neg heq] at hx
        exact h.maps.kern e u x he hlo hhi hx
  · refine h.procs.of_pte (fun _ he => he) ?_ ?_ ?_ hrest.slots
    · intro e u q he hq
      rw [hst.slot he, hq]
    · grind
    · grind
  · refine (h.slots hm).of_pte ?_ hrest.slots
    intro p e z u x hatt hu _
    rw [hattpte p e z u hatt hu]

/-! ### Drift around a directory under construction -/

omit [KernelImage] in
theorem Drift.restrict {V : Nat → Nat → Prop} (hret : Retains own0 own)
    (h : Drift own att V s s') : Drift own0 att V s s' where
  procs := h.procs
  table e i t he := h.table e i t (hret.of_dir he)
  fresh e u he := h.fresh e u (hret.of_dir he)
  pte e u x he := h.pte e u x (hret.of_dir he)
  refs e u x hu := h.refs e u x ⟨hret.of_dir hu.1, hu.2⟩
  view e u he := h.view e u (hret.of_dir he)
  held f hf := by grind [h.held, hret.of_held, hret.of_stack]

theorem drift_store {V : Nat → Nat → Prop} (h : Inv mode own att s) (hret : Retains own0 own)
    (hd : own d = .dir) (hd0 : own0 d ≠ .dir) (hv : v < 2 ^ 20)
    (hslot : pteSlot s d v = some ptr) (w : Word) :
    Drift own0 att V s (s.storeWord ptr.table ptr.index w) := by
  have hst := pteStore_storeWord h.tables hd hv hslot w
  have howner := h.tables.slot_owner hd hv hslot
  have hmem : ∀ g, g ≠ ptr.table → (s.storeWord ptr.table ptr.index w).mem g = s.mem g :=
    fun g hg => update_of_ne hg _ _
  have hpte : ∀ e u, own0 e = .dir → u < 2 ^ 20 →
      pteOf (s.storeWord ptr.table ptr.index w) e u = pteOf s e u := by grind [hst.pte, hret.of_dir]
  refine ⟨(sameRest_storeWord s _ _ w).procs, ?_, ?_, ?_, fun _ _ _ _ _ _ => rfl, ?_, ?_⟩
  · intro e i t he ht
    rw [hst.table e i (hret.of_dir he), ht]
  · intro e u he hu hnone
    exact .inl (by rw [hpte e u he hu, hnone])
  · grind [PteSim.refl]
  · intro e u he hu hvis
    obtain ⟨x, hx⟩ := h.view_some hvis
    refine SameView.of_eq hx ?_
    refine view_congr (hpte e u he (upages_lt hu)) (fun y hy hp => ?_) (fun _ => rfl) rfl
    have huser := (h.maps.user e u y ⟨hret.of_dir he, hu, hy⟩ hp).1
    refine hmem _ fun heq => ?_
    rw [heq, howner] at huser
    cases huser
  · intro f hf
    refine hmem f ?_
    rintro rfl
    rcases hf with hf | ⟨p, hf⟩
    · rw [hret.of_held hf] at howner
      cases howner
    · rw [hret.of_stack hf] at howner
      cases howner

omit [KernelImage] in
theorem Drift.entry_sim {V : Nat → Nat → Prop} (h : Drift own att V s s') (hd : own d = .dir)
    (hv : v < 2 ^ 20) (hne : ¬ Evictable V s d v (entry s d v)) :
    PteSim (entry s' d v) (entry s d v) := by
  cases hold : pteOf s d v with
  | none =>
    rw [entry_of_none hold]
    rcases h.fresh d v hd hv hold with h' | h'
    · rw [entry_of_none h']
      exact PteSim.refl 0
    · rw [entry_of_pte h']
      exact PteSim.refl 0
  | some x => grind [entry_of_pte, h.pte]

omit [KernelImage] in
theorem not_evictable {keep : Bool} (h : ¬ Tracked (attachOf s) d v) (w : Word) :
    ¬ Evictable (Victims keep s) s d v w := fun he => h he.2.2.1.1

omit [KernelImage] in
theorem not_tracked (h : ∀ p z, att p ≠ some (d, z)) : ¬ Tracked att d v :=
  fun ⟨p, z, hatt, _⟩ => h p z hatt

/-! ### `mappages` on kernel addresses -/

omit [KernelImage] in
theorem PteStore.entry_eq {d0 v0 : Nat} {w1 : Word} (hst : PteStore own d0 v0 w1 s s')
    (hd : own d = .dir) (hv : v < 2 ^ 20) :
    entry s' d v = if d = d0 ∧ v = v0 then w1 else entry s d v := by
  rw [entry, hst.pte d v hd hv]
  split <;> rfl

omit [KernelImage] in
theorem pteOf_of_entry {flag : Word} (h : has (entry s d v) flag = true) :
    pteOf s d v = some (entry s d v) := by
  cases hp : pteOf s d v with
  | none =>
    rw [entry_of_none hp, has_zero] at h
    cases h
  | some x => rw [entry_of_pte hp]

/-- Directory `d` was made after `s₀`, when the roles were `own₀`, and is not yet
    the directory of a process. -/
structure Space (mode : Mode) (keep : Bool) (own₀ own : Owners) (d : Nat) (s₀ s : Kernel) :
    Prop where
  fresh : own₀ d = .free ∨ own₀ d = .user
  detached : ∀ p z, attachOf s₀ p ≠ some (d, z)
  keeps : Keeps (update own₀ d .dir) own
  inv : Inv mode own (attachOf s) s
  drift : Drift own₀ (attachOf s₀) (Victims keep s₀) s₀ s

variable {s0 : Kernel}

theorem Space.dir (h : Space mode keep own0 own d s0 s) : own d = .dir :=
  h.keeps.retains.of_dir (update_self _ _ _)

theorem Space.not_dir (h : Space mode keep own0 own d s0 s) : own0 d ≠ .dir := by grind [h.fresh]

theorem Space.retains (h : Space mode keep own0 own d s0 s) : Retains own0 own :=
  (retains_update h.fresh).trans h.keeps.retains

theorem Space.unattached (h : Space mode keep own0 own d s0 s) (p z : Nat) :
    attachOf s p ≠ some (d, z) := by
  rw [h.drift.procs.attach]
  exact h.detached p z

theorem Space.step {own' : Owners} (h : Space mode keep own0 own d s0 s)
    (hkeeps : Keeps own own') (hinv : Inv mode own' (attachOf s) s')
    (hdrift : Drift own0 (attachOf s) (Victims keep s) s s') :
    Space mode keep own0 own' d s0 s' where
  fresh := h.fresh
  detached := h.detached
  keeps := h.keeps.trans hkeeps
  inv := by
    rw [hdrift.procs.attach]
    exact hinv
  drift := by
    rw [h.drift.procs.attach, h.drift.procs.victims] at hdrift
    exact h.drift.trans (fun _ _ hV => hV.1) (fun _ _ _ => rfl) hdrift

/-- Pages `lo` to `hi` of directory `d` are mapped for the kernel only. -/
structure KernMapped (d lo hi : Nat) (s s' : Kernel) : Prop where
  mapped : ∀ u, lo ≤ u → u ≤ hi →
    has (entry s' d u) PTE_P = true ∧ has (entry s' d u) PTE_U = false
  rest : ∀ u, u < 2 ^ 20 → u < lo ∨ hi < u → PteSim (entry s' d u) (entry s d u)

omit [KernelImage] in
theorem kern_pte_bits {x : Nat} {perm : Word} (hx : x < 2 ^ 20)
    (hperm : ∀ i, perm.getLsbD i = true → i = 1) :
    has (frameAddr x ||| perm ||| PTE_P) PTE_P = true ∧
      has (frameAddr x ||| perm ||| PTE_P) PTE_U = false ∧
      has (frameAddr x ||| perm ||| PTE_P) PTE_S = false := by
  have hbit : ∀ i, i ≠ 1 → perm.getLsbD i = false := by
    intro i hi
    cases h : perm.getLsbD i with
    | false => rfl
    | true => exact (hi (hperm i h)).elim
  refine ⟨by simp, ?_, ?_⟩
  · rw [has_U, BitVec.getLsbD_or, BitVec.getLsbD_or, frameAddr_low hx (by decide),
      hbit 2 (by decide), getLsbD_P]
    rfl
  · rw [has_S, BitVec.getLsbD_or, BitVec.getLsbD_or, frameAddr_low hx (by decide),
      hbit 7 (by decide), getLsbD_P]
    rfl

theorem mapOne_kern {c x : Nat} {perm : Word} (h : Space mode keep own0 own d s0 s)
    (hlo : UPAGES ≤ v) (hhi : v < 2 ^ 20) (hx : x < 2 ^ 20)
    (hperm : ∀ i, perm.getLsbD i = true → i = 1) (hfree : has (entry s d v) PTE_P = false)
    (hsup : Supply mode keep evict E (c + missing s d v) s) :
    wp (mapOne evict d (v * PGSIZE) (frameAddr x) perm) s (fun r s' => r = 0 ∧ ∃ own',
      Space mode keep own0 own' d s0 s' ∧ KernMapped d v v s s' ∧
      Supply mode keep evict E c s') E := by
  refine wp_conseq (mapOne_spec h.inv h.dir hhi hfree hsup) ?_
  rintro r s' ⟨hr, q, own', s1, hwalk, hsup1, rfl⟩
  obtain ⟨hP, hU, hS⟩ := kern_pte_bits hx hperm
  have hd' := hwalk.keeps.retains.of_dir h.dir
  have hst := pteStore_storeWord hwalk.inv.tables hd' hhi hwalk.slot
    (frameAddr x ||| perm ||| PTE_P)
  refine ⟨hr, own', h.step hwalk.keeps ?_ ?_, ⟨?_, ?_⟩, hsup1.congr rfl⟩
  · exact hwalk.inv.kernStore hst hlo hS (sameRest_storeWord _ _ _ _) rfl
  · exact (hwalk.drift.restrict h.retains).trans (fun _ _ hV => hV.1) (fun _ _ _ => rfl)
      (drift_store hwalk.inv (h.retains.trans hwalk.keeps.retains) hd' h.not_dir hhi hwalk.slot _)
  · intro u hlo' hhi'
    have hu : u = v := by omega
    subst hu
    rw [hst.entry_eq hd' hhi, if_pos ⟨rfl, rfl⟩]
    exact ⟨hP, hU⟩
  · intro u hu hne
    rw [hst.entry_eq hd' hu, if_neg (by omega)]
    exact hwalk.drift.entry_sim h.dir hu (not_evictable (not_tracked h.unattached) _)

omit [KernelImage] in
theorem missing_eq_zero {i : Nat} (h : pteSlot s d v = some ptr) (hi : i / 1024 = v / 1024) :
    missing s d i = 0 := by
  rw [missing, hi, (pteSlot_eq_some.1 h).1]
  rfl

omit [KernelImage] in
theorem missing_le_one (s : Kernel) (d v : Nat) : missing s d v ≤ 1 := by
  rw [missing]
  split <;> omega

omit [KernelImage] in
theorem KernMapped.slot {lo hi u : Nat} (h : KernMapped d lo hi s s') (hlo : lo ≤ u)
    (hhi : u ≤ hi) : ∃ q, pteSlot s' d u = some q := by
  obtain ⟨q, hq, -⟩ := pteOf_eq_some.1 (pteOf_of_entry (h.mapped u hlo hhi).1)
  exact ⟨q, hq⟩

omit [KernelImage] in
theorem KernMapped.append {s1 s2 : Kernel} {hi : Nat} (h : KernMapped d v v s s1)
    (h' : KernMapped d (v + 1) hi s1 s2) (hv : v < 2 ^ 20) (hhi : v ≤ hi) :
    KernMapped d v hi s s2 where
  mapped u hlo hle := by
    by_cases hu : u = v
    · subst hu
      have hsim := h'.rest u hv (.inl (by omega))
      obtain ⟨hP, hU⟩ := h.mapped u (Nat.le_refl u) (Nat.le_refl u)
      rw [hsim.present, has_U, hsim.bit (by decide), ← has_U]
      exact ⟨hP, hU⟩
    · exact h'.mapped u (by omega) hle
  rest u hu hne := (h.rest u hu (by omega)).trans (h'.rest u hu (by omega))

/-- The loop of `mappages` over kernel pages `v` to `v + n`. -/
theorem mappagesLoop_kern {perm : Word} (hperm : ∀ i, perm.getLsbD i = true → i = 1) {n : Nat} :
    ∀ {s : Kernel} {own : Owners} {v x c : Nat}, Space mode keep own0 own d s0 s → UPAGES ≤ v →
      v + n < 2 ^ 20 → x + n < 2 ^ 20 →
      (∀ u, v ≤ u → u ≤ v + n → has (entry s d u) PTE_P = false) →
      Supply mode keep evict E (c + ((v + n) / 1024 - v / 1024) + missing s d v) s →
      wp (mappagesLoop evict d perm n (v * PGSIZE) (frameAddr x)) s (fun r s' => r = 0 ∧
        ∃ own', Space mode keep own0 own' d s0 s' ∧ KernMapped d v (v + n) s s' ∧
          Supply mode keep evict E c s') E := by
  induction n with
  | zero =>
    intro s own v x c h hlo hhi hx hfree hsup
    exact mapOne_kern (c := c) h hlo hhi hx hperm (hfree v (Nat.le_refl v) (Nat.le_refl v))
      (hsup.mono (by omega))
  | succ n ih =>
    intro s own v x c h hlo hhi hx hfree hsup
    rw [mappagesLoop, wp_bind]
    refine wp_conseq (mapOne_kern (c := c + ((v + (n + 1)) / 1024 - v / 1024)) h hlo (by omega)
      (by omega) hperm (hfree v (Nat.le_refl v) (by omega)) hsup) ?_
    rintro r s1 ⟨rfl, own1, h1, hmap, hsup1⟩
    have hnext : (v * PGSIZE + PGSIZE) % 2 ^ 32 = (v + 1) * PGSIZE := by
      simp only [PGSIZE]
      omega
    have hpa : frameAddr x + BitVec.ofNat 32 PGSIZE = frameAddr (x + 1) := by
      rw [frameAddr, frameAddr, ← BitVec.ofNat_add, Nat.succ_mul]
    rw [if_neg (by decide), hnext, hpa]
    have hfree1 : ∀ u, v + 1 ≤ u → u ≤ v + 1 + n → has (entry s1 d u) PTE_P = false := by
      intro u hu hu'
      rw [(hmap.rest u (by omega) (by omega)).present]
      exact hfree u (by omega) (by omega)
    -- the next page is in the same table, or in the next one
    have hsup2 : Supply mode keep evict E
        (c + ((v + 1 + n) / 1024 - (v + 1) / 1024) + missing s1 d (v + 1)) s1 := by
      refine hsup1.mono ?_
      obtain ⟨q, hq⟩ := hmap.slot (Nat.le_refl v) (Nat.le_refl v)
      have hle := missing_le_one s1 d (v + 1)
      by_cases htab : (v + 1) / 1024 = v / 1024
      · rw [missing_eq_zero hq htab]
        omega
      · omega
    refine wp_conseq (ih h1 (by omega) (by omega) (by omega) hfree1 hsup2) ?_
    rintro r s2 ⟨hr, own2, h2, hmap2, hsup'⟩
    rw [show v + 1 + n = v + (n + 1) by omega] at hmap2
    exact ⟨hr, own2, h2, hmap.append hmap2 (by omega) (by omega), hsup'⟩

/-! ### `setupkvm` -/

/-- One entry of `kmap`, then the rest of the list. -/
theorem mapKernel_cons {k : Kmap} {rest : List Kmap} {n x c : Nat} {Q : Bool → Kernel → Prop}
    (hvirt : k.virt = v * PGSIZE)
    (hsize : (k.physEnd + 2 ^ 32 - k.physStart) % 2 ^ 32 = (n + 1) * PGSIZE)
    (hpa : BitVec.ofNat 32 k.physStart = frameAddr x)
    (hperm : ∀ i, k.perm.getLsbD i = true → i = 1) (h : Space mode keep own0 own d s0 s)
    (hlo : UPAGES ≤ v) (hhi : v + n < 2 ^ 20) (hx : x + n < 2 ^ 20)
    (hfree : ∀ u, v ≤ u → u ≤ v + n → has (entry s d u) PTE_P = false)
    (hsup : Supply mode keep evict E (c + ((v + n) / 1024 - v / 1024) + missing s d v) s)
    (hrest : ∀ own1 s1, Space mode keep own0 own1 d s0 s1 → KernMapped d v (v + n) s s1 →
      Supply mode keep evict E c s1 → wp (mapKernel evict d rest) s1 Q E) :
    wp (mapKernel evict d (k :: rest)) s Q E := by
  rw [mapKernel, wp_bind, hvirt, hsize, hpa, mappages_pages hhi]
  refine wp_conseq (mappagesLoop_kern hperm h hlo hhi hx hfree hsup) ?_
  rintro r s1 ⟨rfl, own1, h1, hmap, hsup1⟩
  rw [if_neg (by decide)]
  exact hrest own1 s1 h1 hmap hsup1

omit [KernelImage] in
theorem kern_perm_W : ∀ i, PTE_W.getLsbD i = true → i = 1 := by simp_all

omit [KernelImage] in
theorem kern_perm_zero : ∀ i, (0 : Word).getLsbD i = true → i = 1 := by
  intro i hi
  simp at hi

/-- The directory has no user page, and its device pages are closed to users. -/
structure KernelOnly (d : Nat) (s : Kernel) : Prop where
  empty : ∀ u, u < UPAGES → entry s d u = 0
  device : ∀ u, DEVSPACE / PGSIZE ≤ u → u < 2 ^ 20 →
    has (entry s d u) PTE_P = true ∧ has (entry s d u) PTE_U = false

/-- The loop of `setupkvm` over `kmap`, from a directory without entries. -/
theorem mapKernel_spec {c : Nat} (h : Space mode keep own0 own d s0 s)
    (hzero : ∀ u, u < 2 ^ 20 → entry s d u = 0) (hsup : Supply mode keep evict E (c + 9) s) :
    wp (mapKernel evict d kmap) s (fun r s' => r = true ∧ ∃ own',
      Space mode keep own0 own' d s0 s' ∧ KernelOnly d s' ∧ Supply mode keep evict E c s') E := by
  have htext := KernelImage.text_pos
  have hdata := KernelImage.data_le
  have hend := KernelImage.end_lt
  simp only [EXTMEM, PGSIZE, NFRAMES, PHYSTOP] at htext hend
  have hP : has (0 : Word) PTE_P = false := has_zero _
  have hle := missing_le_one s d 524288
  -- I/O space
  refine mapKernel_cons (v := 524288) (n := 255) (x := 0) (c := c + 8) rfl rfl rfl kern_perm_W h
    (by decide) (by decide) (by decide) ?_ (hsup.mono (by omega)) ?_
  · intro u _ hu
    rw [hzero u (by omega), hP]
  intro own1 s1 h1 hmap1 hsup1
  obtain ⟨q1, hq1⟩ := hmap1.slot (Nat.le_refl 524288) (by decide)
  -- kernel text
  refine mapKernel_cons (v := 524544) (n := KernelImage.dataPage - 257) (x := 256) (c := c + 8)
    rfl ?_ rfl kern_perm_zero h1 (by decide) (by omega) (by omega) ?_ ?_ ?_
  · simp only [EXTMEM, PGSIZE]
    omega
  · intro u hu hu'
    rw [(hmap1.rest u (by omega) (by omega)).present, hzero u (by omega), hP]
  · rw [missing_eq_zero hq1 (by decide)]
    exact hsup1.mono (by omega)
  intro own2 s2 h2 hmap2 hsup2
  obtain ⟨q2, hq2⟩ := hmap2.slot (Nat.le_refl 524544) (by omega)
  -- kernel data and free memory
  refine mapKernel_cons (v := 524288 + KernelImage.dataPage) (n := 1023 - KernelImage.dataPage)
    (x := KernelImage.dataPage) (c := c + 8) ?_ ?_ rfl kern_perm_W h2 ?_ (by omega) (by omega)
    ?_ ?_ ?_
  · simp only [KERNBASE, PGSIZE]
    omega
  · simp only [PHYSTOP, PGSIZE]
    omega
  · simp only [UPAGES, KERNBASE, PGSIZE]
    omega
  · intro u hu hu'
    rw [(hmap2.rest u (by omega) (by omega)).present,
      (hmap1.rest u (by omega) (by omega)).present, hzero u (by omega), hP]
  · rw [missing_eq_zero hq2 (by omega)]
    exact hsup2.mono (by omega)
  intro own3 s3 h3 hmap3 hsup3
  have hle3 := missing_le_one s3 d 1040384
  -- devices
  refine mapKernel_cons (v := 1040384) (n := 8191) (x := 1040384) (c := c) rfl rfl rfl
    kern_perm_W h3 (by decide) (by decide) (by decide) ?_ (hsup3.mono (by omega)) ?_
  · intro u hu hu'
    rw [(hmap3.rest u (by omega) (by omega)).present,
      (hmap2.rest u (by omega) (by omega)).present,
      (hmap1.rest u (by omega) (by omega)).present, hzero u (by omega), hP]
  intro own4 s4 h4 hmap4 hsup4
  rw [mapKernel, wp_pure]
  refine ⟨rfl, own4, h4, ⟨?_, ?_⟩, hsup4⟩
  · intro u hu
    have hlt : u < 524288 := by
      simp only [UPAGES, KERNBASE, PGSIZE] at hu
      omega
    have hsim := (((hmap1.rest u (by omega) (by omega)).trans
      (hmap2.rest u (by omega) (by omega))).trans
      (hmap3.rest u (by omega) (by omega))).trans (hmap4.rest u (by omega) (by omega))
    rw [hzero u (by omega)] at hsim
    exact hsim.eq_of_absent hP
  · intro u hu hu'
    simp only [DEVSPACE, PGSIZE] at hu
    exact hmap4.mapped u (by omega) (by omega)

theorem setupkvm_spec {c : Nat} (h : Inv mode own (attachOf s) s)
    (hsup : Supply mode keep evict E (c + 10) s) :
    wp (setupkvm evict) s (fun r s' => ∃ d own', r = some d ∧
      Space mode keep own own' d s s' ∧ KernelOnly d s' ∧ Supply mode keep evict E c s') E := by
  unfold setupkvm
  rw [wp_bind]
  refine wp_conseq (kalloc_spec (c := c + 9) h hsup) ?_
  rintro - s1 ⟨f, rfl, hf, hinv, hdrift, -, hsup1⟩
  simp only [memset, wp_bind, wp_modify]
  rw [if_neg (by decide), wp_bind]
  have hheld : update own f .held f = .held := update_self _ _ _
  have hret : Retains own (update own f .held) := retains_update hf
  have hinv2 := hinv.newDir hheld
  rw [update_idem] at hinv2
  have hdrift2 : Drift own (attachOf s) (Victims keep s) s (s1.setPage f fun _ => 0) :=
    hdrift.trans (fun _ _ hV => hV.1) (fun _ _ _ => rfl) (drift_fill hinv hret hf hheld _)
  have hspace : Space mode keep own (update own f .dir) f s
      (s1.setPage f fun _ => 0) := by
    refine ⟨hf, ?_, Keeps.refl _, ?_, hdrift2⟩
    · intro p z hatt
      have hdir := h.procs.dir p f z hatt
      rcases hf with hf | hf <;> rw [hdir] at hf <;> cases hf
    · rw [hdrift2.procs.attach]
      exact hinv2
  refine wp_conseq (mapKernel_spec hspace ?_ (hsup1.congr rfl)) ?_
  · intro u _
    exact entry_of_none (pteOf_none_iff.2 (tableOf_zero f _))
  rintro r s2 ⟨rfl, own', hspace', honly, hsup2⟩
  exact ⟨f, own', rfl, hspace', honly, hsup2⟩

end CowPaging
