import CowPaging.CopySpec
import CowPaging.Flat

/-!
# Building a program image

`exec` fills a directory that no process uses yet. `Built` says that the directory
shows the memory of the reference machine, page for page, and each function of
`exec.c` and `vm.c` that fills it moves it as the reference machine does. Nobody
sees anything of it, and an image that cannot be finished fails on both sides.
-/

namespace CowPaging

open Bytes StateExcept SlotTable
open Function (update_of_ne update_self update)

variable [KernelImage] {mode : Mode} {keep : Bool} {evict : K Unit} {E : Halt → Prop}
  {own own0 own' : Owners} {att : Attach} {s s0 s' : Kernel} {d v : Nat} {ptr : PtePtr}
  {m m' : Memory}

/-- The unused directory `d` shows the memory `m`. -/
structure Built (mode : Mode) (keep : Bool) (own₀ own : Owners) (d : Nat) (m : Memory)
    (s₀ s : Kernel) : Prop where
  fresh : own₀ d = .free ∨ own₀ d = .user
  detached : ∀ p z, attachOf s₀ p ≠ some (d, z)
  keeps : Keeps (update own₀ d .dir) own
  inv : Inv mode own (attachOf s) s
  pres : Preserves own₀ (attachOf s₀) s₀ s
  quiet : Quiet own₀ (attachOf s₀) (fun _ _ => False) s₀ s
  stays : Stays keep own₀ d s₀ s
  size : m.sz ≤ KERNBASE
  shows : ∀ v, v < pagesOf m.sz → Shows s d v (m.page v) (m.user v)
  writable : ∀ v, v < pagesOf m.sz → has (entry s d v) PTE_W = true
  empty : ∀ v, pagesOf m.sz ≤ v → v < UPAGES → entry s d v = 0
  device : ∀ v, DEVSPACE / PGSIZE ≤ v → v < 2 ^ 20 →
    has (entry s d v) PTE_P = true ∧ has (entry s d v) PTE_U = false

theorem Built.dir (h : Built mode keep own0 own d m s0 s) : own d = .dir :=
  h.keeps.retains.of_dir (update_self _ _ _)

theorem Built.not_dir (h : Built mode keep own0 own d m s0 s) : own0 d ≠ .dir := by
  rcases h.fresh with hf | hf <;> rw [hf] <;> exact Owner.noConfusion

theorem Built.sameKernel (h : Built mode keep own0 own d m s0 s) : SameKernel own0 own :=
  (sameKernel_newDir h.fresh).trans h.keeps.sameKernel

theorem Built.retains (h : Built mode keep own0 own d m s0 s) : Retains own0 own :=
  (retains_update h.fresh).trans h.keeps.retains

theorem Built.unattached (h : Built mode keep own0 own d m s0 s) (p z : Nat) :
    attachOf s p ≠ some (d, z) := by
  rw [h.pres.procs.attach]
  exact h.detached p z

theorem Built.upages (h : Built mode keep own0 own d m s0 s) (hv : v < pagesOf m.sz) : v < UPAGES :=
  Nat.lt_of_lt_of_le hv (pagesOf_le h.size)

theorem Built.upte (h : Built mode keep own0 own d m s0 s) (hv : v < pagesOf m.sz) :
    Upte own s d v (entry s d v) ∧ has (entry s d v) PTE_P = true ∧
      has (entry s d v) PTE_U = m.user v := by
  obtain ⟨w, hw, hp, hU, -⟩ := h.shows v hv
  rw [entry_of_pte hw]
  exact ⟨⟨h.dir, h.upages hv, hw⟩, hp, hU⟩

theorem built_empty (h : Space mode keep own0 own d s0 s) (honly : KernelOnly d s) :
    Built mode keep own0 own d Memory.empty s0 s where
  fresh := h.fresh
  detached := h.detached
  keeps := h.keeps
  inv := h.inv
  pres := h.drift.preserves fun _ _ hV => hV.1
  quiet := h.drift.quiet fun _ _ hV => hV.1
  stays := h.drift.stays
  size := Nat.zero_le _
  shows v hv := absurd hv (Nat.not_lt_zero v)
  writable v hv := absurd hv (Nat.not_lt_zero v)
  empty v _ hv := honly.empty v hv
  device := honly.device

/-! ### Growing the image -/

theorem Built.grow {newsz : Nat} (h : Built mode keep own0 own d m s0 s)
    (hgrew : Grew mode keep own own' d (pagesOf m.sz) (pagesOf newsz) s s') (hle : m.sz ≤ newsz)
    (hsize : newsz ≤ KERNBASE) : Built mode keep own0 own' d (m.grow newsz) s0 s' := by
  have hatt := hgrew.pres.procs.attach
  have hnt : ∀ u, ¬ Tracked (attachOf s) d u := fun u => not_tracked h.unattached
  have hpages : pagesOf m.sz ≤ pagesOf newsz := by
    simp only [pagesOf, PGROUNDUP, PGSIZE]
    omega
  have hup : pagesOf newsz ≤ UPAGES := pagesOf_le hsize
  refine ⟨h.fresh, h.detached, h.keeps.trans hgrew.keeps, by rw [hatt]; exact hgrew.inv, ?_, ?_,
    h.stays.trans h.retains h.pres.procs hgrew.stays, hsize, ?_, ?_, ?_, ?_⟩
  · refine h.pres.trans h.retains ?_
    rw [← h.pres.procs.attach]
    exact hgrew.pres
  · refine h.quiet.trans (fun _ _ _ => rfl) ?_
    rw [← h.pres.procs.attach]
    refine (hgrew.quiet.restrict h.retains).mono ?_
    rintro e - he rfl
    exact h.not_dir he
  · intro v hv
    simp only [Memory.grow]
    by_cases hold : v < pagesOf m.sz
    · rw [if_pos hold, if_pos hold]
      exact hgrew.pres.shows h.dir (h.upages hold) (hnt v) (h.shows v hold)
    · rw [if_neg hold, if_neg hold]
      exact hgrew.zeroed v (Nat.le_of_not_lt hold) hv
  · intro v hv
    by_cases hold : v < pagesOf m.sz
    · have hsim := hgrew.rest v (.inl hold) (upages_lt (h.upages hold)) (hnt v)
      exact (hsim.has_bit (k := 1) (by decide) (by decide)).trans (h.writable v hold)
    · exact hgrew.writable v (Nat.le_of_not_lt hold) hv
  · intro v hlo hhi
    simp only [Memory.grow] at hlo
    have hsim := hgrew.rest v (.inr hlo) (upages_lt hhi) (hnt v)
    rw [h.empty v (Nat.le_trans hpages hlo) hhi] at hsim
    exact hsim.eq_of_absent (has_zero _)
  · intro v hlo hhi
    have hhigh : pagesOf newsz ≤ v := by
      have : UPAGES ≤ DEVSPACE / PGSIZE := by decide
      omega
    have hsim := hgrew.rest v (.inr hhigh) hhi (hnt v)
    rw [hsim.present]
    exact ⟨(h.device v hlo hhi).1,
      (hsim.has_bit (k := 2) (by decide) (by decide)).trans (h.device v hlo hhi).2⟩

/-- `allocuvm` on the image: the reference machine's answer, and its memory if it
    has one. -/
theorem Built.wp_allocuvm (hev : EvictOk mode keep evict E)
    (h : Built mode keep own0 own d m s0 s) (newsz : Nat) :
    wp (allocuvm evict d m.sz newsz) s (fun r s' => ∃ own' m',
      Built mode keep own0 own' d m' s0 s' ∧
      ((m.alloc newsz = some m' ∧ r = m'.sz ∧ r ≠ 0 ∧ newsz ≤ m'.sz) ∨
        (m.alloc newsz = none ∧ r = 0))) E := by
  refine wp_conseq (allocuvm_spec hev h.inv h.dir
    (fun u hlo hhi => by rw [h.empty u hlo hhi, has_zero])
    fun u _ => not_tracked h.unattached) ?_
  rintro r s' (⟨hbig, rfl, rfl⟩ | ⟨hlt, hsmall, rfl, rfl⟩ | ⟨hlt, hle, rfl, own', hgrew⟩)
  · grind [Memory.alloc]
  · grind [Memory.alloc, Nat.not_le.2]
  · have hb := h.grow hgrew hle (Nat.le_of_lt hlt)
    by_cases hzero : r = 0
    · grind [Memory.alloc, Nat.not_le.2, Nat.not_lt.2]
    · refine ⟨own', _, hb, .inl ⟨?_, rfl, hzero, Nat.le_refl _⟩⟩
      rw [Memory.alloc, if_neg (Nat.not_le.2 hlt), if_neg (Nat.not_lt.2 hle), if_neg hzero]

/-! ### Filling the image -/

theorem Built.setPage {page : Page} (h : Built mode keep own0 own d m s0 s) (hv : v < pagesOf m.sz) :
    Built mode keep own0 own d { m with page := update m.page v page } s0
      (s.setPage (frameOf (entry s d v)) page) := by
  obtain ⟨hu, hp, -⟩ := h.upte hv
  have hW := h.writable v hv
  have huser := (h.inv.maps.user d v _ hu hp).1
  have hnmap : ¬ (own (frameOf (entry s d v))).isMap := by rw [huser]; exact id
  have hpte : ∀ e u, own e = .dir → u < 2 ^ 20 →
      pteOf (s.setPage (frameOf (entry s d v)) page) e u = pteOf s e u :=
    fun e u he hlt => (sameMaps_setPage hnmap).pte h.inv.tables he hlt
  have hentry : ∀ u, u < 2 ^ 20 →
      entry (s.setPage (frameOf (entry s d v)) page) d u = entry s d u :=
    fun u hlt => congrArg (fun x => x.getD 0) (hpte d u h.dir hlt)
  refine ⟨h.fresh, h.detached, h.keeps, h.inv.setPage hnmap, ?_,
    h.quiet.trans h.retains (quiet_of_pte hpte),
    h.stays.trans h.retains h.pres.procs (stays_of_pte hpte), h.size, ?_, ?_, ?_, ?_⟩
  · refine h.pres.trans (fun _ _ _ => rfl) ⟨⟨fun _ => rfl, rfl, rfl, rfl⟩, ?_, ?_⟩
    · intro e u he hlt hvis
      rw [← h.pres.procs.attach] at hvis ⊢
      refine seen_setPage page h.inv hu hp hW (h.retains.of_dir he) hlt (fun heq => ?_) hvis
      exact h.not_dir (heq.1 ▸ he)
    · intro f hf
      refine update_of_ne ?_ _ _
      rintro rfl
      rcases hf with hf | ⟨p, hf⟩
      · exact Owner.noConfusion (huser.symm.trans (h.retains.of_held hf))
      · exact Owner.noConfusion (huser.symm.trans (h.retains.of_stack hf))
  · intro u hlt
    obtain ⟨w, hw, hpw, hU, hbytes⟩ := h.shows u hlt
    have hw' := (hpte d u h.dir (upages_lt (h.upages hlt))).trans hw
    by_cases heq : u = v
    · subst heq
      refine ⟨w, hw', hpw, hU, fun o _ => ?_⟩
      rw [entry_of_pte hw]
      simp [Kernel.setPage]
    · refine ⟨w, hw', hpw, hU, fun o ho => ?_⟩
      have hne : frameOf w ≠ frameOf (entry s d v) := fun hf =>
        heq (h.inv.maps.once d u v _ _ ⟨h.dir, h.upages hlt, hw⟩ hu hpw hp hf)
      simp only [Kernel.setPage, update_of_ne hne, update_of_ne heq]
      exact hbytes o ho
  · intro u hlt
    rw [hentry u (upages_lt (h.upages hlt))]
    exact h.writable u hlt
  · intro u hlo hhi
    rw [hentry u (upages_lt hhi)]
    exact h.empty u hlo hhi
  · grind [h.device]

theorem Built.congr (h : Built mode keep own0 own d m s0 s) (hsz : m'.sz = m.sz)
    (huser : m'.user = m.user)
    (hpage : ∀ v o, v < pagesOf m.sz → o < PGSIZE → m.page v o = m'.page v o) :
    Built mode keep own0 own d m' s0 s := by
  refine ⟨h.fresh, h.detached, h.keeps, h.inv, h.pres, h.quiet, h.stays, ?_, ?_, ?_, ?_,
    h.device⟩ <;>
    rw [hsz]
  · exact h.size
  · intro v hv
    obtain ⟨w, hw, hp, hU, hbytes⟩ := h.shows v hv
    exact ⟨w, hw, hp, by rw [hU, huser], fun o ho => (hbytes o ho).trans (hpage v o hv ho)⟩
  · exact h.writable
  · exact h.empty

theorem Built.copyIn (h : Built mode keep own0 own d m s0 s) (o : Nat) (bytes : List Byte)
    (hv : v < pagesOf m.sz) :
    Built mode keep own0 own d (m.copyIn v o bytes) s0
      (s.copyIn (frameOf (entry s d v)) o bytes) := by
  refine (h.setPage hv).congr rfl rfl fun u i _ hi => ?_
  obtain ⟨w, hw, -, -, hbytes⟩ := h.shows v hv
  by_cases heq : u = v
  · subst heq
    simp only [Memory.copyIn, update_self, entry_of_pte hw, hbytes i hi]
  · simp only [Memory.copyIn, update_of_ne heq]

theorem Built.walk {Q : Option PtePtr → Kernel → Prop} {va : Nat}
    (h : Built mode keep own0 own d m s0 s) (hv : va / PGSIZE < pagesOf m.sz)
    (hQ : ∀ ptr, pteAt s ptr = entry s d (va / PGSIZE) →
      frameOf (entry s d (va / PGSIZE)) < NFRAMES → Q (some ptr) s) :
    wp (walkpgdir d va) s Q E := by
  obtain ⟨hu, hp, -⟩ := h.upte hv
  obtain ⟨ptr, hslot, hword⟩ := hu.exists_slot
  have hlt : va < 2 ^ 32 := by
    have := h.upages hv
    simp only [UPAGES, KERNBASE, PGSIZE] at this
    omega
  rw [h.inv.walk h.dir hlt, hslot]
  exact hQ ptr hword (h.inv.frame_lt hu hp)

theorem Built.wp_loaduvmLoop {ip : File} {addr offset sz : Nat} (haddr : addr % PGSIZE = 0) :
    ∀ {left i : Nat} {m : Memory} {s : Kernel}, Built mode keep own0 own d m s0 s → i % PGSIZE = 0 →
      (addr + i) / PGSIZE + left ≤ pagesOf m.sz →
      wp (loaduvmLoop d addr ip offset sz left i) s (fun r s' => ∃ m',
        Built mode keep own0 own d m' s0 s' ∧
        ((r = 0 ∧ Memory.loadLoop ip addr offset sz left i m = some m' ∧ m'.sz = m.sz) ∨
          (r = -1 ∧ Memory.loadLoop ip addr offset sz left i m = none))) E := by
  intro left
  induction left with
  | zero =>
    intro i m s h _ _
    exact ⟨m, h, .inl ⟨rfl, rfl, rfl⟩⟩
  | succ left ih =>
    intro i m s h hi hfit
    rw [loaduvmLoop, wp_bind]
    refine h.walk (by omega) fun ptr hword hlt => ?_
    simp only [wp_bind, wp_loadPte, hword, if_pos hlt, wp_modify]
    have hcopy := fun bytes =>
      h.copyIn 0 bytes (show (addr + i) / PGSIZE < pagesOf m.sz by omega)
    rw [Memory.loadLoop]
    generalize hn : (if sz - i < PGSIZE then sz - i else PGSIZE) = n
    by_cases hgot : readi ip ((offset + i) % 2 ^ 32) n = n
    · rw [if_neg (not_not.2 hgot), if_neg (not_not.2 hgot)]
      refine ih (hcopy _) ?_ ?_
      · simp only [PGSIZE] at hi ⊢
        omega
      · simp only [Memory.copyIn]
        simp only [PGSIZE] at hfit hi haddr ⊢
        omega
    · rw [if_pos hgot, if_pos hgot]
      exact ⟨_, hcopy _, .inr ⟨rfl, rfl⟩⟩

theorem Built.wp_execLoad {ip : File} (hev : EvictOk mode keep evict E) :
    ∀ {left off : Nat} {m : Memory} {own : Owners} {s : Kernel},
      Built mode keep own0 own d m s0 s →
      wp (execLoad evict d ip left off m.sz) s (fun r s' => ∃ own' m',
        Built mode keep own0 own' d m' s0 s' ∧
        ((r = some m'.sz ∧ Memory.load ip left off m = some m') ∨
          (r = none ∧ Memory.load ip left off m = none))) E := by
  intro left
  induction left with
  | zero =>
    intro off m own s h
    exact ⟨own, m, h, .inl ⟨rfl, rfl⟩⟩
  | succ left ih =>
    intro off m own s h
    rw [execLoad, Memory.load]
    dsimp only
    generalize ip.proghdr off = ph
    by_cases hread : readi ip off sizeofProghdr ≠ sizeofProghdr
    · rw [if_pos hread, if_pos hread]
      exact ⟨own, m, h, .inr ⟨rfl, rfl⟩⟩
    rw [if_neg hread, if_neg hread]
    by_cases htype : ph.type ≠ ELF_PROG_LOAD
    · rw [if_pos htype, if_pos htype]
      exact ih h
    rw [if_neg htype, if_neg htype]
    by_cases hmem : ph.memsz < ph.filesz
    · rw [if_pos hmem, if_pos hmem]
      exact ⟨own, m, h, .inr ⟨rfl, rfl⟩⟩
    rw [if_neg hmem, if_neg hmem]
    by_cases hwrap : 2 ^ 32 ≤ ph.vaddr + ph.memsz
    · rw [if_pos hwrap, if_pos hwrap]
      exact ⟨own, m, h, .inr ⟨rfl, rfl⟩⟩
    rw [if_neg hwrap, if_neg hwrap, wp_bind]
    refine wp_conseq (h.wp_allocuvm hev _) ?_
    rintro r s1 ⟨own1, m1, h1, ⟨halloc, rfl, hne, hle⟩ | ⟨halloc, rfl⟩⟩
    · rw [halloc, if_neg hne]
      dsimp only
      by_cases halign : ph.vaddr % PGSIZE ≠ 0
      · rw [if_pos halign, if_pos halign]
        exact ⟨own1, m1, h1, .inr ⟨rfl, rfl⟩⟩
      rw [if_neg halign, if_neg halign, wp_bind, loaduvm, if_neg halign]
      have hal : ph.vaddr % PGSIZE = 0 := not_not.1 halign
      refine wp_conseq (Built.wp_loaduvmLoop hal h1 rfl ?_) ?_
      · simp only [pagesOf, PGROUNDUP, PGSIZE] at hle hal ⊢
        omega
      · rintro r s2 ⟨m2, h2, ⟨rfl, hload, hsz⟩ | ⟨rfl, hload⟩⟩
        · rw [hload, if_neg (by decide), ← hsz]
          exact ih h2
        · rw [hload, if_pos (by decide)]
          exact ⟨own1, m2, h2, .inr ⟨rfl, rfl⟩⟩
    · rw [halloc, if_pos rfl]
      exact ⟨own1, m1, h1, .inr ⟨rfl, rfl⟩⟩

/-! ### The guard page -/

omit [KernelImage] in
theorem clearU_bit (w : Word) {i : Nat} (hi : i ≠ 2) :
    (w &&& ~~~PTE_U).getLsbD i = w.getLsbD i :=
  and_not_flag_bit (k := 2) w (by decide) hi

omit [KernelImage] in
theorem clearU_user (w : Word) : has (w &&& ~~~PTE_U) PTE_U = false := by simp_all

theorem Built.wp_clearpteu {uva : Nat} (h : Built mode keep own0 own d m s0 s)
    (hv : uva / PGSIZE < pagesOf m.sz) :
    wp (clearpteu d uva) s (fun _ s' =>
      Built mode keep own0 own d { m with user := update m.user (uva / PGSIZE) false } s0 s')
      E := by
  obtain ⟨hu, hp, -⟩ := h.upte hv
  obtain ⟨ptr, hslot, hword⟩ := hu.exists_slot
  have hlt : uva < 2 ^ 32 := by
    have := h.upages hv
    simp only [UPAGES, KERNBASE, PGSIZE] at this
    omega
  unfold clearpteu
  rw [wp_bind, h.inv.walk h.dir hlt, hslot]
  simp only [wp_bind, wp_loadPte, wp_storePte, hword]
  generalize uva / PGSIZE = v at *
  have hv20 := upages_lt (h.upages hv)
  have hbit : ∀ {k : Nat}, k < 32 → k ≠ 2 →
      has (entry s d v &&& ~~~PTE_U) (BitVec.twoPow 32 k) =
        has (entry s d v) (BitVec.twoPow 32 k) := fun hk hne => by
    rw [has_twoPow _ _ hk, has_twoPow _ _ hk, clearU_bit _ hne]
  have hframe : frameOf (entry s d v &&& ~~~PTE_U) = frameOf (entry s d v) :=
    frameOf_congr fun i hi => clearU_bit _ (by omega)
  have hP : has (entry s d v &&& ~~~PTE_U) PTE_P = true :=
    (hbit (k := 0) (by decide) (by decide)).trans hp
  have hW : has (entry s d v &&& ~~~PTE_U) PTE_W = true :=
    (hbit (k := 1) (by decide) (by decide)).trans (h.writable v hv)
  have hS : has (entry s d v &&& ~~~PTE_U) PTE_S = false :=
    (hbit (k := 7) (by decide) (by decide)).trans (h.inv.maps.user d v _ hu hp).2
  have hU := clearU_user (entry s d v)
  generalize entry s d v &&& ~~~PTE_U = x at hframe hP hW hS hU
  have hst := pteStore_storeWord h.inv.tables h.dir hv20 hslot x
  have hinv : Inv mode own (attachOf s) (s.storeWord ptr.table ptr.index x) :=
    h.inv.flags hst (sameRest_storeWord _ _ _ _) rfl hu hp hP hframe hS
      fun _ => h.inv.maps.writable d v _ hu hp (h.writable v hv)
  have hdrift : Drift own0 (attachOf s) (fun _ _ => False) s
      (s.storeWord ptr.table ptr.index x) :=
    drift_store h.inv h.retains h.dir h.not_dir hv20 hslot x
  have hmem : ∀ g, ¬ (own g).isMap → (s.storeWord ptr.table ptr.index x).mem g = s.mem g := by
    intro g hg
    refine update_of_ne ?_ _ _
    rintro rfl
    rw [h.inv.tables.slot_owner h.dir hv20 hslot] at hg
    exact hg trivial
  refine ⟨h.fresh, h.detached, h.keeps, hinv, ?_, ?_,
    h.stays.trans h.retains h.pres.procs hst.stays, h.size, ?_, ?_, ?_, ?_⟩
  · refine h.pres.trans (fun _ _ _ => rfl) ?_
    rw [← h.pres.procs.attach]
    exact hdrift.preserves fun _ _ hV => hV.elim
  · refine h.quiet.trans (fun _ _ _ => rfl) ?_
    rw [← h.pres.procs.attach]
    exact hdrift.quiet fun _ _ hV => hV.elim
  · intro u hlt
    obtain ⟨w, hw, hpw, hUw, hbytes⟩ := h.shows u hlt
    have hpte := hst.pte d u h.dir (upages_lt (h.upages hlt))
    by_cases heq : u = v
    · subst heq
      rw [if_pos ⟨rfl, rfl⟩] at hpte
      refine ⟨x, hpte, hP, by rw [hU]; simp, fun o ho => ?_⟩
      rw [hframe, entry_of_pte hw, hmem _ ?_]
      · exact hbytes o ho
      · rw [(h.inv.maps.user d u w ⟨h.dir, h.upages hlt, hw⟩ hpw).1]
        exact id
    · rw [if_neg fun hx => heq hx.2] at hpte
      refine ⟨w, hpte.trans hw, hpw, by rw [hUw]; simp [heq], fun o ho => ?_⟩
      rw [hmem _ ?_]
      · exact hbytes o ho
      · rw [(h.inv.maps.user d u w ⟨h.dir, h.upages hlt, hw⟩ hpw).1]
        exact id
  · intro u hlt
    rw [hst.entry_eq h.dir (upages_lt (h.upages hlt))]
    split
    · exact hW
    · exact h.writable u hlt
  · intro u hlo hhi
    rw [hst.entry_eq h.dir (upages_lt hhi), if_neg]
    · exact h.empty u hlo hhi
    · grind
  · intro u hlo hhi
    rw [hst.entry_eq h.dir hhi, if_neg]
    · exact h.device u hlo hhi
    · rintro ⟨-, rfl⟩
      have := h.upages hv
      have : UPAGES ≤ DEVSPACE / PGSIZE := by decide
      omega

/-! ### Arguments -/

/-- `uva2ka` on the image: the page if user code may use it. -/
theorem Built.wp_uva2ka {Q : Option Nat → Kernel → Prop} {va : Nat}
    (h : Built mode keep own0 own d m s0 s) (hv : va / PGSIZE < pagesOf m.sz)
    (hlt : frameOf (entry s d (va / PGSIZE)) < NFRAMES →
      Q (if m.user (va / PGSIZE) then some (frameOf (entry s d (va / PGSIZE))) else none) s) :
    wp (uva2ka d va) s Q E := by
  obtain ⟨-, hp, hU⟩ := h.upte hv
  unfold uva2ka
  rw [wp_bind]
  refine h.walk hv fun ptr hword hframe => ?_
  simp only [nonNull, wp_bind, wp_pure, wp_loadPte, hword, hp, hU, Bool.not_true,
    Bool.false_eq_true, if_false]
  have hQ := hlt hframe
  cases hu : m.user (va / PGSIZE) <;> rw [hu] at hQ <;> simpa using hQ

theorem Built.wp_uva2ka_device {Q : Option Nat → Kernel → Prop} {va : Nat}
    (h : Built mode keep own0 own d m s0 s) (hlo : DEVSPACE ≤ va) (hhi : va < 2 ^ 32)
    (hQ : Q none s) : wp (uva2ka d va) s Q E := by
  obtain ⟨hp, hU⟩ := h.device (va / PGSIZE)
    (by simp only [DEVSPACE, PGSIZE] at hlo ⊢; omega) (by simp only [PGSIZE]; omega)
  obtain ⟨ptr, hslot, hword⟩ := pteOf_eq_some.1 (pteOf_of_entry hp)
  unfold uva2ka
  rw [wp_bind, h.inv.walk h.dir hhi, hslot]
  simp only [nonNull, wp_bind, wp_pure, wp_loadPte, hword, hp, hU, Bool.not_true, Bool.not_false,
    Bool.false_eq_true, if_false, if_true]
  exact hQ

omit [KernelImage] in
theorem copyoutLoop_cons {turns va : Nat} {b : Byte} {buf : List Byte} :
    copyoutLoop d (turns + 1) va (b :: buf) = (do
      match ← uva2ka d (PGROUNDDOWN va) with
      | none => pure (-1)
      | some pa0 => do
        let n := min (PGSIZE - (va - PGROUNDDOWN va)) (buf.length + 1)
        if pa0 < NFRAMES then do
          modify fun s => s.copyIn pa0 (va - PGROUNDDOWN va) ((b :: buf).take n)
          copyoutLoop d turns ((PGROUNDDOWN va + PGSIZE) % 2 ^ 32) ((b :: buf).drop n)
        else throw .wild) := rfl

theorem Built.wp_copyout_device {turns va : Nat} {b : Byte} {buf : List Byte}
    (h : Built mode keep own0 own d m s0 s) (hlo : DEVSPACE ≤ va) (hhi : va < 2 ^ 32) :
    wp (copyoutLoop d (turns + 1) va (b :: buf)) s (fun r s' => r = -1 ∧ s' = s ∧
      m.copyout (turns + 1) va (b :: buf) = none) E := by
  have hmod : DEVSPACE % PGSIZE = 0 := by decide
  rw [copyoutLoop_cons, wp_bind]
  refine h.wp_uva2ka_device ?_ ?_ ⟨rfl, rfl, ?_⟩
  · simp only [PGROUNDDOWN, DEVSPACE, PGSIZE] at hlo ⊢
    omega
  · simp only [PGROUNDDOWN, PGSIZE]
    omega
  · have hout : ¬ va / PGSIZE < pagesOf m.sz := by
      have := pagesOf_le h.size
      simp only [UPAGES, KERNBASE, DEVSPACE, PGSIZE] at this hlo ⊢
      omega
    rw [Memory.copyout, Memory.accessible, decide_eq_false hout, Bool.false_and,
      if_neg Bool.false_ne_true]

theorem Built.wp_copyoutLoop : ∀ {turns va : Nat} {buf : List Byte} {m : Memory} {s : Kernel},
    Built mode keep own0 own d m s0 s → buf.length ≤ turns →
    va + buf.length ≤ pagesOf m.sz * PGSIZE →
    wp (copyoutLoop d turns va buf) s (fun r s' => ∃ m', Built mode keep own0 own d m' s0 s' ∧
      ((r = 0 ∧ m.copyout turns va buf = some m' ∧ m'.sz = m.sz) ∨
        (r = -1 ∧ m.copyout turns va buf = none))) E := by
  intro turns
  induction turns with
  | zero =>
    intro va buf m s h hlen _
    cases buf with
    | nil => exact ⟨m, h, .inl ⟨rfl, by simp [Memory.copyout], rfl⟩⟩
    | cons b buf => simp at hlen
  | succ turns ih =>
    intro va buf m s h hlen hfit
    cases buf with
    | nil => exact ⟨m, h, .inl ⟨rfl, by simp [Memory.copyout], rfl⟩⟩
    | cons b buf =>
      have hv : va / PGSIZE < pagesOf m.sz := by
        simp only [List.length_cons, PGSIZE] at hfit ⊢
        omega
      have hdown : PGROUNDDOWN va / PGSIZE = va / PGSIZE := PGROUNDDOWN_div va
      have hoff : va - PGROUNDDOWN va = va % PGSIZE := by
        simp only [PGROUNDDOWN, PGSIZE]
        omega
      rw [copyoutLoop_cons, wp_bind]
      refine h.wp_uva2ka (by rw [hdown]; exact hv) fun hlt => ?_
      rw [hdown] at hlt ⊢
      rw [Memory.copyout, Memory.accessible, decide_eq_true hv, Bool.true_and]
      by_cases hu : m.user (va / PGSIZE) = true
      · rw [if_pos hu, if_pos hu]
        simp only [if_pos hlt, wp_bind, wp_modify, hoff]
        refine ih (h.copyIn _ _ hv) ?_ ?_
        · simp only [List.length_drop, List.length_cons, PGSIZE] at hlen ⊢
          omega
        · have hup := h.upages hv
          simp only [List.length_drop, List.length_cons, PGROUNDDOWN, Memory.copyIn, PGSIZE,
            UPAGES, KERNBASE] at hfit hv hup ⊢
          omega
      · rw [if_neg hu, if_neg hu]
        exact ⟨m, h, .inr ⟨rfl, rfl⟩⟩

theorem Built.wp_copyout {va : Nat} {buf : List Byte} (h : Built mode keep own0 own d m s0 s)
    (hne : buf ≠ [])
    (hva : va + buf.length ≤ pagesOf m.sz * PGSIZE ∨ (DEVSPACE ≤ va ∧ va < 2 ^ 32)) :
    wp (copyout d va buf) s (fun r s' => ∃ m', Built mode keep own0 own d m' s0 s' ∧
      ((r = 0 ∧ m.copyout buf.length va buf = some m' ∧ m'.sz = m.sz ∧
          va + buf.length ≤ pagesOf m.sz * PGSIZE) ∨
        (r = -1 ∧ m.copyout buf.length va buf = none))) E := by
  unfold copyout
  rcases hva with hfit | ⟨hlo, hhi⟩
  · refine wp_conseq (h.wp_copyoutLoop (Nat.le_refl _) hfit) ?_
    rintro r s' ⟨m', h', ⟨hr, hcopy, hsz⟩ | hfail⟩
    · exact ⟨m', h', .inl ⟨hr, hcopy, hsz, hfit⟩⟩
    · exact ⟨m', h', .inr hfail⟩
  · cases buf with
    | nil => exact absurd rfl hne
    | cons b buf =>
      refine wp_conseq (h.wp_copyout_device hlo hhi) ?_
      rintro r s' ⟨hr, rfl, hnone⟩
      exact ⟨m, h, .inr ⟨hr, hnone⟩⟩

/-- An argument is at most as long as the device region at the top. -/
def ArgsFit (argv : List (List Byte)) : Prop := ∀ arg ∈ argv, arg.length + 1 ≤ 2 ^ 25

theorem Built.wp_pushArgs : ∀ {argv : List (List Byte)} {sp : Nat} {ustack : List Nat} {m : Memory}
    {s : Kernel}, Built mode keep own0 own d m s0 s → m.sz % PGSIZE = 0 → sp ≤ m.sz →
    ustack.length ≤ MAXARG → ArgsFit argv →
    wp (pushArgs d argv sp ustack) s (fun r s' => ∃ m', Built mode keep own0 own d m' s0 s' ∧
      ((∃ sp' args, r = some (sp', args) ∧
          m.pushArgs argv sp ustack = some (sp', args, m') ∧ m'.sz = m.sz ∧ sp' ≤ m.sz ∧
          args.length ≤ MAXARG) ∨
        (r = none ∧ m.pushArgs argv sp ustack = none))) E := by
  intro argv
  induction argv with
  | nil =>
    intro sp ustack m s h _ hsp hlen _
    exact ⟨m, h, .inl ⟨sp, ustack, rfl, rfl, rfl, hsp, hlen⟩⟩
  | cons arg rest ih =>
    intro sp ustack m s h hal hsp hlen hfit
    rw [pushArgs, Memory.pushArgs]
    by_cases hmax : MAXARG ≤ ustack.length
    · rw [if_pos hmax, if_pos hmax]
      exact ⟨m, h, .inr ⟨rfl, rfl⟩⟩
    rw [if_neg hmax, if_neg hmax]
    have harg := hfit arg (List.mem_cons_self)
    have hround : pagesOf m.sz * PGSIZE = m.sz := by
      simp only [pagesOf, PGROUNDUP, PGSIZE] at hal ⊢
      omega
    have hsize := h.size
    have hblen : (arg ++ [(0 : Byte)]).length = arg.length + 1 := by simp
    generalize hsp' : (sp + 2 ^ 32 - (arg.length + 1) % 2 ^ 32) % 2 ^ 32 / 4 * 4 = sp'
    dsimp only
    rw [wp_bind]
    refine wp_conseq (h.wp_copyout (by simp) ?_) ?_
    · rw [hround, hblen]
      simp only [DEVSPACE, KERNBASE] at hsize ⊢
      omega
    · rintro r s1 ⟨m1, h1, ⟨rfl, hcopy, hsz, hend⟩ | ⟨rfl, hcopy⟩⟩
      · rw [hblen] at hcopy
        rw [hcopy, if_neg (by decide), ← hsz]
        refine ih h1 (by rw [hsz]; exact hal) ?_ ?_ ?_
        · rw [hround] at hend
          omega
        · rw [List.length_append, List.length_singleton]
          omega
        · exact fun a ha => hfit a (List.mem_cons_of_mem _ ha)
      · rw [hblen] at hcopy
        rw [hcopy, if_pos (by decide)]
        exact ⟨m1, h1, .inr ⟨rfl, rfl⟩⟩

/-! ### The whole image -/

omit [KernelImage] in
theorem Memory.alloc_sz {newsz : Nat} (h : m.alloc newsz = some m') (hle : m.sz ≤ newsz) :
    m'.sz = newsz := by
  rw [Memory.alloc] at h
  split at h
  · cases h
  · grind [Memory.grow, Nat.not_lt.2]

theorem Built.round (h : Built mode keep own0 own d m s0 s) :
    Built mode keep own0 own d { m with sz := PGROUNDUP m.sz } s0 s := by
  have hpages : pagesOf (PGROUNDUP m.sz) = pagesOf m.sz := by
    simp only [pagesOf, PGROUNDUP, PGSIZE]
    omega
  have hsize : PGROUNDUP m.sz ≤ KERNBASE := by
    have := h.size
    simp only [PGROUNDUP, KERNBASE, PGSIZE] at this ⊢
    omega
  exact ⟨h.fresh, h.detached, h.keeps, h.inv, h.pres, h.quiet, h.stays, hsize,
    by rw [hpages]; exact h.shows, by rw [hpages]; exact h.writable, by rw [hpages]; exact h.empty, h.device⟩

omit [KernelImage] in
theorem wordBytes_length (x : Nat) : (wordBytes x).length = 4 := rfl

omit [KernelImage] in
theorem ustack_length (args : List Nat) (a b c e : Nat) :
    (([a, b, c] ++ args ++ [e]).flatMap wordBytes).length = (3 + args.length + 1) * 4 := by
  have hall : ∀ l : List Nat, (l.flatMap wordBytes).length = l.length * 4 := by
    intro l
    induction l with
    | nil => rfl
    | cons x l ih =>
      rw [List.flatMap_cons, List.length_append, ih, wordBytes_length, List.length_cons]
      omega
  rw [hall]
  simp only [List.length_append, List.length_cons, List.length_nil]

/-- The part of `exec` after the program is loaded: the new size and the stack pointer, or
    `none` for `goto bad`. -/
@[irreducible]
def execStack (evict : K Unit) (pgdir sz : Nat) (argv : List (List Byte)) : K (Option (Nat × Nat)) := do
  let sz ← allocuvm evict pgdir (PGROUNDUP sz) (PGROUNDUP sz + 2 * PGSIZE)
  if sz = 0 then pure none
  else do
    clearpteu pgdir (sz - 2 * PGSIZE)
    match ← pushArgs pgdir argv sz [] with
    | none => pure none
    | some (sp, args) => do
      let argc := args.length
      let argvPtr := (sp + 2 ^ 32 - (argc + 1) * 4) % 2 ^ 32
      let ustack := [0xffffffff, argc, argvPtr] ++ args ++ [0]
      let sp := (sp + 2 ^ 32 - (3 + argc + 1) * 4) % 2 ^ 32
      let r ← copyout pgdir sp (ustack.flatMap wordBytes)
      if r < 0 then pure none else pure (some (sz, sp))

/-- A guard page and a stack page above the program. -/
def Memory.addStack (m : Memory) : Option Memory :=
  ({ m with sz := PGROUNDUP m.sz }.alloc (PGROUNDUP m.sz + 2 * PGSIZE)).map fun (m : Memory) =>
    { m with user := update m.user ((m.sz - 2 * PGSIZE) / PGSIZE) false }

/-- The end of `exec` on the reference machine: strings and words, and the stack
    pointer. -/
def Memory.stack (argv : List (List Byte)) (m : Memory) : Option (Nat × Memory) :=
  match m.pushArgs argv m.sz [] with
  | none => none
  | some (sp, args, m) =>
    let argc := args.length
    let argvPtr := (sp + 2 ^ 32 - (argc + 1) * 4) % 2 ^ 32
    let ustack := [0xffffffff, argc, argvPtr] ++ args ++ [0]
    let sp := (sp + 2 ^ 32 - (3 + argc + 1) * 4) % 2 ^ 32
    (m.copyout (ustack.flatMap wordBytes).length sp (ustack.flatMap wordBytes)).map fun m => (sp, m)

omit [KernelImage] in
theorem Memory.exec_eq (ip : File) (argv : List (List Byte)) : Memory.exec ip argv =
    (Memory.load ip ip.phnum (ip.word 28) Memory.empty).bind fun m =>
      (m.addStack.bind (Memory.stack argv)).map Prod.snd := by
  rw [Memory.exec]
  cases Memory.load ip ip.phnum (ip.word 28) Memory.empty with
  | none => rfl
  | some m =>
    rw [Option.bind_some, Memory.addStack]
    dsimp only
    cases Memory.alloc { m with sz := PGROUNDUP m.sz } (PGROUNDUP m.sz + 2 * PGSIZE) with
    | none => rfl
    | some m =>
      rw [Option.map_some, Option.bind_some, Memory.stack]
      dsimp only
      cases Memory.pushArgs argv m.sz []
          { m with user := update m.user ((m.sz - 2 * PGSIZE) / PGSIZE) false } with
      | none => rfl
      | some x =>
        dsimp only
        rw [Option.map_map]
        cases Memory.copyout _ _ _ x.2.2 <;> rfl

theorem execImage_eq (d : Nat) (ip : File) (argv : List (List Byte)) : execImage evict d ip argv = (do
    match ← execLoad evict d ip ip.phnum (ip.word 28) 0 with
    | none => pure none
    | some sz => do
      let r ← execStack evict d sz argv
      pure (r.map Prod.fst)) := by
  unfold execImage execStack
  refine bind_congr fun r => ?_
  cases r with
  | none => rfl
  | some sz =>
    dsimp only
    rw [bind_assoc]
    refine bind_congr fun sz => ?_
    split
    · rfl
    · rw [bind_assoc]
      refine bind_congr fun _ => ?_
      rw [bind_assoc]
      refine bind_congr fun r => ?_
      cases r with
      | none => rfl
      | some x =>
        dsimp only
        rw [bind_assoc]
        refine bind_congr fun r => ?_
        split <;> rfl

theorem Built.wp_execStack {argv : List (List Byte)} (hev : EvictOk mode keep evict E)
    (h : Built mode keep own0 own d m s0 s) (hfit : ArgsFit argv) :
    wp (execStack evict d m.sz argv) s (fun r s' => ∃ own' m', Built mode keep own0 own' d m' s0 s' ∧
      ((∃ sp, r = some (m'.sz, sp) ∧ m.addStack.bind (Memory.stack argv) = some (sp, m')) ∨
        (r = none ∧ m.addStack.bind (Memory.stack argv) = none))) E := by
  unfold execStack Memory.addStack
  simp only [wp_bind]
  generalize hn : PGROUNDUP m.sz + 2 * PGSIZE = n
  refine wp_conseq (h.round.wp_allocuvm hev n) ?_
  rintro r s2 ⟨own2, m2, h2, ⟨halloc, rfl, hne, -⟩ | ⟨halloc, rfl⟩⟩
  swap
  · rw [halloc, if_pos rfl]
    exact ⟨own2, m2, h2, .inr ⟨rfl, rfl⟩⟩
  have hsz : m2.sz = PGROUNDUP m.sz + 2 * PGSIZE :=
    (Memory.alloc_sz halloc (by rw [← hn]; exact Nat.le_add_right _ _)).trans hn.symm
  have hmod : m2.sz % PGSIZE = 0 := by
    simp only [hsz, PGROUNDUP, PGSIZE]
    omega
  rw [halloc, if_neg hne, Option.map_some, Option.bind_some, Memory.stack]
  simp only [wp_bind]
  refine wp_conseq (h2.wp_clearpteu ?_) ?_
  · simp only [hsz, pagesOf, PGROUNDUP, PGSIZE]
    omega
  rintro - s3 h3
  refine wp_conseq (h3.wp_pushArgs hmod (Nat.le_refl m2.sz) (Nat.zero_le _) hfit) ?_
  rintro r s4 ⟨m4, h4, ⟨sp, args, rfl, hpush, hsz4, hsp, hlen⟩ | ⟨rfl, hpush⟩⟩
  swap
  · rw [hpush]
    exact ⟨own2, m4, h4, .inr ⟨rfl, rfl⟩⟩
  rw [hpush]
  simp only [wp_bind]
  have hbytes := ustack_length args 0xffffffff args.length
    ((sp + 2 ^ 32 - (args.length + 1) * 4) % 2 ^ 32) 0
  have hround : pagesOf m4.sz * PGSIZE = m4.sz := by
    rw [hsz4]
    simp only [pagesOf, PGROUNDUP, PGSIZE] at hmod ⊢
    omega
  refine wp_conseq (h4.wp_copyout ?_ ?_) ?_
  · intro hnil
    rw [hnil] at hbytes
    simp at hbytes
  · rw [hbytes, hround]
    have hsize := h4.size
    have hsp' : sp ≤ m2.sz := hsp
    rw [hsz4] at hsize ⊢
    simp only [MAXARG] at hlen
    simp only [DEVSPACE, KERNBASE] at hsize ⊢
    omega
  · rintro r s5 ⟨m5, h5, ⟨rfl, hcopy, hsz5, -⟩ | ⟨rfl, hcopy⟩⟩
    · rw [if_neg (by decide), hcopy, Option.map_some]
      refine ⟨own2, m5, h5, .inl ⟨_, ?_, rfl⟩⟩
      rw [hsz5, hsz4]
    · rw [if_pos (by decide), hcopy, Option.map_none]
      exact ⟨own2, m5, h5, .inr ⟨rfl, rfl⟩⟩

end CowPaging
