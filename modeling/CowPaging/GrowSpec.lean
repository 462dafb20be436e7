import CowPaging.SetupSpec

/-!
# Mapping fresh pages

`allocuvm` maps zeroed pages above the old size. While it allocates, every page
that a process sees stays as it is (`Preserves`), and the pages mapped so far show
zeros (`Shows`).
-/

namespace CowPaging

open Bytes StateExcept SlotTable
open Function (update_of_ne update_self update)

variable {own own₀ own' : Owners} {att : Attach} {s s' : Kernel} {d v : Nat} {ptr : PtePtr}

/-! ### What processes see -/

/-- Every visible page is still visible and shows the same bytes. -/
structure Preserves (own : Owners) (att : Attach) (s s' : Kernel) : Prop where
  procs : SameProcs s s'
  seen : ∀ d v, own d = .dir → v < UPAGES → Visible att s d v →
    Visible att s' d v ∧ SameView (view s d v) (view s' d v)
  held : ∀ f, own f = .held ∨ (∃ p, own f = .stack p) → s'.mem f = s.mem f

theorem Preserves.trans {own1 : Owners} {s1 s2 : Kernel} (hret : Retains own own1)
    (h : Preserves own att s s1) (h' : Preserves own1 att s1 s2) : Preserves own att s s2 where
  procs := h.procs.trans h'.procs
  seen e u he hu hvis := by
    obtain ⟨hvis1, hsame1⟩ := h.seen e u he hu hvis
    obtain ⟨hvis2, hsame2⟩ := h'.seen e u (hret.of_dir he) hu hvis1
    exact ⟨hvis2, hsame1.trans hsame2⟩
  held f hf := by grind [hret.of_held, hret.of_stack, h'.held, h.held]

theorem Preserves.restrict (hret : Retains own₀ own) (h : Preserves own att s s') :
    Preserves own₀ att s s' where
  procs := h.procs
  seen e u he := h.seen e u (hret.of_dir he)
  held f hf := by grind [h.held, hret.of_held, hret.of_stack]

theorem Drift.preserves {V : Nat → Nat → Prop} (hV : ∀ d v, V d v → Tracked att d v)
    (h : Drift own att V s s') : Preserves own att s s' where
  procs := h.procs
  seen e u he hu hvis := ⟨h.visible hV he hu hvis, h.view e u he hu hvis⟩
  held := h.held

/-- Outside `X`, entries that no process counts as its memory stay absent. -/
def Quiet (own : Owners) (att : Attach) (X : Nat → Nat → Prop) (s s' : Kernel) : Prop :=
  ∀ e u, own e = .dir → u < UPAGES → ¬ Tracked att e u → ¬ X e u →
    has (entry s e u) PTE_P = false → has (entry s' e u) PTE_P = false

theorem Quiet.trans {own1 : Owners} {X : Nat → Nat → Prop} {s1 s2 : Kernel}
    (hret : Retains own own1) (h : Quiet own att X s s1) (h' : Quiet own1 att X s1 s2) :
    Quiet own att X s s2 := fun e u he hu ht hX habs =>
  h' e u (hret.of_dir he) hu ht hX (h e u he hu ht hX habs)

theorem Quiet.restrict {X : Nat → Nat → Prop} (hret : Retains own₀ own)
    (h : Quiet own att X s s') : Quiet own₀ att X s s' :=
  fun e u he => h e u (hret.of_dir he)

theorem Quiet.mono {X Y : Nat → Nat → Prop} (hXY : ∀ e u, own e = .dir → X e u → Y e u)
    (h : Quiet own att X s s') : Quiet own att Y s s' :=
  fun e u he hu ht hY => h e u he hu ht fun hX => hY (hXY e u he hX)

theorem Drift.quiet {V X : Nat → Nat → Prop} (hV : ∀ d v, V d v → Tracked att d v)
    (h : Drift own att V s s') : Quiet own att X s s' := by
  intro e u he hu ht _ habs
  rw [(h.entry_sim he (upages_lt hu) fun hev => ht (hV e u hev.2.2.1)).present, habs]

theorem quiet_of_pte {X : Nat → Nat → Prop}
    (h : ∀ e u, own e = .dir → u < 2 ^ 20 → pteOf s' e u = pteOf s e u) :
    Quiet own att X s s' := by
  intro e u he hu _ _ habs
  rw [entry, h e u he (upages_lt hu)]
  exact habs

theorem PteStore.quiet {w : Word} (hst : PteStore own d v w s s') :
    Quiet own att (fun e u => e = d ∧ u = v) s s' := by
  intro e u he hu _ hX habs
  rw [hst.entry_eq he (upages_lt hu), if_neg hX, habs]

/-- If the caller's pages are not evicted, its directory stays as it is, unless it
    is the directory `d` itself. -/
def Stays (keep : Bool) (own : Owners) (d : Nat) (s s' : Kernel) : Prop :=
  keep = true → own (s.proc s.cur).pgdir = .dir → (s.proc s.cur).pgdir ≠ d →
    ∀ v, v < 2 ^ 20 → PteSim (entry s' (s.proc s.cur).pgdir v) (entry s (s.proc s.cur).pgdir v)

theorem Stays.trans {keep : Bool} {own1 : Owners} {s1 s2 : Kernel} (hret : Retains own own1)
    (hprocs : SameProcs s s1) (h : Stays keep own d s s1) (h' : Stays keep own1 d s1 s2) :
    Stays keep own d s s2 := by
  intro hkeep hdir hne v hv
  have h1 := h' hkeep
  rw [hprocs.cur, hprocs.pgdir] at h1
  exact (h hkeep hdir hne v hv).trans (h1 (hret.of_dir hdir) hne v hv)

theorem stays_of_pte {keep : Bool}
    (h : ∀ e u, own e = .dir → u < 2 ^ 20 → pteOf s' e u = pteOf s e u) :
    Stays keep own d s s' := by
  intro _ hdir _ v hv
  rw [entry, h _ v hdir hv]
  exact PteSim.refl _

theorem PteStore.stays {keep : Bool} {w : Word} (hst : PteStore own d v w s s') :
    Stays keep own d s s' := by
  intro _ hdir hne u hu
  rw [hst.entry_eq hdir hu, if_neg fun heq => hne heq.1]
  exact PteSim.refl _

theorem Drift.stays {keep : Bool} (h : Drift own att (Victims keep s) s s') :
    Stays keep own d s s' := fun hkeep hdir _ _ hv =>
  h.entry_sim hdir hv fun he => he.2.2.1.2 hkeep rfl

theorem SameView.refl_of {a : Option (Page × Bool)} (h : ∃ x, a = some x) : SameView a a := by
  obtain ⟨x, hx⟩ := h
  exact SameView.of_eq hx rfl

theorem Preserves.refl [KernelImage] {mode : Mode} (h : Inv mode own att s) :
    Preserves own att s s :=
  ⟨SameProcs.refl s, fun _ _ _ _ hvis => ⟨hvis, SameView.refl_of (h.view_some hvis)⟩,
    fun _ _ => rfl⟩

/-- Page `v` of directory `d` is in memory and holds `page`. -/
def Shows (s : Kernel) (d v : Nat) (page : Page) (user : Bool) : Prop :=
  ∃ w, pteOf s d v = some w ∧ has w PTE_P = true ∧ has w PTE_U = user ∧
    ∀ o, o < PGSIZE → s.mem (frameOf w) o = page o

variable {page : Page} {user : Bool}

theorem Shows.visible (h : Shows s d v page user) : Visible att s d v := by
  obtain ⟨w, hw, hp, -, -⟩ := h
  exact ⟨w, hw, .inl hp⟩

theorem view_of_present {w : Word} (hw : pteOf s d v = some w) (hp : has w PTE_P = true) :
    view s d v = some (s.mem (frameOf w), has w PTE_U) := by
  rw [view, hw, Option.bind_some, viewOf, if_pos hp]

theorem Shows.sameView (h : Shows s d v page user) :
    SameView (some (page, user)) (view s d v) := by
  obtain ⟨w, hw, hp, rfl, hmem⟩ := h
  exact ⟨page, s.mem (frameOf w), has w PTE_U, rfl, view_of_present hw hp, hmem⟩

theorem Preserves.shows (h : Preserves own att s s') (hd : own d = .dir) (hv : v < UPAGES)
    (hnt : ¬ Tracked att d v) (hs : Shows s d v page user) : Shows s' d v page user := by
  obtain ⟨⟨w', hw', hcase⟩, hsame⟩ := h.seen d v hd hv hs.visible
  have hp' := hcase.resolve_right hnt
  obtain ⟨w, hw, hp, rfl, hmem⟩ := hs
  rw [view_of_present hw hp, view_of_present hw' hp'] at hsame
  obtain ⟨p1, p2, u, h1, h2, heq⟩ := hsame
  simp only [Option.some.injEq, Prod.mk.injEq] at h1 h2
  obtain ⟨rfl, rfl⟩ := h1
  obtain ⟨rfl, hu⟩ := h2
  exact ⟨w', hw', hp', hu, fun o ho => (heq o ho).trans (hmem o ho)⟩

/-! ### One fresh page -/

/-- The word that maps page `f` for a user. -/
def userWord (f : Nat) : Word := frameAddr f ||| (PTE_W ||| PTE_U) ||| PTE_P

theorem userWord_bits {f : Nat} (hf : f < 2 ^ 20) :
    frameOf (userWord f) = f ∧ has (userWord f) PTE_P = true ∧ has (userWord f) PTE_U = true ∧
      has (userWord f) PTE_S = false ∧ has (userWord f) PTE_W = true := by
  refine ⟨?_, ?_, ?_, ?_, ?_⟩
  · rw [userWord, BitVec.or_assoc]
    refine frameOf_mk hf fun i hi => ?_
    simp only [BitVec.getLsbD_or, getLsbD_P, getLsbD_W, getLsbD_U, Bool.or_eq_false_iff,
      decide_eq_false_iff_not]
    omega
  · simp [userWord]
  · rw [has_U, userWord, BitVec.getLsbD_or, BitVec.getLsbD_or, BitVec.getLsbD_or, getLsbD_U]
    simp
  · rw [has_S, userWord, BitVec.getLsbD_or, BitVec.getLsbD_or, BitVec.getLsbD_or,
      frameAddr_low hf (by decide), getLsbD_W, getLsbD_U, getLsbD_P]
    rfl
  · rw [has_W, userWord, BitVec.getLsbD_or, BitVec.getLsbD_or, BitVec.getLsbD_or, getLsbD_W]
    simp

/-- The state after the entry of page `v` was made to map page `f`. -/
def Kernel.linked (s : Kernel) (ptr : PtePtr) (w : Word) (f : Nat) : Kernel :=
  (s.storeWord ptr.table ptr.index w).setRmap f ((s.rmap f).inc ptr)

variable [KernelImage] {mode : Mode} {keep : Bool} {evict : K Unit} {E : Halt → Prop}

theorem Inv.linked_mem (h : Inv mode own att s) (hd : own d = .dir) (hv : v < 2 ^ 20)
    (hslot : pteSlot s d v = some ptr) {w : Word} {f g : Nat} (hg : ¬ (own g).isMap) :
    (s.linked ptr w f).mem g = s.mem g := by
  refine update_of_ne ?_ _ _
  rintro rfl
  rw [h.tables.slot_owner hd hv hslot] at hg
  exact hg trivial

/-- One entry is stored and no page other than its table is written: only this
    entry's view can change. -/
theorem preserves_store {w : Word} (h : Inv mode own att s) (hst : PteStore own d v w s s')
    (hprocs : SameProcs s s') (hmem : ∀ g, ¬ (own g).isMap → s'.mem g = s.mem g)
    (hperm : ∀ i, (s'.swaparray i).pagePerm = (s.swaparray i).pagePerm)
    (hdisk : s'.disk = s.disk)
    (hself : Visible att s d v →
      Visible att s' d v ∧ SameView (view s d v) (view s' d v)) :
    Preserves own att s s' := by
  refine ⟨hprocs, ?_, ?_⟩
  · intro e u he hu hvis
    by_cases heq : e = d ∧ u = v
    · grind
    have hpte : pteOf s' e u = pteOf s e u := by
      rw [hst.pte e u he (upages_lt hu), if_neg heq]
    obtain ⟨x, hx⟩ := h.view_some hvis
    obtain ⟨y, hy, hcase⟩ := hvis
    refine ⟨⟨y, by rw [hpte, hy], hcase⟩, SameView.of_eq hx ?_⟩
    refine view_congr hpte (fun w' hw' hp => ?_) hperm hdisk
    have huser := (h.maps.user e u w' ⟨he, hu, hw'⟩ hp).1
    exact hmem _ (by rw [huser]; exact id)
  · intro g hg
    refine hmem g ?_
    rcases hg with hg | ⟨p, hg⟩ <;> rw [hg] <;> exact id

theorem preserves_linked (h : Inv mode own att s) (hd : own d = .dir) (hv : v < UPAGES)
    (hslot : pteSlot s d v = some ptr) (hnew : ¬ Visible att s d v) (w : Word) (f : Nat) :
    Preserves own att s (s.linked ptr w f) := by
  have hst : PteStore own d v w s (s.linked ptr w f) :=
    pteStore_of_mem h.tables hd (upages_lt hv) hslot fun _ _ => rfl
  exact preserves_store h hst ⟨fun _ => rfl, rfl, rfl, rfl⟩
    (fun _ hg => h.linked_mem hd (upages_lt hv) hslot hg) (fun _ => rfl) rfl
    fun hvis => (hnew hvis).elim

/-- Facts about a page `f` taken by `kalloc`, filled with `page`, and about the
    walk to the entry that is going to map it. -/
structure Fetched (mode : Mode) (keep : Bool) (own own₂ : Owners) (d v f : Nat) (page : Page)
    (ptr : PtePtr) (s s₂ : Kernel) : Prop where
  fresh : own f = .free ∨ own f = .user
  keeps : Keeps (update own f .held) own₂
  inv : Inv mode own₂ (attachOf s) s₂
  drift : Drift own (attachOf s) (Victims keep s) s s₂
  slot : pteSlot s₂ d v = some ptr
  filled : s₂.mem f = page

/-- `kalloc`, a fill and the page walk, put together. -/
theorem fetched_of_walk {own2 : Owners} {f : Nat} {s1 s2 : Kernel}
    (hf : own f = .free ∨ own f = .user)
    (hinv : Inv mode (update own f .held) (attachOf s) s1)
    (hdrift : Drift own (attachOf s) (Victims keep s) s s1)
    (hwalk : Walked mode keep (update own f .held) own2 d v ptr (s1.setPage f page) s2) :
    Fetched mode keep own own2 d v f page ptr s s2 := by
  have hheld : update own f .held f = .held := update_self _ _ _
  have hret : Retains own (update own f .held) := retains_update hf
  have hfill : Drift own (attachOf s) (Victims keep s) s (s1.setPage f page) :=
    hdrift.trans (fun _ _ hV => hV.1) (fun _ _ _ => rfl) (drift_fill hinv hret hf hheld page)
  have hatt := hfill.procs.attach
  have hinv2 := hwalk.inv
  have hdrift2 := hwalk.drift
  rw [hatt] at hinv2 hdrift2
  rw [hfill.procs.victims] at hdrift2
  refine ⟨hf, hwalk.keeps, hinv2, ?_, hwalk.slot, ?_⟩
  · exact hfill.trans (fun _ _ hV => hV.1) (fun _ _ _ => rfl) (hdrift2.restrict hret)
  · rw [hdrift2.held f (.inl hheld)]
    exact update_self _ _ _

theorem Fetched.held {own2 : Owners} {f : Nat} {s2 : Kernel}
    (h : Fetched mode keep own own2 d v f page ptr s s2) : own2 f = .held :=
  h.keeps.retains.of_held (update_self _ _ _)

theorem Fetched.retains {own2 : Owners} {f : Nat} {s2 : Kernel}
    (h : Fetched mode keep own own2 d v f page ptr s s2) : Retains own own2 :=
  (retains_update h.fresh).trans h.keeps.retains

theorem Fetched.frame_lt {own2 : Owners} {f : Nat} {s2 : Kernel}
    (h : Fetched mode keep own own2 d v f page ptr s s2) : f < NFRAMES :=
  h.inv.user_lt (by rw [h.held]; simp)

/-- Linking the page adds it to the address space and changes nothing that was
    visible. -/
theorem Fetched.link {own2 : Owners} {f : Nat} {s2 : Kernel}
    (h : Fetched mode keep own own2 d v f page ptr s s2) (hd : own d = .dir) (hv : v < UPAGES)
    (hfree : has (entry s d v) PTE_P = false) (hnt : ¬ Tracked (attachOf s) d v) :
    Keeps own (update own2 f .user) ∧
      Inv mode (update own2 f .user) (attachOf s) (s2.linked ptr (userWord f) f) ∧
      Preserves own (attachOf s) s (s2.linked ptr (userWord f) f) ∧
      Shows (s2.linked ptr (userWord f) f) d v page true ∧
      has (entry (s2.linked ptr (userWord f) f) d v) PTE_W = true ∧
      Quiet own (attachOf s) (fun e _ => e = d) s (s2.linked ptr (userWord f) f) ∧
      Stays keep own d s (s2.linked ptr (userWord f) f) ∧
      (∀ u, u < 2 ^ 20 → u ≠ v → ¬ Evictable (Victims keep s) s d u (entry s d u) →
        PteSim (entry (s2.linked ptr (userWord f) f) d u) (entry s d u)) := by
  obtain ⟨hframe, hP, hU, hS, hW⟩ := userWord_bits (nframes_lt h.frame_lt)
  have hd2 := h.retains.of_dir hd
  have hst : PteStore own2 d v (userWord f) s2 (s2.linked ptr (userWord f) f) :=
    pteStore_of_mem h.inv.tables hd2 (upages_lt hv) h.slot fun _ _ => rfl
  have hsim := h.drift.entry_sim hd (upages_lt hv) (not_evictable hnt _)
  have hpte := pteOf_of_slot h.slot
  have hword : pteAt s2 ptr = entry s2 d v := (entry_of_pte hpte).symm
  have hp0 : has (pteAt s2 ptr) PTE_P = false := by rw [hword, hsim.present, hfree]
  have hnew : ¬ Visible (attachOf s) s2 d v := by
    rintro ⟨w, hw, hcase⟩
    have hwp := hcase.resolve_right hnt
    rw [← Option.some.inj (hpte.symm.trans hw), hp0] at hwp
    cases hwp
  refine ⟨⟨?_, ?_, ?_⟩, ?_, ?_, ?_, ?_, ?_, ?_, ?_⟩
  · intro g hfree' huser
    have hne : g ≠ f := by grind [h.fresh]
    rw [update_of_ne hne]
    exact h.retains g hfree' huser
  · intro g hg
    have hne : g ≠ f := by grind
    rw [update_of_ne hne] at hg
    have hg1 := h.keeps.dir g hg
    rwa [update_of_ne hne] at hg1
  · intro g hg
    have hne : g ≠ f := by
      rintro rfl
      rw [update_self] at hg
      exact hg
    rw [update_of_ne hne] at hg ⊢
    rw [h.keeps.kernel g hg, update_of_ne hne]
  · have hinv := h.inv.map hst
      ((sameRest_storeWord s2 _ _ _).trans (sameRest_setRmap _ _ _)) (by rw [hframe]; exact h.held)
      (by rw [hframe]; rfl) ⟨hd2, hv, hpte⟩ h.slot hp0 hP hS ?_
    · rwa [hframe] at hinv
    · intro hm p z hatt
      by_contra hsw
      rw [Bool.not_eq_false] at hsw
      exact hnt ⟨p, z, hatt, (h.inv.slots hm).tracked p d z v _ hatt hv hpte hsw⟩
  · have hpres := preserves_linked h.inv hd2 hv h.slot hnew (userWord f) f
    exact (h.drift.preserves fun _ _ hV => hV.1).trans (fun _ _ _ => rfl)
      (hpres.restrict h.retains)
  · refine ⟨userWord f, ?_, hP, hU, ?_⟩
    · rw [hst.pte d v hd2 (upages_lt hv), if_pos ⟨rfl, rfl⟩]
    · intro o _
      rw [hframe, h.inv.linked_mem hd2 (upages_lt hv) h.slot (by rw [h.held]; exact id), h.filled]
  · rw [hst.entry_eq hd2 (upages_lt hv), if_pos ⟨rfl, rfl⟩, hW]
  · exact (h.drift.quiet fun _ _ hV => hV.1).trans h.retains
      (hst.quiet.mono fun _ _ _ heq => heq.1)
  · exact h.drift.stays.trans h.retains h.drift.procs hst.stays
  · intro u hu hne hev
    rw [hst.entry_eq hd2 hu, if_neg (fun heq => hne heq.2)]
    exact h.drift.entry_sim hd hu hev

/-! ### `allocuvm` -/

/-- Pages `lo` to `hi - 1` of `d` were mapped to zeroed pages. -/
structure Grew (mode : Mode) (keep : Bool) (own own' : Owners) (d lo hi : Nat)
    (s s' : Kernel) : Prop where
  keeps : Keeps own own'
  inv : Inv mode own' (attachOf s) s'
  pres : Preserves own (attachOf s) s s'
  quiet : Quiet own (attachOf s) (fun e _ => e = d) s s'
  stays : Stays keep own d s s'
  zeroed : ∀ u, lo ≤ u → u < hi → Shows s' d u (fun _ => 0) true
  writable : ∀ u, lo ≤ u → u < hi → has (entry s' d u) PTE_W = true
  rest : ∀ u, u < lo ∨ hi ≤ u → u < 2 ^ 20 → ¬ Tracked (attachOf s) d u →
    PteSim (entry s' d u) (entry s d u)

theorem Grew.refl {lo : Nat} (h : Inv mode own (attachOf s) s) :
    Grew mode keep own own d lo lo s s :=
  ⟨Keeps.refl own, h, Preserves.refl h, fun _ _ _ _ _ _ habs => habs,
    fun _ _ _ _ _ => PteSim.refl _, fun _ hlo hhi => absurd hhi (Nat.not_lt.2 hlo), fun _ hlo hhi => absurd hhi (Nat.not_lt.2 hlo), fun _ _ _ _ => PteSim.refl _⟩

theorem Grew.trans {own1 own2 : Owners} {lo mid hi : Nat} {s1 s2 : Kernel}
    (h : Grew mode keep own own1 d lo mid s s1) (h' : Grew mode keep own1 own2 d mid hi s1 s2)
    (hd : own d = .dir) (hlo : lo ≤ mid) (hle : mid ≤ hi) (hup : hi ≤ UPAGES)
    (hnt : ∀ u, lo ≤ u → ¬ Tracked (attachOf s) d u) : Grew mode keep own own2 d lo hi s s2 := by
  have hatt := h.pres.procs.attach
  have hinv := h'.inv
  have hpres := h'.pres
  have hquiet := h'.quiet
  rw [hatt] at hinv hpres hquiet
  refine ⟨h.keeps.trans h'.keeps, hinv, h.pres.trans h.keeps.retains hpres,
    h.quiet.trans h.keeps.retains hquiet, h.stays.trans h.keeps.retains h.pres.procs h'.stays,
    ?_, ?_, ?_⟩
  · intro u hlo hhi
    by_cases hu : u < mid
    · exact hpres.shows (h.keeps.retains.of_dir hd) (by omega) (hnt u hlo) (h.zeroed u hlo hu)
    · exact h'.zeroed u (by omega) hhi
  · intro u hlo hhi
    by_cases hu : u < mid
    · have hsim := h'.rest u (.inl hu) (upages_lt (by omega)) (by rw [hatt]; exact hnt u hlo)
      have hW := h.writable u hlo hu
      rw [has_W] at hW ⊢
      rw [hsim.bit (by decide), hW]
    · exact h'.writable u (by omega) hhi
  · intro u hout hlt hnot
    exact (h.rest u (by omega) hlt hnot).trans
      (h'.rest u (by omega) hlt (by rw [hatt]; exact hnot))

theorem preserves_setRss (h : Inv mode own att s) (p : Nat) {f : Proc → Proc}
    (hf : ∀ pr, f pr = { pr with rss := (f pr).rss }) : Preserves own att s (s.setProc p f) := by
  have hdrift : Drift own att (fun _ _ => False) s (s.setProc p f) :=
    drift_of_same h (fun _ _ _ => rfl) (sameProcs_setRss s p hf) (fun _ _ => rfl)
      (fun _ _ => rfl) rfl rfl rfl
  exact hdrift.preserves fun _ _ hV => hV.elim

theorem wp_link {α : Type} {k : K α} {Q : α → Kernel → Prop} {w : Word} {f : Nat}
    (h : Inv mode own att s) (hd : own d = .dir) (hv : v < 2 ^ 20)
    (hslot : pteSlot s d v = some ptr) (hf : f < NFRAMES)
    (hk : wp k (s.linked ptr w f) Q E) :
    wp (do
      let pte ← nonNull (← walkpgdir d (v * PGSIZE))
      incSharing pte f
      k) (s.storeWord ptr.table ptr.index w) Q E := by
  have hst := pteStore_storeWord h.tables hd hv hslot w
  have hT : TableInv own (s.storeWord ptr.table ptr.index w) :=
    h.tables.store (SameMapRoles.refl own) hst.table
  rw [wp_bind, wp_walkpgdir hT (h.frames.congr rfl) hd (mul_PGSIZE_lt hv), mul_PGSIZE_div,
    hst.slot hd, hslot]
  simp only [nonNull, wp_bind, wp_pure]
  rw [wp_of_ok (incSharing_eq hf)]
  exact hk

theorem Fetched.grew {own2 : Owners} {f : Nat} {s2 : Kernel}
    (h : Fetched mode keep own own2 d v f (fun _ => 0) ptr s s2) (hd : own d = .dir)
    (hv : v < UPAGES) (hfree : has (entry s d v) PTE_P = false)
    (hnt : ¬ Tracked (attachOf s) d v) :
    Grew mode keep own (update own2 f .user) d v (v + 1) s
      (s2.linked ptr (userWord f) f) := by
  obtain ⟨hkeeps, hinv, hpres, hshows, hW, hquiet, hstays, hothers⟩ := h.link hd hv hfree hnt
  refine ⟨hkeeps, hinv, hpres, hquiet, hstays, ?_, ?_, ?_⟩
  · grind
  · grind
  · intro u hout hu hnot
    exact hothers u hu (by omega) fun he => hnot he.2.2.1.1

theorem Grew.setRss {lo hi : Nat} (h : Grew mode keep own own' d lo hi s s') (p : Nat)
    {f : Proc → Proc} (hf : ∀ pr, f pr = { pr with rss := (f pr).rss }) :
    Grew mode keep own own' d lo hi s (s'.setProc p f) where
  keeps := h.keeps
  inv := h.inv.setRss p hf
  pres := h.pres.trans (fun _ _ _ => rfl)
    ((preserves_setRss h.inv p hf).restrict h.keeps.retains)
  quiet := h.quiet.trans (fun _ _ _ => rfl) (quiet_of_pte fun e u _ _ => pteOf_of_mem_eq rfl e u)
  stays := h.stays.trans (fun _ _ _ => rfl) h.pres.procs
    (stays_of_pte fun e u _ _ => pteOf_of_mem_eq rfl e u)
  zeroed := h.zeroed
  writable := h.writable
  rest := h.rest

/-- A zeroed page, allocated and mapped at page `v`: the start of `inituvm` and of
    each turn of `allocuvm`. -/
theorem newPage_spec {c : Nat} (h : Inv mode own (attachOf s) s) (hd : own d = .dir)
    (hv : v < UPAGES) (hfree : has (entry s d v) PTE_P = false)
    (hnt : ¬ Tracked (attachOf s) d v)
    (hsup : Supply mode keep evict E (c + missing s d v + 1) s) :
    wp (kalloc evict) s (fun r s1 => ∃ f, r = some f ∧
      wp (mappages evict d (v * PGSIZE) PGSIZE (frameAddr f) (PTE_W ||| PTE_U))
        (s1.setPage f fun _ => 0) (fun r s' => r = 0 ∧ ∃ ptr own2 s2,
          Fetched mode keep own own2 d v f (fun _ => 0) ptr s s2 ∧
          Supply mode keep evict E c s2 ∧
          s' = s2.storeWord ptr.table ptr.index (userWord f)) E) E := by
  have hv20 := upages_lt hv
  refine wp_conseq (kalloc_spec h hsup) ?_
  rintro - s1 ⟨f, rfl, hf, hinv, hdrift, htabs, hsup1⟩
  have hheld : update own f .held f = .held := update_self _ _ _
  have hret : Retains own (update own f .held) := retains_update hf
  have hmaps : SameMaps (update own f .held) s1 (s1.setPage f fun _ => 0) :=
    sameMaps_setPage (by rw [hheld]; exact id)
  have hinv1 : Inv mode (update own f .held) (attachOf (s1.setPage f fun _ => 0))
      (s1.setPage f fun _ => 0) := by
    have hfill : Inv mode (update own f .held) (attachOf s) (s1.setPage f fun _ => 0) :=
      hinv.setPage (by rw [hheld]; exact id)
    rwa [← hdrift.procs.attach] at hfill
  have hfree1 : has (entry (s1.setPage f fun _ => 0) d v) PTE_P = false := by
    have hsim := hdrift.entry_sim hd hv20 (not_evictable hnt _)
    have hsame : entry (s1.setPage f fun _ => 0) d v = entry s1 d v := by
      rw [entry, hmaps.pte hinv.tables (hret.of_dir hd) hv20, entry]
    rw [hsame, hsim.present, hfree]
  have hmiss : missing (s1.setPage f fun _ => 0) d v = missing s d v := by
    rw [missing, missing, hmaps.table (hret.of_dir hd), htabs d _ hd]
  refine ⟨f, rfl, ?_⟩
  rw [mappages_one hv20]
  refine wp_conseq (mapOne_spec (c := c) hinv1 (hret.of_dir hd) hv20 hfree1
    (by rw [hmiss]; exact hsup1.congr rfl)) ?_
  rintro r s2 ⟨rfl, ptr, own2, s2, hwalk, hsup2, rfl⟩
  exact ⟨rfl, ptr, own2, s2, fetched_of_walk hf hinv hdrift hwalk, hsup2, rfl⟩

/-- One turn of the loop of `allocuvm`. -/
theorem allocuvmLoop_succ {left oldsz newsz : Nat} {Q : Nat → Kernel → Prop}
    (h : Inv mode own (attachOf s) s) (hd : own d = .dir) (hv : v < UPAGES)
    (hfree : has (entry s d v) PTE_P = false)
    (hnt : ∀ u, v ≤ u → ¬ Tracked (attachOf s) d u) (hev : EvictOk mode keep evict E)
    (hrest : ∀ own1 s1, Grew mode keep own own1 d v (v + 1) s s1 →
      wp (allocuvmLoop evict d oldsz newsz left ((v + 1) * PGSIZE)) s1 Q E) :
    wp (allocuvmLoop evict d oldsz newsz (left + 1) (v * PGSIZE)) s Q E := by
  have hntv := hnt v (Nat.le_refl v)
  rw [allocuvmLoop, wp_bind]
  refine wp_conseq (newPage_spec (c := 0) h hd hv hfree hntv (.inr hev)) ?_
  rintro - s1 ⟨f, rfl, hmap⟩
  simp only [memset, wp_bind, wp_modify]
  refine wp_conseq hmap ?_
  rintro r - ⟨rfl, ptr, own2, s2, hfetch, -, rfl⟩
  rw [if_neg (by decide)]
  refine wp_link hfetch.inv (hfetch.retains.of_dir hd) (upages_lt hv) hfetch.slot
    hfetch.frame_lt ?_
  simp only [wp_bind, wp_get, addRss, wp_modify]
  rw [← Nat.succ_mul]
  exact hrest (update own2 f .user) _
    ((hfetch.grew hd hv hfree hntv).setRss _ fun _ => rfl)

theorem allocuvmLoop_spec {oldsz newsz left : Nat} (hev : EvictOk mode keep evict E) :
    ∀ {s : Kernel} {own : Owners} {v : Nat}, Inv mode own (attachOf s) s → own d = .dir →
      v + left ≤ UPAGES →
      (∀ u, v ≤ u → u < UPAGES → has (entry s d u) PTE_P = false) →
      (∀ u, v ≤ u → ¬ Tracked (attachOf s) d u) →
      wp (allocuvmLoop evict d oldsz newsz left (v * PGSIZE)) s (fun r s' => r = newsz ∧
        ∃ own', Grew mode keep own own' d v (v + left) s s') E := by
  induction left with
  | zero =>
    intro s own v h hd hup hfree hnt
    exact ⟨rfl, own, Grew.refl h⟩
  | succ left ih =>
    intro s own v h hd hup hfree hnt
    refine allocuvmLoop_succ h hd (by omega) (hfree v (Nat.le_refl v) (by omega)) hnt hev ?_
    intro own1 s1 hgrew
    have hatt := hgrew.pres.procs.attach
    have hinv1 := hgrew.inv
    rw [← hatt] at hinv1
    refine wp_conseq (ih hinv1 (hgrew.keeps.retains.of_dir hd) (by omega) ?_ ?_) ?_
    · intro u hu hlt
      rw [(hgrew.rest u (.inr hu) (upages_lt hlt) (hnt u (by omega))).present]
      exact hfree u (by omega) hlt
    · grind
    · rintro r s' ⟨hr, own', hgrew'⟩
      rw [show v + 1 + left = v + (left + 1) by omega] at hgrew'
      exact ⟨hr, own', hgrew.trans hgrew' hd (by omega) (by omega) hup hnt⟩

/-- `allocuvm` refuses sizes at or above `KERNBASE`, ignores smaller sizes, and
    otherwise maps the pages in between. -/
theorem allocuvm_spec {oldsz newsz : Nat} (hev : EvictOk mode keep evict E)
    (h : Inv mode own (attachOf s) s) (hd : own d = .dir)
    (hfree : ∀ u, pagesOf oldsz ≤ u → u < UPAGES → has (entry s d u) PTE_P = false)
    (hnt : ∀ u, pagesOf oldsz ≤ u → ¬ Tracked (attachOf s) d u) :
    wp (allocuvm evict d oldsz newsz) s (fun r s' =>
      (KERNBASE ≤ newsz ∧ r = 0 ∧ s' = s) ∨
      (newsz < KERNBASE ∧ newsz < oldsz ∧ r = oldsz ∧ s' = s) ∨
      (newsz < KERNBASE ∧ oldsz ≤ newsz ∧ r = newsz ∧
        ∃ own', Grew mode keep own own' d (pagesOf oldsz) (pagesOf newsz) s s')) E := by
  unfold allocuvm
  by_cases hbig : KERNBASE ≤ newsz
  · rw [if_pos hbig]
    exact .inl ⟨hbig, rfl, rfl⟩
  rw [if_neg hbig]
  by_cases hsmall : newsz < oldsz
  · rw [if_pos hsmall]
    exact .inr (.inl ⟨Nat.lt_of_not_le hbig, hsmall, rfl, rfl⟩)
  rw [if_neg hsmall]
  have hstart : PGROUNDUP oldsz = pagesOf oldsz * PGSIZE := by
    simp only [pagesOf, PGROUNDUP, PGSIZE]
    omega
  have hle : pagesOf oldsz ≤ pagesOf newsz := by
    simp only [pagesOf, PGROUNDUP, PGSIZE]
    omega
  have hup : pagesOf newsz ≤ UPAGES := by
    simp only [pagesOf, PGROUNDUP, PGSIZE, UPAGES, KERNBASE] at hbig ⊢
    omega
  rw [hstart]
  refine wp_conseq (allocuvmLoop_spec hev h hd (by omega) hfree hnt) ?_
  rintro r s' ⟨hr, own', hgrew⟩
  rw [show pagesOf oldsz + (pagesOf newsz - pagesOf oldsz) = pagesOf newsz by omega] at hgrew
  exact .inr (.inr ⟨Nat.lt_of_not_le hbig, Nat.le_of_not_lt hsmall, hr, own', hgrew⟩)

end CowPaging
