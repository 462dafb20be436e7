import CowPaging.Lifecycle

/-!
# `wait` against the reference machine

`clean_proc_data` walks all tables of a zombie and releases the swap slots its
entries name, before the tables go. Then the stack and the address space are
freed and the process slot is free again.
-/

namespace CowPaging

open Bytes StateExcept SlotTable
open Function (update_of_ne update_self update)

variable [KernelImage] {mode : Mode} {keep : Bool} {evict : K Unit} {E : Halt → Prop}
  {own own' : Owners} {att : Attach} {s s' : Kernel} {d z v n : Nat} {m m' : Flat}

/-! ### `clean_proc_data` -/

/-- What `clean_proc_data` does to a slot that an entry names. -/
def SwapSlot.dropOne (slot : SwapSlot) : SwapSlot :=
  if slot.cnt = 1 then { slot with isFree := true, cnt := 0 }
  else { slot with cnt := decr32 slot.cnt }

/-- The entries with `PTE_S` of directory `d` name different slots. -/
structure SwapEntries (s : Kernel) (d : Nat) : Prop where
  slot : ∀ v w, v < 2 ^ 20 → pteOf s d v = some w → has w PTE_S = true → frameOf w < NSLOTS
  once : ∀ v v' w w', v < 2 ^ 20 → v' < 2 ^ 20 → pteOf s d v = some w → pteOf s d v' = some w' →
    has w PTE_S = true → has w' PTE_S = true → frameOf w = frameOf w' → v = v'

/-- The slots named by the first `n` entries of `d` lost one; nothing else changed. -/
structure Dropped (d n : Nat) (s s' : Kernel) : Prop where
  same : s' = { s with swaparray := s'.swaparray }
  named : ∀ v w, v < n → pteOf s d v = some w → has w PTE_S = true →
    s'.swaparray (frameOf w) = (s.swaparray (frameOf w)).dropOne
  other : ∀ k, (∀ v w, v < n → pteOf s d v = some w → has w PTE_S = true → frameOf w ≠ k) →
    s'.swaparray k = s.swaparray k

omit [KernelImage] in
theorem Dropped.zero (d : Nat) (s : Kernel) : Dropped d 0 s s :=
  ⟨rfl, fun v _ hv => absurd hv (Nat.not_lt_zero v), fun _ _ => rfl⟩

omit [KernelImage] in
theorem Dropped.mem (h : Dropped d n s s') : s'.mem = s.mem := by rw [h.same]

omit [KernelImage] in
theorem Dropped.skip {n' : Nat} (h : Dropped d n s s') (hle : n ≤ n')
    (hnone : ∀ v w, n ≤ v → v < n' → pteOf s d v = some w → has w PTE_S = false) :
    Dropped d n' s s' := by
  have hlow : ∀ v w, v < n' → pteOf s d v = some w → has w PTE_S = true → v < n := by grind
  refine ⟨h.same, fun v w hv hw hS => h.named v w (hlow v w hv hw hS) hw hS, fun k hk => ?_⟩
  exact h.other k fun v w hv hw hS => hk v w (Nat.lt_of_lt_of_le hv hle) hw hS

omit [KernelImage] in
/-- The slot of entry `n` loses one. -/
theorem Dropped.drop {w : Word} (h : Dropped d n s s') (hsw : SwapEntries s d) (hn : n < 2 ^ 20)
    (hw : pteOf s d n = some w) (hS : has w PTE_S = true) :
    Dropped d (n + 1) s (s'.setSlot (frameOf w) SwapSlot.dropOne) := by
  have hself : (s'.setSlot (frameOf w) SwapSlot.dropOne).swaparray (frameOf w) =
      (s'.swaparray (frameOf w)).dropOne := update_self _ _ _
  have hne : ∀ k, k ≠ frameOf w →
      (s'.setSlot (frameOf w) SwapSlot.dropOne).swaparray k = s'.swaparray k :=
    fun k hk => update_of_ne hk _ _
  refine ⟨by rw [Kernel.setSlot, h.same], fun v x hv hx hSx => ?_, fun k hk => ?_⟩
  · by_cases hvn : v = n
    · subst hvn
      obtain rfl := Option.some.inj (hx.symm.trans hw)
      -- no entry before this one names the same slot
      rw [hself, h.other _ fun u y hu hy hSy heq =>
        Nat.ne_of_lt hu (hsw.once u v y x (Nat.lt_trans hu hn) hn hy hx hSy hSx heq)]
    · have hk : frameOf x ≠ frameOf w := fun heq =>
        hvn (hsw.once v n x w (by omega) hn hx hw hSx hS heq)
      rw [hne _ hk]
      exact h.named v x (by omega) hx hSx
  · rw [hne k fun heq => hk n w (Nat.lt_succ_self n) hw hS heq.symm]
    exact h.other k fun v x hv => hk v x (Nat.lt_succ_of_lt hv)

omit [KernelImage] in
theorem cleanEntry_drops {w : Word} (hsw : SwapEntries s d) (hv : v < 2 ^ 20)
    (hw : pteOf s d v = some w) (hr : Dropped d v s s') :
    wp (cleanEntry w) s' (fun _ s'' => Dropped d (v + 1) s s'') E := by
  unfold cleanEntry
  by_cases hS : has w PTE_S = true
  · rw [if_pos hS, if_pos (hsw.slot v w hv hw hS), wp_modify]
    exact hr.drop hsw hv hw hS
  · rw [if_neg hS, wp_pure]
    refine hr.skip (Nat.le_succ v) fun v' w' hlo hhi hw' => ?_
    have hvv : v' = v := by omega
    subst hvv
    rw [Option.some.inj (hw'.symm.trans hw)]
    exact Bool.eq_false_of_not_eq_true hS

theorem cleanProcData_drops (h : Inv mode own att s) (hd : own d = .dir) (hsw : SwapEntries s d) :
    wp (cleanProcData d) s (fun _ s' => Dropped d (2 ^ 20) s s') E := by
  unfold cleanProcData
  refine wp_conseq (wp_loopFrom (fun i s' => Dropped d (i * 1024) s s') ?_ ?_) ?_
  · intro i s1 _ hi hr
    have hi' : i < 1024 := by simpa [NPDENTRIES] using hi
    have hnext : (i + 1) * 1024 = i * 1024 + 1024 := by omega
    simp only [wp_bind, wp_get]
    rw [hr.mem]
    by_cases hp : has (ldw (s.mem d) i) PTE_P = true
    · have htab : tableOf s d i = some (frameOf (ldw (s.mem d) i)) := by
        rw [tableOf, if_pos hp]
      have howner := (h.tables.tab_iff d i _ hd hi').1 htab
      have hlt : frameOf (ldw (s.mem d) i) < NFRAMES := h.user_lt (by rw [howner]; simp)
      rw [if_pos hp, if_pos hlt]
      refine wp_conseq (wp_loopFrom (fun j s' => Dropped d (i * 1024 + j) s s') ?_ ?_) ?_
      · intro j s2 _ hj hr2
        have hj' : j < 1024 := by simpa [NPTENTRIES] using hj
        have hpte : pteOf s d (i * 1024 + j) =
            some (pteAt s ⟨frameOf (ldw (s.mem d) i), j⟩) := by
          refine pteOf_of_slot (pteSlot_eq_some.2 ⟨?_, ?_⟩)
          · rw [show (i * 1024 + j) / 1024 = i by omega, htab]
          · simp only
            omega
        rw [wp_bind, wp_loadPte]
        have hat : pteAt s2 ⟨frameOf (ldw (s.mem d) i), j⟩ =
            pteAt s ⟨frameOf (ldw (s.mem d) i), j⟩ := by rw [pteAt, pteAt, hr2.mem]
        rw [hat]
        have hv : i * 1024 + j < 2 ^ 20 := by omega
        refine wp_conseq (cleanEntry_drops hsw hv hpte hr2) fun _ s3 hr3 => ?_
        show Dropped d (i * 1024 + (j + 1)) s s3
        rw [← Nat.add_assoc]
        exact hr3
      · grind
      · intro _ s' hr'
        rw [hnext]
        exact hr'
    · rw [if_neg hp, wp_pure, hnext]
      refine hr.skip (by omega) fun v w hlo hhi hw => ?_
      have hnone : pteOf s d v = none := by
        rw [pteOf_none_iff, show v / 1024 = i by omega, tableOf, if_neg hp]
      rw [hnone] at hw
      exact (Option.some_ne_none w hw.symm).elim
  · exact Dropped.zero d s
  · intro _ s' hr
    exact hr

/-- The slots named by the first `n` entries of `d` are free; nothing else changed. -/
structure Released (d n : Nat) (s s' : Kernel) : Prop where
  same : s' = { s with swaparray := s'.swaparray }
  named : ∀ v w, v < n → pteOf s d v = some w → has w PTE_S = true →
    (s'.swaparray (frameOf w)).isFree = true ∧ (s'.swaparray (frameOf w)).cnt = 0
  other : ∀ k, (∀ v w, v < n → pteOf s d v = some w → has w PTE_S = true → frameOf w ≠ k) →
    s'.swaparray k = s.swaparray k
  perm : ∀ k, (s'.swaparray k).pagePerm = (s.swaparray k).pagePerm

omit [KernelImage] in
theorem Released.mem (h : Released d n s s') : s'.mem = s.mem := by rw [h.same]

/-- Entries with `PTE_S` are swapped-out user pages of the process. -/
theorem Inv.swap_entry {p : Nat} {w : Word} (h : Inv mode own att s) (hatt : att p = some (d, z))
    (hv : v < 2 ^ 20) (hw : pteOf s d v = some w) (hS : has w PTE_S = true) :
    v < UPAGES ∧ isSwapped w = true := by
  have hd := h.procs.dir p d z hatt
  have hlt : v < UPAGES := by
    by_contra hge
    rw [h.maps.kern d v w hd (Nat.le_of_not_lt hge) hv hw] at hS
    cases hS
  refine ⟨hlt, ?_⟩
  cases hp : has w PTE_P with
  | true =>
    rw [(h.maps.user d v w ⟨hd, hlt, hw⟩ hp).2] at hS
    cases hS
  | false => rw [isSwapped, hp, hS]; rfl

theorem Inv.swapEntries {p : Nat} (h : Inv mode own att s) (hatt : att p = some (d, z)) :
    SwapEntries s d := by
  constructor
  · intro v w hv hw hS
    obtain ⟨hu, hsw⟩ := h.swap_entry hatt hv hw hS
    exact (h.procs.slot p d z v w hatt hu hw hsw).slot
  · intro v v' w w' hv hv' hw hw' hS hS' heq
    obtain ⟨hu, hsw⟩ := h.swap_entry hatt hv hw hS
    obtain ⟨hu', hsw'⟩ := h.swap_entry hatt hv' hw' hS'
    exact (h.procs.slot_owner h.tables hatt hu hw hsw hatt hu' hw' hsw' heq.symm).2.symm

theorem cleanProcData_spec {p : Nat} (h : Inv mode own att s) (hatt : att p = some (d, z)) :
    wp (cleanProcData d) s (fun _ s' => Released d (2 ^ 20) s s') E := by
  refine wp_conseq (cleanProcData_drops h (h.procs.dir p d z hatt) (h.swapEntries hatt)) ?_
  intro _ s' hd
  refine ⟨hd.same, fun v w hv hw hS => ?_, hd.other, fun k => ?_⟩
  · obtain ⟨hu, hsw⟩ := h.swap_entry hatt hv hw hS
    rw [hd.named v w hv hw hS, SwapSlot.dropOne,
      if_pos (h.procs.slot p d z v w hatt hu hw hsw).cnt]
    exact ⟨rfl, rfl⟩
  · by_cases hk : ∀ v w, v < 2 ^ 20 → pteOf s d v = some w → has w PTE_S = true → frameOf w ≠ k
    · rw [hd.other k hk]
    · simp only [not_forall, not_not] at hk
      obtain ⟨v, w, hv, hw, hS, rfl⟩ := hk
      rw [hd.named v w hv hw hS, SwapSlot.dropOne]
      split <;> rfl

theorem Inv.released {p : Nat} (h : Inv mode own att s) (hatt : att p = some (d, z))
    (hr : Released d (2 ^ 20) s s') : Inv mode own (update att p none) s' := by
  have hdet := h.detach p
  have hsub : ∀ {q : Nat} {x : Nat × Nat}, update att p none q = some x →
      q ≠ p ∧ att q = some x := by grind
  have hpte : ∀ e u, pteOf s' e u = pteOf s e u := pteOf_of_mem_eq hr.mem
  have hslot : ∀ e u, pteSlot s' e u = pteSlot s e u := fun e u => by
    rw [pteSlot, pteSlot, tableOf, tableOf, hr.mem]
  have hmaps : SameMaps own s s' := sameMaps_of_mem hr.mem
  have hrmap : s'.rmap = s.rmap := by rw [hr.same]
  have hproc : s'.proc = s.proc := by rw [hr.same]
  -- a slot that an entry of `d` names, or a slot as it was
  have hcase : ∀ k, (∃ v w, v < 2 ^ 20 ∧ pteOf s d v = some w ∧ has w PTE_S = true ∧
      frameOf w = k) ∨ s'.swaparray k = s.swaparray k := by
    intro k
    by_cases hk : ∃ v w, v < 2 ^ 20 ∧ pteOf s d v = some w ∧ has w PTE_S = true ∧ frameOf w = k
    · exact .inl hk
    · exact .inr (hr.other k fun v w hv hw hS heq => hk ⟨v, w, hv, hw, hS, heq⟩)
  have hkeep : ∀ q e y u x, q ≠ p → att q = some (e, y) → u < UPAGES → pteOf s e u = some x →
      isSwapped x = true → s'.swaparray (frameOf x) = s.swaparray (frameOf x) := by
    intro q e y u x hqp hq hu hx hsx
    refine hr.other _ fun v w hv hw hS heq => hqp ?_
    obtain ⟨hvu, hsw⟩ := h.swap_entry hatt hv hw hS
    have hed := (h.procs.slot_owner h.tables hq hu hx hsx hatt hvu hw hsw heq).1
    rw [← hed] at hq
    exact h.procs.inj _ _ _ _ _ hq hatt
  refine ⟨h.frames.congr (by rw [hr.same]), h.tables.congr (SameRoles.refl own) hmaps,
    h.maps.congr h.tables (SameRoles.refl own) hmaps hrmap,
    ⟨hdet.procs.dir, hdet.procs.inj, hdet.procs.size, ?_, ?_, ?_⟩, ?_, ?_, ?_, ?_⟩
  · intro q e y u hq hu
    rw [hpte]
    exact hdet.procs.page q e y u hq hu
  · intro q e y u x hq hu hx hsx
    obtain ⟨hqp, hq'⟩ := hsub hq
    rw [hpte] at hx
    have hsame := hkeep q e y u x hqp hq' hu hx hsx
    obtain ⟨h1, h2, h3, h4, h5, h6, h7⟩ := h.procs.slot q e y u x hq' hu hx hsx
    refine ⟨h1, ?_, ?_, ?_, ?_, ?_, ?_⟩ <;> rw [hsame]
    · exact h2
    · exact h3
    · rw [hslot]; exact h4
    · exact h5
    · exact h6
    · exact h7
  · intro i hi hfree
    rcases hcase i with ⟨v, w, hv, hw, hS, rfl⟩ | hsame
    · exact (hr.named v w hv hw hS).2
    · rw [hsame] at hfree ⊢
      exact h.procs.slotFree i hi hfree
  · intro hm n hn
    rw [hrmap]
    exact h.unshared hm n hn
  · intro hm
    have hclean := h.idle hm
    rw [hr.same]
    exact hclean
  · intro hm i hi
    rcases hcase i with ⟨v, w, hv, hw, hS, rfl⟩ | hsame
    · exact (hr.named v w hv hw hS).1
    · rw [hsame]
      exact h.resident hm i hi
  · intro hm
    have hexact := h.slots hm
    refine ⟨?_, ?_⟩
    · intro q e y u x hq hu hx hsx
      rw [hpte] at hx
      exact hexact.tracked q e y u x (hsub hq).2 hu hx hsx
    · intro i hi hbusy
      rcases hcase i with ⟨v, w, hv, hw, hS, rfl⟩ | hsame
      · rw [(hr.named v w hv hw hS).1] at hbusy
        cases hbusy
      · have hbusy' := hbusy
        rw [hsame] at hbusy
        obtain ⟨q, e, y, u, x, hq, hu, hx, hsx, hf⟩ := hexact.used i hi hbusy
        refine ⟨q, e, y, u, x, ?_, hu, by rw [hpte, hx], hsx, hf⟩
        rw [update_of_ne ?_, hq]
        rintro rfl
        obtain ⟨rfl, rfl⟩ := Prod.mk.inj (Option.some.inj (hq.symm.trans hatt))
        rw [← hf, (hr.named u x (upages_lt hu) hx (swapped_flag hsx)).1] at hbusy'
        cases hbusy'

/-! ### `wait` -/

/-- The process table entry of a reaped child. -/
def Kernel.reaped (s : Kernel) (c : Nat) : Kernel :=
  s.setProc c fun pr => { pr with pid := 0, parent := none, killed := false, state := .unused }

theorem Refines.reap {own1 : Owners} {c : Nat} {s1 s2 s3 : Kernel}
    (h : Refines mode own s m) (hmode : mode.single = false)
    (hc : attachOf s c = some (d, z)) (hr : Released d (2 ^ 20) s s1)
    (hown1 : own1 = update own (s.proc c).kstack .free)
    (hs2 : s2 = (s1.freed (s.proc c).kstack).setProc c fun pr => { pr with kstack := 0 })
    (hinv2 : Inv mode own1 (update (attachOf s) c none) s2)
    (hinv3 : Inv mode own' (update (attachOf s) c none) s3)
    (hfs : FreedSpace own1 own' d s2 s3) :
    Refines mode own' (s3.reaped c) (m.setProc c fun pr =>
      { pr with pid := 0, parent := none, killed := false, state := .unused }) := by
  obtain ⟨hlt, hlive, -, -⟩ := attachOf_eq_some.1 hc
  have hne_unused : (s.proc c).state ≠ .unused := by
    intro hun
    rw [hun] at hlive
    cases hlive
  have hkst := h.kinv.kstack c hlt hne_unused
  have hdirD := h.kinv.inv.procs.dir c d z hc
  have hdne : ∀ {e}, own e = .dir → e ≠ (s.proc c).kstack := by grind
  have hdir1 : ∀ {e}, own1 e = .dir ↔ own e = .dir := by
    intro e
    rw [hown1]
    by_cases he : e = (s.proc c).kstack
    · grind
    · rw [update_of_ne he]
  have hproc1 : s1.proc = s.proc := by rw [hr.same]
  have hproc2 : ∀ p, p ≠ c → s2.proc p = s.proc p := by
    intro p hp
    rw [hs2, ← hproc1]
    exact update_of_ne hp _ _
  have hproc : ∀ p, p ≠ c → (s3.reaped c).proc p = { s.proc p with rss := (s3.proc p).rss } := by
    intro p hp
    have heq : (s3.reaped c).proc p = s3.proc p := update_of_ne hp _ _
    rw [heq, hfs.only.procs.proc p, hproc2 p hp]
  have hself : (s3.reaped c).proc c = { s3.proc c with
      pid := 0, parent := none, killed := false, state := .unused } := update_self _ _ _
  have hatt : attachOf (s3.reaped c) = update (attachOf s) c none := by
    funext p
    by_cases hp : p = c
    · subst hp
      rw [update_self, attachOf, if_neg]
      rw [hself]
      simp [ProcState.live]
    · rw [update_of_ne hp, attachOf, attachOf, hproc p hp]
  -- user memory and tables of the others are as they were
  have hmem2 : ∀ g, g ≠ (s.proc c).kstack → s2.mem g = s.mem g := by
    intro g hg
    rw [hs2, ← hr.mem]
    exact update_of_ne hg _ _
  have hmaps2 : SameMaps own s s2 := by
    intro g hg
    refine hmem2 g ?_
    rintro rfl
    rw [hkst] at hg
    exact hg
  have hpte : ∀ e u, own e = .dir → e ≠ d → u < 2 ^ 20 → pteOf s3 e u = pteOf s e u := by
    intro e u he hne hu
    rw [hfs.pte hinv2.tables (hdir1.2 hdirD) (hdir1.2 he) hne hu,
      hmaps2.pte h.kinv.inv.tables he hu]
  have hview : ∀ e u, own e = .dir → e ≠ d → u < UPAGES → view s3 e u = view s e u := by
    intro e u he hne hu
    rw [hfs.view hinv2 hinv3 (hdir1.2 hdirD) (hdir1.2 he) hne hu]
    refine view_congr (hmaps2.pte h.kinv.inv.tables he (upages_lt hu)) ?_ ?_ ?_
    · intro w hw hp
      refine hmem2 _ ?_
      intro heq
      have huser := (h.kinv.inv.maps.user e u w ⟨he, hu, hw⟩ hp).1
      rw [heq, hkst] at huser
      cases huser
    · intro k
      rw [hs2]
      exact hr.perm k
    · rw [hs2]
      show s1.disk = s.disk
      rw [hr.same]
  have hother : ∀ {p e y}, p ≠ c → attachOf s p = some (e, y) → e ≠ d := by
    rintro p e y hp hpe rfl
    exact hp (h.kinv.inv.procs.inj _ _ _ _ _ hpe hc)
  have hsub : ∀ {p e y}, update (attachOf s) c none p = some (e, y) →
      p ≠ c ∧ attachOf s p = some (e, y) := by grind
  refine ⟨⟨?_, ?_, ?_, ?_, ?_, ?_⟩, ?_, ?_⟩
  · rw [hatt]
    refine hinv3.withProc _ _ _ fun hm => ?_
    rw [hmode] at hm
    cases hm
  · intro p hp hstate
    have hpc : p ≠ c := by grind
    rw [hproc p hpc] at hstate ⊢
    have hst := h.kinv.kstack p hp hstate
    have hne : (s.proc p).kstack ≠ (s.proc c).kstack := by grind
    have hst1 : own1 (s.proc p).kstack = .stack p := by rw [hown1, update_of_ne hne, hst]
    have hstays := hfs.stays (s.proc p).kstack (by rw [hst1]; simp) ?_ fun i => by rw [hst1]; simp
    · exact hstays.trans hst1
    · grind
  · intro e he
    have hed : e ≠ d := by
      rintro rfl
      rw [hfs.gone] at he
      cases he
    have hold : own e = .dir := hdir1.1 (by rw [← hfs.roles e (by rw [he]; simp), he])
    obtain ⟨p, y, hp⟩ := h.kinv.attached e hold
    have hpc : p ≠ c := by grind
    exact ⟨p, y, by rw [hatt, update_of_ne hpc, hp]⟩
  · intro p e y u hp hz hu
    rw [hatt] at hp
    obtain ⟨hpc, hp'⟩ := hsub hp
    have he := h.kinv.inv.procs.dir p e y hp'
    have hent : entry (s3.reaped c) e u = entry s e u := by
      rw [entry, entry, ← hpte e u he (hother hpc hp') (upages_lt hu)]
      exact congrArg (fun x => x.getD 0) (pteOf_of_mem_eq rfl e u)
    rw [hent]
    exact h.kinv.above p e y u hp' hz hu
  · intro p hp
    by_cases hpc : p = c
    · grind
    · rw [hproc p hpc]
      exact h.kinv.settled p hp
  · intro K hK
    have hstack : Ledger K own1 (s3.reaped c) := by
      rw [hown1]
      refine (h.kinv.ledger K hK).dropStack hkst (fun g hg => ?_) fun p hpc => ?_
      · have hgk : g ≠ (s.proc c).kstack := by grind
        have hg1 : own1 g = .held := by rw [hown1, update_of_ne hgk, hg]
        exact (hfs.held (hdir1.2 hdirD) hg1).trans (hmem2 g hgk)
      · rw [hproc p hpc]
        exact ⟨rfl, rfl⟩
    exact hstack.step (hfs.sameKernel (hdir1.2 hdirD)) (fun _ _ => rfl)
      fun _ _ hused => ⟨hused, rfl⟩
  · have hnext : (s3.reaped c).nextpid = s.nextpid := by
      have : s2.nextpid = s.nextpid := by rw [hs2]; show s1.nextpid = _; rw [hr.same]
      exact hfs.only.procs.nextpid.trans this
    have hinit : (s3.reaped c).initproc = s.initproc := by
      have : s2.initproc = s.initproc := by rw [hs2]; show s1.initproc = _; rw [hr.same]
      exact hfs.only.procs.initproc.trans this
    refine ⟨fun p => ?_, fun p => ?_, fun p => ?_, fun p => ?_, ?_, ?_⟩
    · by_cases hpc : p = c
      · subst hpc; simp [Flat.setProc, hself]
      · simp [Flat.setProc, hpc, hproc p hpc, h.table.state]
    · by_cases hpc : p = c
      · subst hpc; simp [Flat.setProc, hself]
      · simp [Flat.setProc, hpc, hproc p hpc, h.table.pid]
    · by_cases hpc : p = c
      · subst hpc; simp [Flat.setProc, hself]
      · simp [Flat.setProc, hpc, hproc p hpc, h.table.parent]
    · by_cases hpc : p = c
      · subst hpc; simp [Flat.setProc, hself]
      · simp [Flat.setProc, hpc, hproc p hpc, h.table.killed]
    · rw [hnext]; exact h.table.nextpid
    · rw [hinit]; exact h.table.initproc
  · intro p e y hp
    rw [hatt] at hp
    obtain ⟨hpc, hp'⟩ := hsub hp
    simp only [Flat.setProc, update_of_ne hpc]
    refine (h.memory p e y hp').congr fun u hu => ?_
    obtain ⟨he, hlt', hvis⟩ := h.kinv.inv.visible hp' hu
    obtain ⟨x, hx⟩ := h.kinv.inv.view_some hvis
    refine SameView.of_eq hx ?_
    rw [← hview e u he (hother hpc hp') hlt']
    exact view_congr (pteOf_of_mem_eq rfl e u) (fun _ _ _ => rfl) (fun _ => rfl) rfl

/-- What the caller of `wait` gets. -/
def waitReply : Option Int → Reply
  | some r => .code r
  | none => .asleep

theorem Refines.wp_wait (h : Refines mode own s m) (hmode : mode.single = false) :
    wp wait s (fun r s' => ∃ own', Refines mode own' s' (m.wait s.cur).2 ∧
      waitReply r = (m.wait s.cur).1) E := by
  have hflat : (fun p => decide ((m.proc p).parent = some s.cur) &&
      decide ((m.proc p).state = .zombie)) =
      fun p => decide ((s.proc p).parent = some s.cur) && decide ((s.proc p).state = .zombie) :=
    funext fun p => by rw [h.table.parent, h.table.state]
  have hkids : (fun p => decide ((m.proc p).parent = some s.cur)) =
      fun p => decide ((s.proc p).parent = some s.cur) := funext fun p => by rw [h.table.parent]
  unfold wait Flat.wait
  rw [wp_bind, wp_get, hflat]
  cases hslot : firstSlot NPROC fun p =>
      decide ((s.proc p).parent = some s.cur) && decide ((s.proc p).state = .zombie) with
  | none =>
    dsimp only
    rw [hkids, h.table.killed]
    by_cases hret : (!((List.range NPROC).any fun p =>
        decide ((s.proc p).parent = some s.cur)) || (s.proc s.cur).killed) = true
    · rw [if_pos hret, if_pos hret]
      exact ⟨own, h, rfl⟩
    · rw [if_neg hret, if_neg hret]
      exact ⟨own, h, rfl⟩
  | some c =>
    obtain ⟨hlt, htest⟩ := firstSlot_some hslot
    have hzombie : (s.proc c).state = .zombie := by grind
    have hc : attachOf s c = some ((s.proc c).pgdir, (s.proc c).sz) :=
      attachOf_eq_some.2 ⟨hlt, by rw [hzombie]; rfl, rfl, rfl⟩
    have hkst := h.kinv.kstack c hlt (by rw [hzombie]; simp)
    have hdirD := h.kinv.inv.procs.dir c _ _ hc
    simp only [wp_bind]
    refine wp_conseq (cleanProcData_spec h.kinv.inv hc) ?_
    rintro - s1 hr
    have hinv1 := h.kinv.inv.released hc hr
    rw [wp_of_ok (kfree_eq hinv1.frames (by rw [hkst]; simp))]
    simp only [wp_modify]
    have hinv2 := (hinv1.freed (f := (s.proc c).kstack) (by rw [hkst]; trivial)
      (by rw [hkst]; simp) (by rw [hkst]; simp)).withProc
      (f := ((s1.freed (s.proc c).kstack).setProc c fun pr => { pr with kstack := 0 }).proc)
      s1.nextpid s1.cur s1.initproc
      fun hm => by rw [hmode] at hm; cases hm
    have hd1 : update own (s.proc c).kstack .free (s.proc c).pgdir = .dir := by grind
    refine wp_conseq (freevm2_spec hinv2 hd1 ?_ c) ?_
    · intro p y hp
      by_cases hpc : p = c
      · grind
      · rw [update_of_ne hpc] at hp
        exact hpc (h.kinv.inv.procs.inj _ _ _ _ _ hp hc)
    · rintro - s3 ⟨own3, hinv3, hfs⟩
      refine ⟨own3, h.reap hmode hc hr rfl rfl hinv2 hinv3 hfs, ?_⟩
      rw [h.table.pid]
      rfl

end CowPaging
