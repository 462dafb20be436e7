import CowPaging.FreeSpec

/-!
# Page faults on mapped pages

`handle_fage_fault` on an address below the size of the current process: the only
mapper of a page gets write permission, a sharer gets a page of its own, and a
swapped-out page comes back from its slot. In each case nobody sees another byte
than before, so an access that faults is repeated and then goes through.
-/

namespace CowPaging

open Bytes StateExcept SlotTable
open Function (update_of_ne update_self update_idem update_eq_self update)

variable {own own' : Owners} {att : Attach} {s s' : Kernel} {d v : Nat} {ptr : PtePtr}
  {w w1 : Word}

/-! ### Words -/

theorem or_flag_bit (w : Word) {k i : Nat} (hk : k < 32) (hi : i ≠ k) :
    (w ||| BitVec.twoPow 32 k).getLsbD i = w.getLsbD i := by
  rw [BitVec.getLsbD_or, getLsbD_flag hk, decide_eq_false hi, Bool.or_false]

theorem and_not_flag_bit (w : Word) {k i : Nat} (hk : k < 32) (hi : i ≠ k) :
    (w &&& ~~~BitVec.twoPow 32 k).getLsbD i = w.getLsbD i := by grind

/-- The bits of an entry that translation and the reverse map go by. -/
structure SameTarget (w₁ w : Word) : Prop where
  frame : frameOf w₁ = frameOf w
  present : has w₁ PTE_P = has w PTE_P
  user : has w₁ PTE_U = has w PTE_U
  swap : has w₁ PTE_S = has w PTE_S

theorem sameTarget_of_bits (h : ∀ i, i ≠ 1 → i ≠ 5 → i ≠ 6 → w1.getLsbD i = w.getLsbD i) :
    SameTarget w1 w where
  frame := frameOf_congr fun i hi => h i (by omega) (by omega) (by omega)
  present := by rw [has_P, has_P, h 0 (by decide) (by decide) (by decide)]
  user := by rw [has_U, has_U, h 2 (by decide) (by decide) (by decide)]
  swap := by rw [has_S, has_S, h 7 (by decide) (by decide) (by decide)]

theorem sameTarget_setW (w : Word) : SameTarget (w ||| PTE_W) w :=
  sameTarget_of_bits fun _ h1 _ _ => or_flag_bit w (k := 1) (by decide) h1

theorem sameTarget_clearW (w : Word) : SameTarget (w &&& ~~~PTE_W) w :=
  sameTarget_of_bits fun _ h1 _ _ => and_not_flag_bit w (k := 1) (by decide) h1

theorem sameTarget_setA (w : Word) : SameTarget (w ||| PTE_A) w :=
  sameTarget_of_bits fun _ _ h5 _ => or_flag_bit w (k := 5) (by decide) h5

theorem sameTarget_setD (w : Word) : SameTarget (w ||| PTE_D) w :=
  sameTarget_of_bits fun _ _ _ h6 => or_flag_bit w (k := 6) (by decide) h6

theorem SameTarget.trans {w2 : Word} (h : SameTarget w2 w1) (h' : SameTarget w1 w) :
    SameTarget w2 w :=
  ⟨h.frame.trans h'.frame, h.present.trans h'.present, h.user.trans h'.user,
    h.swap.trans h'.swap⟩

theorem copyWord_bits {f : Nat} (hf : f < 2 ^ 20) (w : Word) :
    frameOf (frameAddr f ||| PTE_FLAGS w ||| PTE_W) = f ∧
      has (frameAddr f ||| PTE_FLAGS w ||| PTE_W) PTE_P = has w PTE_P ∧
      has (frameAddr f ||| PTE_FLAGS w ||| PTE_W) PTE_U = has w PTE_U ∧
      has (frameAddr f ||| PTE_FLAGS w ||| PTE_W) PTE_S = has w PTE_S ∧
      has (frameAddr f ||| PTE_FLAGS w ||| PTE_W) PTE_W = true := by
  have hlow : ∀ i, i < 12 → i ≠ 1 →
      (frameAddr f ||| PTE_FLAGS w ||| PTE_W).getLsbD i = w.getLsbD i := by
    intro i hi h1
    rw [BitVec.getLsbD_or, BitVec.getLsbD_or, frameAddr_low hf hi, getLsbD_PTE_FLAGS, getLsbD_W,
      decide_eq_false h1, decide_eq_true hi]
    simp
  refine ⟨?_, ?_, ?_, ?_, ?_⟩
  · rw [BitVec.or_assoc]
    refine frameOf_mk hf fun i hi => ?_
    rw [BitVec.getLsbD_or, getLsbD_PTE_FLAGS, getLsbD_W, decide_eq_false (by omega),
      decide_eq_false (by omega)]
    rfl
  · rw [has_P, has_P, hlow 0 (by decide) (by decide)]
  · rw [has_U, has_U, hlow 2 (by decide) (by decide)]
  · rw [has_S, has_S, hlow 7 (by decide) (by decide)]
  · rw [has_W, BitVec.getLsbD_or, getLsbD_W]
    simp

/-- The word that maps a page read back from its slot. -/
def restoredWord (f : Nat) (perm : Word) : Word :=
  ((frameAddr f ||| PTE_FLAGS perm) ||| PTE_A) &&& ~~~PTE_W &&& ~~~PTE_S

theorem restoredWord_bit (f : Nat) (perm : Word) {i : Nat} (h1 : i ≠ 1) (h5 : i ≠ 5)
    (h7 : i ≠ 7) :
    (restoredWord f perm).getLsbD i = (frameAddr f ||| PTE_FLAGS perm).getLsbD i :=
  ((and_not_flag_bit (k := 7) _ (by decide) h7).trans
    (and_not_flag_bit (k := 1) _ (by decide) h1)).trans (or_flag_bit (k := 5) _ (by decide) h5)

theorem restoredWord_bits {f : Nat} (hf : f < 2 ^ 20) (perm : Word) :
    frameOf (restoredWord f perm) = f ∧
      has (restoredWord f perm) PTE_P = has perm PTE_P ∧
      has (restoredWord f perm) PTE_U = has perm PTE_U ∧
      has (restoredWord f perm) PTE_S = false := by
  have hlow : ∀ i, i < 12 → i ≠ 1 → i ≠ 5 → i ≠ 7 →
      (restoredWord f perm).getLsbD i = perm.getLsbD i := by
    intro i hi h1 h5 h7
    rw [restoredWord_bit f perm h1 h5 h7, getLsbD_mk hf hi, getLsbD_PTE_FLAGS, decide_eq_true hi,
      Bool.true_and]
  refine ⟨?_, ?_, ?_, ?_⟩
  · rw [frameOf_congr fun i hi => restoredWord_bit f perm (by omega) (by omega) (by omega)]
    refine frameOf_mk hf fun i hi => ?_
    rw [getLsbD_PTE_FLAGS, decide_eq_false (by omega), Bool.false_and]
  · rw [has_P, has_P, hlow 0 (by decide) (by decide) (by decide) (by decide)]
  · rw [has_U, has_U, hlow 2 (by decide) (by decide) (by decide) (by decide)]
  · rw [has_S, restoredWord, BitVec.getLsbD_and, BitVec.getLsbD_not, getLsbD_S]
    simp

section

variable [KernelImage] {mode : Mode} {keep : Bool} {evict : K Unit} {E : Halt → Prop}

/-! ### New flags -/

theorem flags_step (h : Inv mode own att s) (hd : own d = .dir) (hv : v < UPAGES)
    (hslot : pteSlot s d v = some ptr) (hp : has (pteAt s ptr) PTE_P = true)
    (ht : SameTarget w1 (pteAt s ptr))
    (hW : has w1 PTE_W = true → (s.rmap (frameOf (pteAt s ptr))).refcount = 1) :
    Inv mode own att (s.storeWord ptr.table ptr.index w1) ∧
      Preserves own att s (s.storeWord ptr.table ptr.index w1) ∧
      Quiet own att (fun e u => e = d ∧ u = v) s (s.storeWord ptr.table ptr.index w1) ∧
      pteOf (s.storeWord ptr.table ptr.index w1) d v = some w1 := by
  have hv20 := upages_lt hv
  have hpte := pteOf_of_slot hslot
  have hst := pteStore_storeWord h.tables hd hv20 hslot w1
  have hu : Upte own s d v (pteAt s ptr) := ⟨hd, hv, hpte⟩
  obtain ⟨huser, hS⟩ := h.maps.user d v _ hu hp
  have hp1 : has w1 PTE_P = true := ht.present.trans hp
  have hself : pteOf (s.storeWord ptr.table ptr.index w1) d v = some w1 := by
    rw [hst.pte d v hd hv20, if_pos ⟨rfl, rfl⟩]
  have howner := h.tables.slot_owner hd hv20 hslot
  have hmem : ∀ g, ¬ (own g).isMap → (s.storeWord ptr.table ptr.index w1).mem g = s.mem g := by
    intro g hg
    refine update_of_ne ?_ _ _
    rintro rfl
    rw [howner] at hg
    exact hg trivial
  refine ⟨h.flags hst (sameRest_storeWord _ _ _ _) rfl hu hp hp1 ht.frame (ht.swap.trans hS) hW,
    preserves_store h hst (sameRest_storeWord _ _ _ _).procs hmem (fun _ => rfl) rfl ?_,
    hst.quiet, hself⟩
  intro _
  refine ⟨⟨w1, hself, .inl hp1⟩, SameView.of_eq (view_of_present hpte hp) ?_⟩
  rw [view_of_present hself hp1, view_of_present hpte hp, ht.frame, ht.user,
    hmem _ (by rw [huser]; exact id)]

/-! ### The three cases of the handler -/

/-- A fault at page `v` of directory `d` was handled. -/
structure Faulted (mode : Mode) (own own' : Owners) (d v : Nat) (s s' : Kernel) : Prop where
  keeps : Keeps own own'
  inv : Inv mode own' (attachOf s) s'
  pres : Preserves own (attachOf s) s s'
  quiet : Quiet own (attachOf s) (fun e u => e = d ∧ u = v) s s'
  present : has (entry s' d v) PTE_P = true
  writable : has (entry s d v) PTE_P = true → has (entry s' d v) PTE_W = true

/-- Page `v` of directory `d` was absent before and is mapped nowhere else now. -/
def Sole (d v : Nat) (s s' : Kernel) : Prop :=
  has (entry s d v) PTE_P = false → (s'.rmap (frameOf (entry s' d v))).refcount = 1

omit [KernelImage] in
theorem sole_of_present (h : has (entry s d v) PTE_P = true) : Sole d v s s' := by
  intro habs
  rw [h] at habs
  cases habs

theorem faulted_upgrade (h : Inv mode own (attachOf s) s) (hd : own d = .dir) (hv : v < UPAGES)
    (hslot : pteSlot s d v = some ptr) (hp : has (pteAt s ptr) PTE_P = true)
    (hone : (s.rmap (frameOf (pteAt s ptr))).refcount = 1) :
    Faulted mode own own d v s (s.storeWord ptr.table ptr.index (pteAt s ptr ||| PTE_W)) := by
  obtain ⟨hinv, hpres, hquiet, hself⟩ :=
    flags_step h hd hv hslot hp (sameTarget_setW _) fun _ => hone
  refine ⟨Keeps.refl own, hinv, hpres, hquiet, ?_, fun _ => ?_⟩
  · rw [entry_of_pte hself, (sameTarget_setW _).present, hp]
  · rw [entry_of_pte hself, has_W, BitVec.getLsbD_or, getLsbD_W]
    simp

/-- The page `f` was filled from the shared page; now the entry moves to it. -/
theorem faulted_copy {own1 : Owners} {f : Nat} {s1 s3 : Kernel} {r : Rmap}
    (hf : own f = .free ∨ own f = .user) (hown1 : own1 = update own f .held)
    (hinv : Inv mode own1 (attachOf s) s1)
    (hdrift : Drift own (attachOf s) (Victims keep s) s s1) (hd : own d = .dir) (hv : v < UPAGES)
    (hslot : pteSlot s1 d v = some ptr) (hp : has (pteAt s1 ptr) PTE_P = true)
    (hfill : s1.mem f = s1.mem (frameOf (pteAt s1 ptr)))
    (hshared : 1 < (s1.rmap (frameOf (pteAt s1 ptr))).refcount)
    (hdec : r.Lists (mappers own1 s1 (frameOf (pteAt s1 ptr)) \ {ptr}))
    (hcount : r.refcount = (s1.rmap (frameOf (pteAt s1 ptr))).refcount - 1)
    (hs3 : s3 = ((s1.storeWord ptr.table ptr.index
        (frameAddr f ||| PTE_FLAGS (pteAt s1 ptr) ||| PTE_W)).setRmap
          (frameOf (pteAt s1 ptr)) r).setRmap f ((s1.rmap f).inc ptr)) :
    Faulted mode own (update own f .user) d v s s3 := by
  have hret : Retains own own1 := hown1 ▸ retains_update hf
  have hheld : own1 f = .held := by rw [hown1, update_self]
  have hd1 := hret.of_dir hd
  have hv20 := upages_lt hv
  have hflt : f < NFRAMES := hinv.user_lt (by rw [hheld]; simp)
  obtain ⟨hframe, hP, hU, hS, hW⟩ := copyWord_bits (nframes_lt hflt) (pteAt s1 ptr)
  have hpte := pteOf_of_slot hslot
  have hu : Upte own1 s1 d v (pteAt s1 ptr) := ⟨hd1, hv, hpte⟩
  obtain ⟨huser, hS0⟩ := hinv.maps.user d v _ hu hp
  have howner := hinv.tables.slot_owner hd1 hv20 hslot
  have hst : PteStore own1 d v (frameAddr f ||| PTE_FLAGS (pteAt s1 ptr) ||| PTE_W) s1 s3 := by
    rw [hs3]
    exact pteStore_of_mem hinv.tables hd1 hv20 hslot fun _ _ => rfl
  have hself : pteOf s3 d v = some (frameAddr f ||| PTE_FLAGS (pteAt s1 ptr) ||| PTE_W) := by
    rw [hst.pte d v hd1 hv20, if_pos ⟨rfl, rfl⟩]
  have hmem : ∀ g, ¬ (own1 g).isMap → s3.mem g = s1.mem g := by
    intro g hg
    rw [hs3]
    refine update_of_ne ?_ _ _
    rintro rfl
    rw [howner] at hg
    exact hg trivial
  have hrest : SameRest s1 s3 := by
    rw [hs3]
    exact ((sameRest_storeWord _ _ _ _).trans (sameRest_setRmap _ _ _)).trans
      (sameRest_setRmap _ _ _)
  have hrmap : s3.rmap = update (update s1.rmap (frameOf (pteAt s1 ptr)) r) f
      ((s1.rmap f).inc ptr) := by rw [hs3]; rfl
  have hnewinv := hinv.remap hst hrest hu hslot hp (hP.trans hp) (hS.trans hS0)
    (by rw [hframe]; exact hheld) hdec hshared hcount (by rw [hframe]; exact hrmap)
  rw [hframe, hown1, update_idem] at hnewinv
  have hpres : Preserves own1 (attachOf s) s1 s3 := by
    refine preserves_store hinv hst hrest.procs hmem (fun _ => by rw [hrest.slots]) hrest.disk
      fun _ => ?_
    refine ⟨⟨_, hself, .inl (hP.trans hp)⟩, SameView.of_eq (view_of_present hpte hp) ?_⟩
    rw [view_of_present hself (hP.trans hp), view_of_present hpte hp, hframe, hU,
      hmem f (by rw [hheld]; exact id), hfill]
  refine ⟨keeps_update hf (by simp) id, hnewinv, ?_, ?_, ?_, fun _ => ?_⟩
  · exact (hdrift.preserves fun _ _ hV => hV.1).trans (fun _ _ _ => rfl) (hpres.restrict hret)
  · exact (hdrift.quiet fun _ _ hV => hV.1).trans hret hst.quiet
  · rw [entry_of_pte hself, hP, hp]
  · rw [entry_of_pte hself, hW]

/-! ### Swapping a page in -/

theorem Inv.relax (h : Inv mode own att s) : Inv mode.lax own att s :=
  ⟨h.frames, h.tables, h.maps, h.procs, h.unshared, h.idle, h.resident,
    fun hm => Bool.noConfusion hm⟩

omit [KernelImage] in
theorem ProcInv.slot_owner (h : ProcInv own att s) (hT : TableInv own s) {p q e u z z' : Nat}
    {x : Word} (hatt : att p = some (d, z)) (hv : v < UPAGES) (hw : pteOf s d v = some w)
    (hsw : isSwapped w = true) (hatt' : att q = some (e, z')) (hu : u < UPAGES)
    (hx : pteOf s e u = some x) (hsx : isSwapped x = true) (heq : frameOf x = frameOf w) :
    e = d ∧ u = v := by
  have hr := (h.slot p d z v w hatt hv hw hsw).pte
  have hr' := (h.slot q e z' u x hatt' hu hx hsx).pte
  rw [heq] at hr'
  exact hT.slot_inj (h.dir q e z' hatt') (h.dir p d z hatt) (upages_lt hu) (upages_lt hv) hr' hr

/-- A page comes back from its slot into the held page `f`, and the slot is free
    again. -/
theorem Inv.swapIn {p z f : Nat} (h : Inv mode own att s) (hatt : att p = some (d, z))
    (hv : v < UPAGES) (hslot : pteSlot s d v = some ptr) (hsw : isSwapped (pteAt s ptr) = true)
    (hst : PteStore own d v w1 s s') (hheld : own f = .held) (hframe : frameOf w1 = f)
    (hP : has w1 PTE_P = true) (hS : has w1 PTE_S = false)
    (hrmap : s'.rmap = update s.rmap f ((s.rmap f).inc ptr))
    (hother : ∀ i, i ≠ frameOf (pteAt s ptr) → s'.swaparray i = s.swaparray i)
    (hfree : (s'.swaparray (frameOf (pteAt s ptr))).isFree = true)
    (hcnt : (s'.swaparray (frameOf (pteAt s ptr))).cnt = 0)
    (hlist : s'.freelist = s.freelist) (hprocs : SameProcs s s') :
    Inv mode (update own f .user) att s' := by
  have hd := h.procs.dir p d z hatt
  have hpte := pteOf_of_slot hslot
  have hu : Upte own s d v (pteAt s ptr) := ⟨hd, hv, hpte⟩
  -- the same change without the release of the slot
  obtain ⟨sv, hsv⟩ : ∃ sv : Kernel, sv = { s' with swaparray := s.swaparray, disk := s.disk } :=
    ⟨_, rfl⟩
  have hmem : sv.mem = s'.mem := by rw [hsv]
  have hstv : PteStore own d v w1 s sv :=
    ⟨fun e i he => by rw [← hst.table e i he, tableOf, tableOf, hmem],
      fun e u he hu' => by rw [← hst.pte e u he hu', pteOf_of_mem_eq hmem]⟩
  have hrestv : SameRest s sv := by
    rw [hsv]
    exact ⟨hlist, rfl, rfl, ⟨hprocs.proc, hprocs.cur, hprocs.nextpid, hprocs.initproc⟩⟩
  have hmap := h.relax.map hstv hrestv (by rw [hframe]; exact hheld)
    (by rw [hframe, hsv]; exact hrmap) hu hslot (swapped_absent hsw) hP hS
    (fun hm => Bool.noConfusion hm)
  rw [hframe] at hmap
  have hmaps : SameMaps (update own f .user) sv s' := sameMaps_of_mem hmem.symm
  have hrmapv : s'.rmap = sv.rmap := by rw [hsv]
  have hroles := SameRoles.refl (update own f .user)
  have hne : ∀ q e z' u x, att q = some (e, z') → u < UPAGES → ¬ (e = d ∧ u = v) →
      isSwapped x = true → pteOf s e u = some x → frameOf x ≠ frameOf (pteAt s ptr) := by
    intro q e z' u x hatt' hu' hneq hsx hx heq
    exact hneq (h.procs.slot_owner h.tables hatt hv hpte hsw hatt' hu' hx hsx heq)
  refine ⟨hmap.frames.congr (by rw [hsv]), hmap.tables.congr hroles hmaps,
    hmap.maps.congr hmap.tables hroles hmaps hrmapv, ?_, ?_, hprocs.idle h, ?_, ?_⟩
  · refine h.procs.store_slots hst (fun e he => ?_) (.inl hP) ?_ ?_
    · grind
    · intro q e z' u x hatt' hu' hneq hsx hx
      exact hother _ (hne q e z' u x hatt' hu' hneq hsx hx)
    · intro i hi hfi
      by_cases hii : i = frameOf (pteAt s ptr)
      · rw [hii, hcnt]
      · rw [hother i hii] at hfi ⊢
        exact h.procs.slotFree i hi hfi
  · intro hm n hn
    rw [hrmapv]
    exact hmap.unshared hm n hn
  · intro hm i hi
    by_cases hii : i = frameOf (pteAt s ptr)
    · rw [hii, hfree]
    · rw [hother i hii]
      exact h.resident hm i hi
  · intro hm
    have hexact := h.slots hm
    refine ⟨?_, ?_⟩
    · intro q e z' u x hatt' hu' hx hsx
      have he := h.procs.dir q e z' hatt'
      rw [hst.pte e u he (upages_lt hu')] at hx
      by_cases heq : e = d ∧ u = v
      · rw [if_pos heq] at hx
        rw [← Option.some.inj hx, isSwapped_of_present hP] at hsx
        cases hsx
      · rw [if_neg heq] at hx
        exact hexact.tracked q e z' u x hatt' hu' hx hsx
    · intro i hi hbusy
      have hii : i ≠ frameOf (pteAt s ptr) := by grind
      rw [hother i hii] at hbusy
      obtain ⟨q, e, z', u, x, hatt', hu', hx, hsx, hix⟩ := hexact.used i hi hbusy
      have hneq : ¬ (e = d ∧ u = v) := by grind
      refine ⟨q, e, z', u, x, hatt', hu', ?_, hsx, hix⟩
      rw [hst.pte e u (h.procs.dir q e z' hatt') (upages_lt hu'), if_neg hneq, hx]

omit [KernelImage] in
/-- `read_page_from_disk`: the eight blocks of the slot, one after the other. -/
theorem wp_readPage {Q : Unit → Kernel → Prop} {b f : Nat}
    (hQ : Q () (s.setPage f fun o =>
      if o < PGSIZE then s.disk (b + o / 512) (o % 512) else s.mem f o)) :
    wp (readPageFromDisk b f) s Q E := by
  unfold readPageFromDisk
  refine wp_conseq (wp_loopFrom (fun i t => t = s.setPage f fun o =>
    if o < i * 512 then s.disk (b + o / 512) (o % 512) else s.mem f o) ?_ ?_) ?_
  · rintro i t - hi rfl
    simp only [readBlock, wp_modify, Kernel.setPage, update_self, update_idem]
    congr 2
    funext o
    by_cases hin : i * 512 ≤ o ∧ o < i * 512 + 512
    · have hnext : o < (i + 1) * 512 := by omega
      rw [if_pos hin, if_pos hnext, show o / 512 = i by omega,
        show o % 512 = o - i * 512 by omega]
    · grind
  · simp only [Nat.zero_mul, Nat.not_lt_zero, if_false, Kernel.setPage, update_eq_self]
  · rintro - t rfl
    exact hQ

/-- The page of the slot is in the held page `f`; now the entry maps it. -/
theorem faulted_swapIn {own1 : Owners} {p z f : Nat} {s1 s3 : Kernel}
    (hf : own f = .free ∨ own f = .user) (hown1 : own1 = update own f .held)
    (hinv : Inv mode own1 (attachOf s) s1)
    (hdrift : Drift own (attachOf s) (Victims keep s) s s1)
    (hatt : attachOf s p = some (d, z)) (hd : own d = .dir) (hv : v < UPAGES)
    (habs : has (entry s d v) PTE_P = false)
    (hslot : pteSlot s1 d v = some ptr) (hsw : isSwapped (pteAt s1 ptr) = true)
    (hfill : ∀ o, o < PGSIZE → s1.mem f o = slotPage s1 (frameOf (pteAt s1 ptr)) o)
    (hst : PteStore own1 d v
      (restoredWord f (s1.swaparray (frameOf (pteAt s1 ptr))).pagePerm) s1 s3)
    (hrmap : s3.rmap = update s1.rmap f ((s1.rmap f).inc ptr))
    (hother : ∀ i, i ≠ frameOf (pteAt s1 ptr) → s3.swaparray i = s1.swaparray i)
    (hfree : (s3.swaparray (frameOf (pteAt s1 ptr))).isFree = true)
    (hcnt : (s3.swaparray (frameOf (pteAt s1 ptr))).cnt = 0)
    (hperm : ∀ i, (s3.swaparray i).pagePerm = (s1.swaparray i).pagePerm)
    (hlist : s3.freelist = s1.freelist) (hdisk : s3.disk = s1.disk) (hprocs : SameProcs s1 s3)
    (hmem : ∀ g, ¬ (own1 g).isMap → s3.mem g = s1.mem g) :
    Faulted mode own (update own f .user) d v s s3 ∧ Sole d v s s3 := by
  have hret : Retains own own1 := hown1 ▸ retains_update hf
  have hheld : own1 f = .held := by rw [hown1, update_self]
  have hd1 := hret.of_dir hd
  have hpte := pteOf_of_slot hslot
  have hflt : f < NFRAMES := hinv.user_lt (by rw [hheld]; simp)
  have hrec := hinv.procs.slot p d z v _ hatt hv hpte hsw
  obtain ⟨hframe, hP, hU, hS⟩ := restoredWord_bits (nframes_lt hflt)
    (s1.swaparray (frameOf (pteAt s1 ptr))).pagePerm
  rw [hrec.permP] at hP
  have hself : pteOf s3 d v =
      some (restoredWord f (s1.swaparray (frameOf (pteAt s1 ptr))).pagePerm) := by
    rw [hst.pte d v hd1 (upages_lt hv), if_pos ⟨rfl, rfl⟩]
  have hnewinv := hinv.swapIn hatt hv hslot hsw hst hheld hframe hP hS hrmap hother hfree hcnt
    hlist hprocs
  rw [hown1, update_idem] at hnewinv
  have hpres : Preserves own1 (attachOf s) s1 s3 := by
    refine preserves_store hinv hst hprocs hmem hperm hdisk fun _ => ?_
    refine ⟨⟨_, hself, .inl hP⟩, slotPage s1 (frameOf (pteAt s1 ptr)), s1.mem f,
      has (s1.swaparray (frameOf (pteAt s1 ptr))).pagePerm PTE_U, ?_, ?_, hfill⟩
    · rw [view, hpte, Option.bind_some, viewOf, if_neg (by rw [swapped_absent hsw]; simp),
        if_pos (swapped_flag hsw)]
    · rw [view_of_present hself hP, hframe, hU, hmem f (by rw [hheld]; exact id)]
  refine ⟨⟨keeps_update hf (by simp) id, hnewinv, ?_,
    (hdrift.quiet fun _ _ hV => hV.1).trans hret hst.quiet, ?_, fun hp => ?_⟩, fun _ => ?_⟩
  · exact (hdrift.preserves fun _ _ hV => hV.1).trans (fun _ _ _ => rfl) (hpres.restrict hret)
  · rw [entry_of_pte hself, hP]
  · grind
  · -- a held page has no mapping, so this is its first one
    have hnone := hinv.maps.mappers_eq_empty (n := f) (by rw [hheld]; simp)
    have hzero := (hinv.maps.exact f hflt).count_eq_zero.2 hnone
    rw [entry_of_pte hself, hframe, hrmap, update_self, Rmap.inc_refcount, hzero]
    rfl

/-! ### The handler -/

omit [KernelImage] in
theorem wp_checkRmap {Q : Bool → Kernel → Prop} {n : Nat} (hn : n < NFRAMES) :
    wp (checkRmap n) s Q E ↔ Q ((s.rmap n).refcount == 1) s := by
  simp only [checkRmap, wp_bind, wp_get, if_pos hn, wp_pure]

omit [KernelImage] in
theorem Drift.found {V : Nat → Nat → Prop} (h : Drift own att V s s') (hd : own d = .dir)
    (hv : v < 2 ^ 20) (hslot : pteSlot s d v = some ptr)
    (hne : ¬ Evictable V s d v (pteAt s ptr)) :
    pteSlot s' d v = some ptr ∧ PteSim (pteAt s' ptr) (pteAt s ptr) := by
  have hslot' := h.slot hd hslot
  obtain ⟨x, hx, hsim⟩ := h.pte d v _ hd hv (pteOf_of_slot hslot) hne
  rw [pteOf_of_slot hslot'] at hx
  rw [← Option.some.inj hx] at hsim
  exact ⟨hslot', hsim⟩

theorem Inv.fill_found {f : Nat} (h : Inv mode own att s) (hd : own d = .dir) (hv : v < 2 ^ 20)
    (hheld : own f = .held) (hslot : pteSlot s d v = some ptr) (page : Page) :
    pteSlot (s.setPage f page) d v = some ptr ∧
      pteAt (s.setPage f page) ptr = pteAt s ptr := by
  have hmaps : SameMaps own s (s.setPage f page) := sameMaps_setPage (by rw [hheld]; exact id)
  have howner := h.tables.slot_owner hd hv hslot
  refine ⟨by rw [hmaps.slot hd, hslot], ?_⟩
  rw [pteAt, pteAt, hmaps ptr.table (by rw [howner]; trivial)]

/-- The end of a write fault on a shared page: the copy is in page `f`. -/
theorem handle_copied {own1 : Owners} {f n : Nat} {s2 : Kernel}
    (hf : own f = .free ∨ own f = .user) (hown1 : own1 = update own f .held)
    (hinv : Inv mode own1 (attachOf s) s2)
    (hdrift : Drift own (attachOf s) (Victims keep s) s s2) (hd : own d = .dir) (hv : v < UPAGES)
    (hslot : pteSlot s2 d v = some ptr) (hp : has (pteAt s2 ptr) PTE_P = true)
    (hn : n = frameOf (pteAt s2 ptr)) (hfill : s2.mem f = s2.mem n)
    (hcount : 1 < (s2.rmap n).refcount) :
    wp (do
      let w' ← loadPte ptr
      storePte ptr (frameAddr f ||| PTE_FLAGS w' ||| PTE_W)
      let _ ← decSharing ptr n
      incSharing ptr f) s2 (fun _ s' => ∃ own', Faulted mode own own' d v s s') E := by
  have hret : Retains own own1 := hown1 ▸ retains_update hf
  have hheld : own1 f = .held := by rw [hown1, update_self]
  have hu : Upte own1 s2 d v (pteAt s2 ptr) := ⟨hret.of_dir hd, hv, pteOf_of_slot hslot⟩
  have huser := (hinv.maps.user d v _ hu hp).1
  have hlt := hinv.frame_lt hu hp
  have hflt : f < NFRAMES := hinv.user_lt (by rw [hheld]; simp)
  have hmem := hu.mem_mappers hp hslot
  rw [← hn] at huser hlt hmem
  have hnf : f ≠ n := by grind
  simp only [wp_bind, wp_loadPte, wp_storePte]
  obtain ⟨r, hdec, hlist, hr⟩ := decSharing_eq
    (s := s2.storeWord ptr.table ptr.index (frameAddr f ||| PTE_FLAGS (pteAt s2 ptr) ||| PTE_W))
    hlt (hinv.maps.exact n hlt) hmem
  rw [wp_of_ok hdec, wp_of_ok (incSharing_eq hflt)]
  subst hn
  refine ⟨update own f .user, faulted_copy hf hown1 hinv hdrift hd hv hslot hp hfill hcount
    hlist hr ?_⟩
  have hrf : ∀ t : Kernel, (t.setRmap (frameOf (pteAt s2 ptr)) r).rmap f = t.rmap f :=
    fun t => update_of_ne hnf _ _
  rw [hrf]
  rfl

omit [KernelImage] in
theorem wp_restoreSharers_one {Q : Unit → Kernel → Prop} {n f p : Nat} (hf : f < NFRAMES)
    (hid : (s.swaparray n).pteId 0 = ptr) (hproc : (s.swaparray n).procId 0 = p)
    (hlive : (s.proc p).state ≠ .unused)
    (hQ : Q () (((s.setRmap f ((s.rmap f).inc ptr)).setProc p fun pr =>
      { pr with rss := (pr.rss + PGSIZE) % 2 ^ 32 }).storeWord ptr.table ptr.index
        (pteAt s ptr))) :
    wp (restoreSharers n f ptr 1 0) s Q E := by
  rw [restoreSharers, wp_bind, wp_get, if_neg (by decide)]
  simp only [hid, hproc, if_neg hlive, wp_bind]
  rw [wp_of_ok (incSharing_eq hf)]
  simp only [addRss, wp_modify, wp_loadPte, wp_storePte, restoreSharers, wp_pure]
  exact hQ

/-- The end of a fault on a swapped-out page: its bytes are in page `f`. -/
theorem handle_restored {own1 : Owners} {f n p z : Nat} {s2 : Kernel}
    (hf : own f = .free ∨ own f = .user) (hown1 : own1 = update own f .held)
    (hinv : Inv mode own1 (attachOf s) s2)
    (hdrift : Drift own (attachOf s) (Victims keep s) s s2)
    (hatt : attachOf s p = some (d, z)) (hd : own d = .dir) (hv : v < UPAGES)
    (habs : has (entry s d v) PTE_P = false)
    (hslot : pteSlot s2 d v = some ptr) (hsw : isSwapped (pteAt s2 ptr) = true)
    (hn : n = frameOf (pteAt s2 ptr))
    (hfill : ∀ o, o < PGSIZE → s2.mem f o = slotPage s2 n o) :
    wp (do
      let s ← get
      let perm := (s.swaparray n).pagePerm
      modify fun s => s.setSlot n fun slot => { slot with isFree := true }
      storePte ptr (((frameAddr f ||| PTE_FLAGS perm) ||| PTE_A) &&& ~~~PTE_W &&& ~~~PTE_S)
      restoreSharers n f ptr (s.swaparray n).cnt 0
      modify fun s => s.setSlot n fun slot => { slot with cnt := 0 }) s2
      (fun _ s' => ∃ own', Faulted mode own own' d v s s' ∧ Sole d v s s') E := by
  have hret : Retains own own1 := hown1 ▸ retains_update hf
  have hheld : own1 f = .held := by rw [hown1, update_self]
  have hd1 := hret.of_dir hd
  have hv20 := upages_lt hv
  have hflt : f < NFRAMES := hinv.user_lt (by rw [hheld]; simp)
  have hrec := hinv.procs.slot p d z v _ hatt hv (pteOf_of_slot hslot) hsw
  have howner := hinv.tables.slot_owner hd1 hv20 hslot
  have hid : (s2.swaparray n).pteId 0 = ptr := by grind [hrec.pte]
  have hproc : (s2.swaparray n).procId 0 = p := by rw [hn, hrec.proc]
  have hcnt : (s2.swaparray n).cnt = 1 := by rw [hn, hrec.cnt]
  have hlive : (s2.proc p).state ≠ .unused := by
    have hatt2 := hatt
    rw [← hdrift.procs.attach, attachOf_eq_some] at hatt2
    intro hunused
    rw [hunused] at hatt2
    exact Bool.noConfusion hatt2.2.1
  simp only [wp_bind, wp_get, wp_modify, wp_storePte, hcnt]
  -- the state once the slot is released and the entry stored
  obtain ⟨t, ht⟩ : ∃ t, t = (s2.setSlot n fun slot => { slot with isFree := true }).storeWord
      ptr.table ptr.index (restoredWord f (s2.swaparray n).pagePerm) := ⟨_, rfl⟩
  have hslotn : t.swaparray n = { s2.swaparray n with isFree := true } := by
    rw [ht]
    exact update_self _ _ _
  have hat : pteAt t ptr = restoredWord f (s2.swaparray n).pagePerm := by
    rw [ht, pteAt]
    simp only [Kernel.storeWord, Kernel.setPage, update_self, ldw_stw_self]
  suffices hgoal : wp (restoreSharers n f ptr 1 0) t (fun _ s' => ∃ own',
      Faulted mode own own' d v s (s'.setSlot n fun slot => { slot with cnt := 0 }) ∧
      Sole d v s (s'.setSlot n fun slot => { slot with cnt := 0 })) E by
    rw [ht] at hgoal
    exact hgoal
  refine wp_restoreSharers_one (p := p) hflt (by rw [hslotn]; exact hid)
    (by rw [hslotn]; exact hproc) (by rw [ht]; exact hlive) ?_
  rw [hat]
  subst hn
  have hslots : ∀ i, i ≠ frameOf (pteAt s2 ptr) → t.swaparray i = s2.swaparray i := by
    intro i hi
    rw [ht]
    exact update_of_ne hi _ _
  have hmemt : ∀ g, g ≠ ptr.table → t.mem g = s2.mem g := by
    intro g hg
    rw [ht]
    exact update_of_ne hg _ _
  have hmemself : t.mem ptr.table = stw (s2.mem ptr.table) ptr.index
      (restoredWord f (s2.swaparray (frameOf (pteAt s2 ptr))).pagePerm) := by
    rw [ht]
    exact update_self _ _ _
  refine ⟨update own f .user, faulted_swapIn hf hown1 hinv hdrift hatt hd hv habs hslot hsw
    hfill ?_ ?_ ?_ ?_ ?_ ?_ ?_ ?_ ?_ ?_⟩
  · refine pteStore_of_mem hinv.tables hd1 hv20 hslot fun g _ => ?_
    simp only [Kernel.setSlot, Kernel.storeWord, Kernel.setPage, Kernel.setProc, Kernel.setRmap]
    by_cases hg : g = ptr.table
    · subst hg
      rw [update_self, update_self, hmemself, stw_stw]
    · rw [update_of_ne hg, update_of_ne hg, hmemt g hg]
  · rw [ht]
    rfl
  · intro i hi
    rw [← hslots i hi]
    exact update_of_ne hi _ _
  · simp only [Kernel.setSlot, Kernel.storeWord, Kernel.setPage, Kernel.setProc, Kernel.setRmap,
      update_self, hslotn]
  · simp only [Kernel.setSlot, update_self]
  · intro i
    by_cases hi : i = frameOf (pteAt s2 ptr)
    · subst hi
      simp only [Kernel.setSlot, Kernel.storeWord, Kernel.setPage, Kernel.setProc, Kernel.setRmap,
        update_self, hslotn]
    · rw [← hslots i hi]
      exact congrArg SwapSlot.pagePerm (update_of_ne hi _ _)
  · rw [ht]
    rfl
  · rw [ht]
    rfl
  · have htp : SameProcs s2 t := by
      rw [ht]
      exact ⟨fun _ => rfl, rfl, rfl, rfl⟩
    have hrss : SameProcs t (t.setProc p fun pr =>
        { pr with rss := (pr.rss + PGSIZE) % 2 ^ 32 }) := sameProcs_setRss t p fun _ => rfl
    have hall := htp.trans hrss
    exact ⟨hall.proc, hall.cur, hall.nextpid, hall.initproc⟩
  · intro g hg
    have hne : g ≠ ptr.table := by
      rintro rfl
      rw [howner] at hg
      exact hg trivial
    rw [← hmemt g hne]
    exact update_of_ne hne _ _

/-- The handler needs a page: the page at `va` is swapped out or shared. -/
def NeedsPage (s : Kernel) (d v : Nat) : Prop :=
  has (entry s d v) PTE_P = true → (s.rmap (frameOf (entry s d v))).refcount ≠ 1

/-- A fault at an address below the size of the current process, where `kalloc` keeps its
    contract if it is called. -/
theorem handleFageFault_from {z va : Nat}
    (hev : NeedsPage s d (va / PGSIZE) → s.freelist = [] →
      wp evict s (fun _ s' => ∃ f, own f = .user ∧ s'.freelist = [f] ∧
        Inv mode (update own f .free) (attachOf s) s' ∧
        Drift own (attachOf s) (Victims keep s) s s' ∧ SameTables own s s') E)
    (h : Inv mode own (attachOf s) s) (hatt : attachOf s s.cur = some (d, z))
    (hva : va / PGSIZE * PGSIZE < z) :
    wp (handleFageFault evict va) s
      (fun _ s' => ∃ own', Faulted mode own own' d (va / PGSIZE) s s' ∧
        Sole d (va / PGSIZE) s s') E := by
  have hd := h.procs.dir _ d z hatt
  have hv : va / PGSIZE < UPAGES := Tracked.upages h.procs ⟨_, z, hatt, hva⟩
  have hv20 := upages_lt hv
  obtain ⟨w, hw, hcase⟩ := h.procs.page _ d z _ hatt hva
  obtain ⟨ptr, hslot, rfl⟩ := pteOf_eq_some.1 hw
  have hpgdir : (s.proc s.cur).pgdir = d := (attachOf_eq_some.1 hatt).2.2.1
  unfold handleFageFault
  simp only [wp_bind, wp_get, hpgdir]
  have hdown : PGROUNDDOWN va = va / PGSIZE * PGSIZE := rfl
  rw [hdown, h.walk hd (mul_PGSIZE_lt hv20), mul_PGSIZE_div, hslot]
  simp only [nonNull, wp_pure, wp_loadPte]
  by_cases hp : has (pteAt s ptr) PTE_P = true
  · have hu : Upte own s d (va / PGSIZE) (pteAt s ptr) := ⟨hd, hv, hw⟩
    have hsole : ∀ s', Sole d (va / PGSIZE) s s' := fun s' =>
      sole_of_present (by rw [entry_of_pte hw]; exact hp)
    have hlt := h.frame_lt hu hp
    rw [if_pos hp, wp_bind, wp_checkRmap hlt]
    by_cases hone : (s.rmap (frameOf (pteAt s ptr))).refcount = 1
    · rw [if_pos (by simpa using hone)]
      exact ⟨own, faulted_upgrade h hd hv hslot hp hone, hsole _⟩
    rw [if_neg (by simpa using hone), wp_bind]
    have hneeds : NeedsPage s d (va / PGSIZE) := fun _ => by
      rw [entry_of_pte hw]
      exact hone
    refine wp_conseq (kalloc_from h (hev hneeds)) ?_
    rintro - s1 ⟨f, rfl, hf, hinv, hdrift, -, -⟩
    simp only [wp_bind, wp_modify]
    have hheld : update own f .held f = .held := update_self _ _ _
    have hret : Retains own (update own f .held) := retains_update hf
    have hne : ¬ Evictable (Victims keep s) s d (va / PGSIZE) (pteAt s ptr) :=
      fun he => hone he.2.2.2
    obtain ⟨hslot1, hsim⟩ := hdrift.found hd hv20 hslot hne
    have hrefs := hdrift.refs d _ _ hu hp hne
    have hp1 : has (pteAt s1 ptr) PTE_P = true := hsim.present.trans hp
    have hu1 : Upte (update own f .held) s1 d (va / PGSIZE) (pteAt s1 ptr) :=
      ⟨hret.of_dir hd, hv, pteOf_of_slot hslot1⟩
    have huser := (hinv.maps.user d _ _ hu1 hp1).1
    have hpos := (hinv.maps.exact _ (hinv.frame_lt hu1 hp1)).count_pos (hu1.mem_mappers hp1 hslot1)
    rw [hsim.frame] at huser hpos
    have hnf : frameOf (pteAt s ptr) ≠ f := by grind
    obtain ⟨hslot2, hat⟩ := hinv.fill_found (hret.of_dir hd) hv20 hheld hslot1
      (s1.mem (frameOf (pteAt s ptr)))
    have hcopied := handle_copied (E := E) hf rfl (hinv.setPage (by rw [hheld]; exact id))
      (hdrift.trans (fun _ _ hV => hV.1) (fun _ _ _ => rfl) (drift_fill hinv hret hf hheld _))
      hd hv hslot2 (by rw [hat]; exact hp1) (n := frameOf (pteAt s ptr))
      (by rw [hat, hsim.frame]) ?_ ?_
    · have hboth := wp_conseq hcopied fun _ s' ⟨own', hf'⟩ =>
        (⟨own', hf', hsole s'⟩ : ∃ own', Faulted mode own own' d (va / PGSIZE) s s' ∧
          Sole d (va / PGSIZE) s s')
      simp only [wp_bind] at hboth
      exact hboth
    · simp only [Kernel.setPage, update_self, update_of_ne hnf]
    · show 1 < (s1.rmap _).refcount
      omega
  · have hsw := hcase.resolve_left hp
    have habs : has (entry s d (va / PGSIZE)) PTE_P = false := by
      rw [entry_of_pte hw]
      exact swapped_absent hsw
    rw [if_neg hp]
    simp only [wp_bind]
    have hneeds : NeedsPage s d (va / PGSIZE) := fun hpres => by grind
    refine wp_conseq (kalloc_from h (hev hneeds)) ?_
    rintro - s1 ⟨f, rfl, hf, hinv, hdrift, -, -⟩
    have hheld : update own f .held f = .held := update_self _ _ _
    have hret : Retains own (update own f .held) := retains_update hf
    have hne : ¬ Evictable (Victims keep s) s d (va / PGSIZE) (pteAt s ptr) :=
      fun he => hp he.2.1
    obtain ⟨hslot1, hsim⟩ := hdrift.found hd hv20 hslot hne
    have heq : pteAt s1 ptr = pteAt s ptr := hsim.eq_of_absent (swapped_absent hsw)
    have hrec := hinv.procs.slot _ d z _ _ hatt hv (pteOf_of_slot hslot1) (by rw [heq]; exact hsw)
    rw [heq] at hrec
    have hdisk : ¬ FSSIZE + SWAPBLOCKS ≤ slotBlock (frameOf (pteAt s ptr)) + 7 := by
      have hidx := hrec.slot
      simp only [NSLOTS, FSSIZE, SWAPBLOCKS, slotBlock] at hidx ⊢
      omega
    dsimp only
    rw [if_neg hdisk, if_neg (Nat.not_le.2 hrec.slot), wp_bind]
    refine wp_readPage ?_
    obtain ⟨hslot2, hat⟩ := hinv.fill_found (hret.of_dir hd) hv20 hheld hslot1 (fun o =>
      if o < PGSIZE then s1.disk (slotBlock (frameOf (pteAt s ptr)) + o / 512) (o % 512)
      else s1.mem f o)
    refine handle_restored hf rfl (hinv.setPage (by rw [hheld]; exact id))
      (hdrift.trans (fun _ _ hV => hV.1) (fun _ _ _ => rfl) (drift_fill hinv hret hf hheld _))
      hatt hd hv habs hslot2 (by rw [hat, heq]; exact hsw) (by rw [hat, heq]) ?_
    intro o ho
    simp only [Kernel.setPage, update_self, if_pos ho, slotPage]

theorem handleFageFault_spec {z va : Nat} (hev : EvictOk mode keep evict E)
    (h : Inv mode own (attachOf s) s) (hatt : attachOf s s.cur = some (d, z))
    (hva : va / PGSIZE * PGSIZE < z) :
    wp (handleFageFault evict va) s
      (fun _ s' => ∃ own', Faulted mode own own' d (va / PGSIZE) s s') E :=
  wp_conseq (handleFageFault_from (fun _ hlist => hev own s h hlist) h hatt hva)
    fun _ _ ⟨own', hf, _⟩ => ⟨own', hf⟩

end

end CowPaging
