import CowPaging.Guarded
import CowPaging.Calls

/-!
# How many pages a call takes

While the free list is long enough, no allocation finds it empty. `Takes n` bounds what a
computation takes from the list: a page that is mapped costs at most two, the page and a table,
and whatever unmaps or frees costs nothing. Taking apart what was built is not reached without
eviction, because `kalloc` returns a page or the run stops.
-/

namespace CowPaging

open Bytes StateExcept SlotTable

def Kernel.freePages (s : Kernel) : Nat := s.freelist.length

/-- `m` takes at most `n` pages from the free list. -/
abbrev Takes {α : Type} (n : Nat) (m : K α) (P : α → Prop) : Prop :=
  Draws Kernel.freePages .noEvict n m P

theorem takes_kalloc : Takes 1 (kalloc noEvict) fun r => ∃ f, r = some f := by
  intro s hs
  cases hlist : s.freelist with
  | nil =>
    rw [Kernel.freePages, hlist] at hs
    simp at hs
  | cons f rest =>
    rw [wp_of_ok (kalloc_cons hlist), Kernel.freePages, hlist]
    exact ⟨⟨f, rfl⟩, Nat.le_refl _⟩

theorem takes_walkpgdir (d va : Nat) : Takes 0 (walkpgdir d va) fun _ => True :=
  draws_get fun _ => .ite (.ite (draws_pure trivial) (draws_throw Halt.noConfusion)) (draws_pure trivial)

theorem takes_walkpgdirAlloc (d va : Nat) :
    Takes 1 (walkpgdirAlloc noEvict d va) fun r => ∃ ptr, r = some ptr := by
  refine (takes_walkpgdir d va).seq fun r _ => ?_
  cases r with
  | some ptr => exact draws_pure ⟨ptr, rfl⟩
  | none =>
    refine takes_kalloc.bind (k := 0) ?_
    rintro _ ⟨f, rfl⟩
    refine (draws_modify fun s => Nat.le_refl s.freePages).seq fun _ _ => ?_
    exact (draws_modify fun s => Nat.le_refl s.freePages).seq fun _ _ => draws_pure ⟨_, rfl⟩

theorem takes_loadPte (ptr : PtePtr) : Takes 0 (loadPte ptr) fun _ => True :=
  draws_get fun _ => draws_pure trivial

theorem takes_storePte (ptr : PtePtr) (w : Word) : Takes 0 (storePte ptr w) fun _ => True :=
  draws_modify fun s => Nat.le_refl s.freePages

theorem takes_mapOne (d a : Nat) (pa perm : Word) :
    Takes 1 (mapOne noEvict d a pa perm) fun r => r = 0 := by
  refine (takes_walkpgdirAlloc d a).bind (k := 0) ?_
  rintro _ ⟨ptr, rfl⟩
  refine (takes_loadPte ptr).seq fun w _ => .ite (draws_throw Halt.noConfusion) ?_
  exact (takes_storePte ptr _).seq fun _ _ => draws_pure rfl

theorem takes_incSharing (ptr : PtePtr) (f : Nat) : Takes 0 (incSharing ptr f) fun _ => True := by
  intro s _
  rw [incSharing, wp_bind, wp_get]
  exact wp_ite (fun _ => ⟨trivial, Nat.le_refl _⟩) fun _ => Halt.noConfusion

theorem takes_nonNull (r : Option PtePtr) : Takes 0 (nonNull r) fun _ => True := by
  cases r with
  | none => exact draws_throw Halt.noConfusion
  | some ptr => exact draws_pure trivial

section

variable [KernelImage]

/-! ### Growing -/

/-- Growing by `left` pages. -/
theorem takes_allocuvmLoop (d oldsz newsz : Nat) {left : Nat} : ∀ {v : Nat}, v + left ≤ 2 ^ 20 →
    Takes (2 * left) (allocuvmLoop noEvict d oldsz newsz left (v * PGSIZE)) fun _ => True := by
  induction left with
  | zero => exact fun _ => draws_pure trivial
  | succ left ih =>
    intro v hle
    rw [allocuvmLoop]
    refine (takes_kalloc.bind (k := 1 + 2 * left) ?_).mono (by omega)
    rintro _ ⟨f, rfl⟩
    refine (draws_modify fun s => Nat.le_refl s.freePages).seq fun _ _ => ?_
    rw [mappages_one (by omega)]
    refine (takes_mapOne d _ _ _).bind (k := 2 * left) ?_
    rintro _ rfl
    rw [if_neg (by decide), ← Nat.succ_mul]
    refine (takes_walkpgdir d _).seq fun r _ => (takes_nonNull r).seq fun ptr _ => ?_
    refine (takes_incSharing ptr f).seq fun _ _ => draws_get fun s => ?_
    exact (draws_modify fun s => Nat.le_refl s.freePages).seq fun _ _ => ih (by omega)

theorem takes_allocuvm (d : Nat) {oldsz newsz n : Nat}
    (hn : 2 * (pagesOf newsz - pagesOf oldsz) ≤ n) :
    Takes n (allocuvm noEvict d oldsz newsz) fun _ => True := by
  refine fun s hs => wp_ite (fun _ => ?_) fun hlt => wp_ite (fun _ => ?_) fun _ => ?_
  · exact draws_pure trivial s hs
  · exact draws_pure trivial s hs
  · rw [show PGROUNDUP oldsz = pagesOf oldsz * PGSIZE by simp only [pagesOf, PGROUNDUP, PGSIZE]; omega]
    refine (takes_allocuvmLoop d oldsz newsz ?_).mono hn s hs
    simp only [pagesOf, PGROUNDUP, PGSIZE, KERNBASE] at hlt ⊢
    omega

/-! ### Freeing -/

theorem takes_kfree (f : Nat) : Takes 0 (kfree f) fun _ => True :=
  .ite (draws_throw Halt.noConfusion) (draws_modify fun s => Nat.le_succ s.freePages)

omit [KernelImage] in
theorem takes_decSharing (ptr : PtePtr) (f : Nat) : Takes 0 (decSharing ptr f) fun _ => True := by
  intro s _
  rw [decSharing, wp_bind, wp_get]
  refine wp_ite (fun _ => ?_) fun _ => Halt.noConfusion
  dsimp only
  cases (s.rmap f).slotOf ptr with
  | none => exact Halt.noConfusion
  | some i => exact ⟨trivial, Nat.le_refl _⟩

theorem takes_unmapPte (p : Nat) (ptr : PtePtr) : Takes 0 (unmapPte p ptr) fun _ => True := by
  refine (takes_loadPte ptr).seq fun w _ => .ite (.ite (draws_throw Halt.noConfusion) ?_) (draws_pure trivial)
  refine (takes_decSharing ptr _).seq fun doFree _ => ?_
  have hlast : Takes 0 (do dropRss p; storePte ptr 0) fun _ => True :=
    (draws_modify fun s => Nat.le_refl s.freePages).seq fun _ _ => takes_storePte ptr 0
  exact .ite ((takes_kfree _).seq fun _ _ => hlast) hlast

theorem takes_deallocuvmLoop (d p oldsz : Nat) {turns : Nat} : ∀ {a : Nat},
    Takes 0 (deallocuvmLoop d p oldsz turns a) fun _ => True := by
  induction turns with
  | zero => exact .ite (draws_throw Halt.noConfusion) (draws_pure trivial)
  | succ turns ih =>
    intro a
    refine .ite ((takes_walkpgdir d a).seq fun r _ => ?_) (draws_pure trivial)
    cases r with
    | none => exact ih
    | some ptr => exact (takes_unmapPte p ptr).seq fun _ _ => ih

theorem takes_freevm (d : Nat) : Takes 0 (freevm d) fun _ => True := by
  refine draws_get fun s => Draws.seq (P := fun _ => True) ?_ fun _ _ => ?_
  · exact .ite (draws_pure trivial) ((takes_deallocuvmLoop d _ _).seq fun _ _ => draws_pure trivial)
  · refine (draws_loopFrom (fun i => draws_get fun s => ?_) _ _).seq fun _ _ => takes_kfree d
    exact .ite (takes_kfree _) (draws_pure trivial)

/-! ### The stack of a new program -/

omit [KernelImage] in
theorem takes_copyoutLoop (d : Nat) {turns : Nat} : ∀ {va : Nat} {buf : List Byte},
    Takes 0 (copyoutLoop d turns va buf) fun _ => True := by
  induction turns with
  | zero =>
    intro va buf
    cases buf with
    | nil => exact draws_pure trivial
    | cons b buf => exact draws_throw Halt.noConfusion
  | succ turns ih =>
    intro va buf
    cases buf with
    | nil => exact draws_pure trivial
    | cons b buf =>
      rw [copyoutLoop_cons]
      refine Draws.seq (P := fun _ => True) ?_ fun r _ => ?_
      · refine (takes_walkpgdir d _).seq fun r _ => (takes_nonNull r).seq fun ptr _ => ?_
        refine (takes_loadPte ptr).seq fun w _ => ?_
        exact .ite (draws_pure trivial) (.ite (draws_pure trivial) (draws_pure trivial))
      · cases r with
        | none => exact draws_pure trivial
        | some f =>
          refine .ite ?_ (draws_throw Halt.noConfusion)
          exact (draws_modify fun s => Nat.le_refl s.freePages).seq fun _ _ => ih

omit [KernelImage] in
theorem takes_pushArgs (d : Nat) {argv : List (List Byte)} : ∀ {sp : Nat} {ustack : List Nat},
    Takes 0 (pushArgs d argv sp ustack) fun _ => True := by
  induction argv with
  | nil => exact draws_pure trivial
  | cons arg rest ih =>
    refine .ite (draws_pure trivial) ((takes_copyoutLoop d).seq fun r _ => ?_)
    exact .ite (draws_pure trivial) ih

omit [KernelImage] in
theorem takes_clearpteu (d va : Nat) : Takes 0 (clearpteu d va) fun _ => True := by
  refine (takes_walkpgdir d va).seq fun r _ => ?_
  cases r with
  | none => exact draws_throw Halt.noConfusion
  | some ptr => exact (takes_loadPte ptr).seq fun w _ => takes_storePte ptr _

theorem takes_execStack (d sz : Nat) (argv : List (List Byte)) :
    Takes 4 (execStack noEvict d sz argv) fun _ => True := by
  intro s hs
  unfold execStack
  simp only [wp_bind]
  generalize hnew : PGROUNDUP sz + 2 * PGSIZE = newsz
  have halloc : Takes 4 (allocuvm noEvict d (PGROUNDUP sz) newsz) fun _ => True := by
    apply takes_allocuvm
    simp only [pagesOf, PGROUNDUP, PGSIZE] at hnew ⊢
    omega
  refine wp_conseq (halloc s hs) ?_
  rintro r s1 ⟨-, hs1⟩
  refine wp_ite (fun _ => ⟨trivial, hs1⟩) fun _ => ?_
  simp only [wp_bind]
  refine wp_conseq (takes_clearpteu d _ s1 (Nat.zero_le _)) ?_
  rintro - s2 ⟨-, hs2⟩
  refine wp_conseq (takes_pushArgs d s2 (Nat.zero_le _)) ?_
  rintro (_ | ⟨sp, args⟩) s3 ⟨-, hs3⟩
  · exact ⟨trivial, by omega⟩
  · simp only [wp_bind]
    refine wp_conseq (takes_copyoutLoop d s3 (Nat.zero_le _)) ?_
    rintro r s4 ⟨-, hs4⟩
    exact wp_ite (fun _ => ⟨trivial, by omega⟩) fun _ => ⟨trivial, by omega⟩

/-! ### `exec` -/

theorem OfFreeList.execNew {I : Kernel → Prop} {x : Halt} {e e' : K Unit} (hI : OfFreeList I)
    (he : Follows x I e e' fun _ => I) (ip : File) (argv : List (List Byte)) :
    Follows x I (execNew e ip argv) (execNew e' ip argv) fun _ => I := by
  have hfree : ∀ {α : Type} (d : Nat) (a : α), Stable I (do freevm d; pure a : K α) :=
    fun d a => (hI.freevm d).bind fun _ => stable_pure
  have hstack : ∀ d sz, Follows x I (execStack e d sz argv) (execStack e' d sz argv) fun _ => I := by
    intro d sz
    unfold execStack
    generalize PGROUNDUP sz + 2 * PGSIZE = newsz
    refine (hI.allocuvm he _ _ _).bind fun _ => (Stable.ite stable_pure ?_).follows
    refine (hI.clearpteu _ _).bind fun _ => (hI.pushArgs _ _ _ _).bind fun r => ?_
    cases r with
    | none => exact stable_pure
    | some r => exact (hI.copyout _ _ _).bind fun r => Stable.ite stable_pure stable_pure
  refine stable_pure.follows.ite (stable_pure.follows.ite ((hI.setupkvm he).bind fun r => ?_))
  cases r with
  | none => exact stable_pure.follows
  | some d =>
    refine (hI.execLoad he _ _ _ _ _).bind fun r => ?_
    cases r with
    | none => exact (hfree d _).follows
    | some sz =>
      refine (hstack d sz).bind fun r => Stable.follows ?_
      cases r with
      | none => exact hfree d _
      | some r =>
        refine stable_get.bind fun s => ?_
        refine Stable.bind (stable_modify fun _ hs => hI.only hs rfl rfl) fun _ => ?_
        exact hfree _ _

theorem Cautious.execNew {e e' : K Unit} (h : Cautious e e') (ip : File) (argv : List (List Byte)) :
    StopsOr .noEvict (execNew e ip argv) (execNew e' ip argv) :=
  (ofFreeList_true.execNew h.follows ip argv).stopsOr

variable {mode : Mode} {own : Owners} {s : Kernel} {m : Flat}

/-- Ten pages for the kernel part of the new space and four for the stack are enough for a
    program that loads nothing. -/
theorem Refines.execNew_room {ip : File} {argv : List (List Byte)} {r : Option Nat}
    (h : Refines mode own s m) (hstrict : mode.strict = false) (hrun : Runs s s.cur)
    (hfit : ArgsFit argv) (hlen : 14 ≤ s.freelist.length)
    (hload : ∀ d, execLoad noEvict d ip ip.phnum (ip.word 28) 0 = pure r) :
    wp (execNew noEvict ip argv) s (fun _ _ => True) fun e => e ≠ .noEvict := by
  by_cases hev : EvictOk mode true noEvict fun e => e ≠ .noEvict
  · refine wp_conseq (h.wp_execNew ip hev hrun hfit fun hm => ?_) fun _ _ _ => trivial
    rw [hstrict] at hm
    cases hm
  have hfree : ∀ {α : Type} (d : Nat) (a : α) (s : Kernel),
      wp (do freevm d; pure a : K α) s (fun _ _ => True) fun e => e ≠ .noEvict := by
    intro α d a s
    rw [wp_bind]
    exact wp_conseq (takes_freevm d s (Nat.zero_le _)) fun _ _ _ => trivial
  have hsup : Supply mode true noEvict (fun e => e ≠ .noEvict) (4 + 10) s := .inl hlen
  unfold execNew
  refine wp_ite (fun _ => trivial) fun _ => wp_ite (fun _ => trivial) fun _ => ?_
  rw [wp_bind]
  refine wp_conseq (setupkvm_spec h.kinv.inv hsup) ?_
  rintro _ s1 ⟨d, own1, rfl, -, -, hsup1⟩
  have hlen1 := hsup1.resolve_right hev
  dsimp only
  rw [hload, wp_bind, wp_pure]
  cases r with
  | none => exact hfree d none s1
  | some sz =>
    dsimp only
    rw [wp_bind]
    refine wp_conseq (takes_execStack d sz argv s1 hlen1) ?_
    rintro (_ | ⟨sz, sp⟩) s2 -
    · exact hfree d none s2
    · simp only [wp_bind, wp_get, wp_modify]
      refine wp_conseq (takes_freevm _ _ (Nat.zero_le _)) fun _ _ _ => trivial

end

end CowPaging
