import CowPaging.VictimSpec

/-!
# Swapping a page out

`find_new_page_after_swapping` on a page that only one entry maps: the page goes to
the blocks of a free slot, the slot records the entry and its process, the entry
names the slot, and the page is free. Nobody's view changes. With that,
`findNewPageAfterSwapping` keeps the contract of an eviction routine wherever pages
are not shared.
-/

namespace CowPaging

open Bytes StateExcept SlotTable
open Function (update_of_ne update_self update)

variable {own : Owners} {att : Attach} {s s' t : Kernel} {d v p : Nat} {ptr : PtePtr}
  {E : Halt → Prop}

/-! ### The word and the blocks of a slot -/

/-- What `find_new_page_after_swapping` stores in the entry. -/
def swapWord (idx : Nat) : Word := frameAddr idx ||| PTE_S

theorem nslots_lt {idx : Nat} (h : idx < NSLOTS) : idx < 2 ^ 20 := by
  simp only [NSLOTS, SWAPBLOCKS] at h
  omega

theorem swapWord_bits {idx : Nat} (h : idx < 2 ^ 20) :
    frameOf (swapWord idx) = idx ∧ has (swapWord idx) PTE_P = false ∧
      has (swapWord idx) PTE_S = true ∧ swapWord idx &&& ~~~PTE_A = swapWord idx := by
  have hbit : ∀ i, i < 12 → (swapWord idx).getLsbD i = decide (i = 7) := by
    intro i hi
    rw [swapWord, BitVec.getLsbD_or, frameAddr_low h hi, getLsbD_S, Bool.false_or]
  refine ⟨?_, ?_, ?_, ?_⟩
  · refine frameOf_mk h fun i hi => ?_
    rw [getLsbD_S, decide_eq_false_iff_not]
    omega
  · rw [has_P, hbit 0 (by decide)]
    rfl
  · rw [has_S, hbit 7 (by decide)]
    rfl
  · refine BitVec.eq_of_getLsbD_eq fun i hi => ?_
    by_cases h5 : i = 5
    · grind
    · exact clearA_bit _ h5

/-- The state after the first `n` blocks of `write_pag_to_disk`. -/
def Kernel.written (s : Kernel) (frame b n : Nat) : Kernel :=
  { s with disk := fun k =>
      if b ≤ k ∧ k < b + n then fun o => s.mem frame ((k - b) * 512 + o) else s.disk k }

theorem written_zero (frame b : Nat) : s.written frame b 0 = s := by
  have hnone : ∀ k, ¬ (b ≤ k ∧ k < b + 0) := fun k => by omega
  simp only [Kernel.written, hnone, if_false]

theorem written_succ (frame b n : Nat) :
    { s.written frame b n with
      disk := update (s.written frame b n).disk (b + n)
        (fun o => s.mem frame (n * 512 + o)) } = s.written frame b (n + 1) := by
  simp only [Kernel.written]
  congr 1
  funext k
  by_cases hk : k = b + n
  · subst hk
    rw [update_self, if_pos (by omega), show b + n - b = n by omega]
  · have hiff : (b ≤ k ∧ k < b + n) ↔ (b ≤ k ∧ k < b + (n + 1)) := by omega
    simp only [update_of_ne hk, hiff]

theorem wp_writePag {Q : Unit → Kernel → Prop} {frame b : Nat}
    (hQ : Q () (s.written frame b 8)) : wp (writePagToDisk frame b) s Q E := by
  unfold writePagToDisk
  refine wp_conseq (wp_loopFrom (fun n t => t = s.written frame b n) ?_
    (written_zero frame b).symm) ?_
  · rintro n t - hn rfl
    exact written_succ frame b n
  · rintro - t rfl
    exact hQ

theorem slotPage_written {frame idx o : Nat} (ho : o < PGSIZE) :
    slotPage (s.written frame (slotBlock idx) 8) idx o = s.mem frame o := by
  simp only [PGSIZE] at ho
  have hin : slotBlock idx ≤ slotBlock idx + o / 512 ∧
      slotBlock idx + o / 512 < slotBlock idx + 8 := by omega
  simp only [slotPage, Kernel.written, if_pos hin]
  congr 1
  omega

theorem slotPage_written_ne {frame idx i o n : Nat} (hi : i ≠ idx) (hn : n ≤ 8)
    (ho : o < PGSIZE) : slotPage (s.written frame (slotBlock idx) n) i o = slotPage s i o := by
  grind [PGSIZE, slotBlock, slotPage, Kernel.written]

/-! ### The search for the sharers -/

/-- No page of the directory from `lo` to `hi` holds the word behind `ptr`. -/
def Missed (s : Kernel) (ptr : PtePtr) (d lo hi : Nat) : Prop :=
  ∀ u, lo ≤ u → u < hi → ∃ q, pteSlot s d u = some q ∧ pteAt s q ≠ pteAt s ptr

theorem Missed.congr {lo hi : Nat} (h : Missed s ptr d lo hi) (hmem : s'.mem = s.mem) :
    Missed s' ptr d lo hi := by
  intro u hlo hhi
  obtain ⟨q, hq, hne⟩ := h u hlo hhi
  refine ⟨q, ?_, ?_⟩
  · rw [pteSlot, tableOf, hmem]
    exact hq
  · rw [pteAt, pteAt, hmem]
    exact hne

/-- The record of one entry: what a hit of `find_pte_swap_out` does. -/
def Kernel.taken (s : Kernel) (p : Nat) (ptr : PtePtr) (idx : Nat) (r : Rmap) : Kernel :=
  ((s.setSlot idx fun slot =>
    { slot with
      procId := update slot.procId slot.cnt p
      pteId := update slot.pteId slot.cnt ptr
      cnt := slot.cnt + 1 }).setProc p fun pr =>
        { pr with rss := (pr.rss + (2 ^ 32 - PGSIZE)) % 2 ^ 32 }).setRmap
    (frameOf (pteAt s ptr)) r

section

variable [KernelImage]

theorem findPteSwapOut_skip {idx : Nat} (hT : TableInv own s) (hF : FrameInv own s)
    (hd : own (s.proc p).pgdir = .dir) :
    ∀ {left i : Nat}, i + left ≤ UPAGES → Missed s ptr (s.proc p).pgdir i (i + left) →
      wp (findPteSwapOut p ptr idx left (i * PGSIZE)) s (fun _ s' => s' = s) E := by
  intro left
  induction left with
  | zero => exact fun _ _ => rfl
  | succ left ih =>
    intro i hle hmiss
    obtain ⟨q, hq, hne⟩ := hmiss i (Nat.le_refl i) (by omega)
    rw [findPteSwapOut, wp_bind, wp_get, wp_bind,
      wp_walkpgdir hT hF hd (mul_PGSIZE_lt (upages_lt (by omega))), mul_PGSIZE_div, hq]
    simp only [wp_bind, wp_loadPte]
    rw [if_neg hne, ← Nat.succ_mul]
    exact ih (by omega) fun u hlo hhi => hmiss u (by omega) (by omega)

theorem findPteSwapOut_take {idx : Nat} {A : Set PtePtr} (hT : TableInv own s)
    (hF : FrameInv own s) (hd : own (s.proc p).pgdir = .dir)
    (hslot : pteSlot s (s.proc p).pgdir v = some ptr) (hv : v < UPAGES)
    (hcnt : (s.swaparray idx).cnt < NPROC) (hn : frameOf (pteAt s ptr) < NFRAMES)
    (hlist : (s.rmap (frameOf (pteAt s ptr))).Lists A) (hmem : ptr ∈ A) :
    ∀ {left i : Nat}, i ≤ v → v < i + left → Missed s ptr (s.proc p).pgdir i v →
      wp (findPteSwapOut p ptr idx left (i * PGSIZE)) s (fun _ s' => ∃ r, r.Lists (A \ {ptr}) ∧
        r.refcount = (s.rmap (frameOf (pteAt s ptr))).refcount - 1 ∧
        s' = s.taken p ptr idx r) E := by
  intro left
  induction left with
  | zero => exact fun hlo hhi => absurd hhi (by omega)
  | succ left ih =>
    intro i hlo hhi hmiss
    have hi20 : i < 2 ^ 20 := upages_lt (by omega)
    by_cases hiv : i = v
    · subst hiv
      rw [findPteSwapOut, wp_bind, wp_get, wp_bind,
        wp_walkpgdir hT hF hd (mul_PGSIZE_lt hi20), mul_PGSIZE_div, hslot]
      simp only [wp_bind, wp_loadPte, if_true, if_pos hcnt, wp_modify]
      obtain ⟨r, hdec, hrl, hrc⟩ := decSharing_eq (s := (s.setSlot idx fun slot =>
        { slot with
          procId := update slot.procId slot.cnt p
          pteId := update slot.pteId slot.cnt ptr
          cnt := slot.cnt + 1 }).setProc p fun pr =>
            { pr with rss := (pr.rss + (2 ^ 32 - PGSIZE)) % 2 ^ 32 }) hn hlist hmem
      rw [wp_of_ok hdec]
      exact ⟨r, hrl, hrc, rfl⟩
    · obtain ⟨q, hq, hne⟩ := hmiss i (Nat.le_refl i) (by omega)
      rw [findPteSwapOut, wp_bind, wp_get, wp_bind,
        wp_walkpgdir hT hF hd (mul_PGSIZE_lt hi20), mul_PGSIZE_div, hq]
      simp only [wp_bind, wp_loadPte]
      rw [if_neg hne, ← Nat.succ_mul]
      exact ih (by omega) (by omega) fun u hlo' hhi' => hmiss u (by omega) hhi'

omit [KernelImage] in
/-- `dec_sharing` of any pointer: it is listed, or the kernel stops. -/
theorem wp_decSharing_any {Q : Bool → Kernel → Prop} {n : Nat} {A : Set PtePtr} {q : PtePtr}
    (hE : ∀ e, E e) (hlist : (s.rmap n).Lists A)
    (hQ : ∀ b r, q ∈ A → r.Lists (A \ {q}) → Q b (s.setRmap n r)) :
    wp (decSharing q n) s Q E := by
  by_cases hn : n < NFRAMES
  · by_cases hq : q ∈ A
    · obtain ⟨r, hdec, hrl, -⟩ := decSharing_eq hn hlist hq
      rw [wp_of_ok hdec]
      exact hQ _ r hq hrl
    · unfold decSharing
      rw [wp_bind, wp_get, if_pos hn]
      dsimp only
      cases hs : (s.rmap n).slotOf q with
      | none => exact hE _
      | some j =>
        obtain ⟨hj, htest⟩ := firstSlot_some hs
        simp only [Bool.and_eq_true, decide_eq_true_eq] at htest
        exact (hq ((hlist.mem q).2 ⟨j, hj, htest.1, htest.2⟩)).elim
  · unfold decSharing
    rw [wp_bind, wp_get, if_neg hn]
    exact hE _

omit [KernelImage] in
theorem findPteSwapOut_any {idx : Nat} {A : Set PtePtr} (hE : ∀ e, E e)
    (hlist : (s.rmap (frameOf (pteAt s ptr))).Lists A) (hA : A ⊆ {ptr}) :
    ∀ {left i : Nat}, wp (findPteSwapOut p ptr idx left i) s (fun _ s' => s' = s ∨
      (ptr ∈ A ∧ ∃ r, r.Lists ∅ ∧ s' = s.taken p ptr idx r)) E := by
  intro left
  induction left with
  | zero => exact .inl rfl
  | succ left ih =>
    intro i
    rw [findPteSwapOut, wp_bind, wp_get, wp_bind]
    refine wp_walk_any (hE _) (hE _) fun q _ => ?_
    simp only [wp_bind, wp_loadPte]
    refine wp_ite (fun heq => ?_) fun _ => ih
    refine wp_ite (fun _ => ?_) fun _ => hE _
    simp only [wp_bind, wp_modify]
    rw [heq]
    refine wp_decSharing_any hE hlist fun b r hq hr => .inr ?_
    obtain rfl : q = ptr := hA hq
    refine ⟨hq, r, ?_, rfl⟩
    rwa [Set.sdiff_eq_empty.2 hA] at hr

theorem findPteSwapOut_again {idx : Nat} {Q : Unit → Kernel → Prop} (hE : ∀ e, E e)
    (hT : TableInv own s) (hF : FrameInv own s) (hd : own (s.proc p).pgdir = .dir)
    (hslot : pteSlot s (s.proc p).pgdir v = some ptr) (hv : v < UPAGES)
    (hlist : (s.rmap (frameOf (pteAt s ptr))).Lists ∅) :
    ∀ {left i : Nat}, i ≤ v → v < i + left → Missed s ptr (s.proc p).pgdir i v →
      wp (findPteSwapOut p ptr idx left (i * PGSIZE)) s Q E := by
  intro left
  induction left with
  | zero => exact fun hlo hhi => absurd hhi (by omega)
  | succ left ih =>
    intro i hlo hhi hmiss
    have hi20 : i < 2 ^ 20 := upages_lt (by omega)
    by_cases hiv : i = v
    · subst hiv
      rw [findPteSwapOut, wp_bind, wp_get, wp_bind,
        wp_walkpgdir hT hF hd (mul_PGSIZE_lt hi20), mul_PGSIZE_div, hslot]
      simp only [wp_bind, wp_loadPte, if_true]
      refine wp_ite (fun _ => ?_) fun _ => hE _
      simp only [wp_bind, wp_modify]
      exact wp_decSharing_any hE hlist fun _ _ hmem => hmem.elim
    · obtain ⟨q, hq, hne⟩ := hmiss i (Nat.le_refl i) (by omega)
      rw [findPteSwapOut, wp_bind, wp_get, wp_bind,
        wp_walkpgdir hT hF hd (mul_PGSIZE_lt hi20), mul_PGSIZE_div, hq]
      simp only [wp_bind, wp_loadPte]
      rw [if_neg hne, ← Nat.succ_mul]
      exact ih (by omega) (by omega) fun u hlo' hhi' => hmiss u (by omega) hhi'

variable {mode : Mode}

/-- The entry of page `v` of process `q` maps a page that nothing else maps. -/
structure Unshared (s : Kernel) (q d z v : Nat) (ptr : PtePtr) : Prop where
  attached : attachOf s q = some (d, z)
  below : v * PGSIZE < z
  slot : pteSlot s d v = some ptr
  present : has (pteAt s ptr) PTE_P = true
  one : (s.rmap (frameOf (pteAt s ptr))).refcount = 1

theorem Unshared.upte {q z : Nat} (hu : Unshared s q d z v ptr)
    (h : Inv mode own (attachOf s) s) : Upte own s d v (pteAt s ptr) := by
  have ht : Tracked (attachOf s) d v := ⟨q, z, hu.attached, hu.below⟩
  exact ⟨ht.dir h.procs, ht.upages h.procs, pteOf_of_slot hu.slot⟩

theorem Unshared.missed {q z e y lo hi : Nat} (hu : Unshared s q d z v ptr)
    (h : Inv mode own (attachOf s) s) (hatt : attachOf s p = some (e, y))
    (hhi : ∀ u, u < hi → u * PGSIZE < y) (hne : ∀ u, lo ≤ u → u < hi → ¬ (e = d ∧ u = v)) :
    Missed s ptr e lo hi := by
  intro u hlo hlt
  have ht : Tracked (attachOf s) e u := ⟨p, y, hatt, hhi u hlt⟩
  obtain ⟨w, hw, -⟩ := h.procs.page p e y u hatt (hhi u hlt)
  obtain ⟨q', hq', hword⟩ := pteOf_eq_some.1 hw
  refine ⟨q', hq', fun heq => ?_⟩
  have hup' : Upte own s e u (pteAt s q') :=
    ⟨ht.dir h.procs, ht.upages h.procs, pteOf_of_slot hq'⟩
  exact hne u hlo hlt (h.sole_mapper (hu.upte h) hu.present hu.one hup'
    (by rw [heq]; exact hu.present) (by rw [heq]))

/-- No process that is being made has pages. -/
def Hatched (s : Kernel) : Prop :=
  ∀ p, p < NPROC → (s.proc p).state = .embryo → (s.proc p).sz = 0

/-- How far the search for the sharers has come before process `p`, when `q` owns the
    page: nothing is found before `q`, and `q` is recorded after it. A reused entry of
    the process table still names a directory while the process is being made; what the
    search takes there makes it stop at `q`. -/
def Searched (E : Halt → Prop) (s : Kernel) (q : Nat) (ptr : PtePtr) (idx p : Nat)
    (t : Kernel) : Prop :=
  (p ≤ q ∧ t = s) ∨ ∃ r p', r.Lists ∅ ∧ t = s.taken p' ptr idx r ∧
    ((q < p ∧ p' = q) ∨ (p ≤ q ∧ ∀ e, E e))

omit [KernelImage] in
theorem Searched.pass {q idx : Nat} (h : Searched E s q ptr idx p t) (hpq : p ≠ q) :
    Searched E s q ptr idx (p + 1) t := by
  rcases h with ⟨hle, ht⟩ | ⟨r, p', hr, ht, ⟨hlt, hp'⟩ | ⟨hle, hE⟩⟩
  · exact .inl ⟨by omega, ht⟩
  · exact .inr ⟨r, p', hr, ht, .inl ⟨by omega, hp'⟩⟩
  · exact .inr ⟨r, p', hr, ht, .inr ⟨by omega, hE⟩⟩

omit [KernelImage] in
theorem taken_procs (idx : Nat) (r : Rmap) : SameProcs s (s.taken p ptr idx r) := by
  have hrss := sameProcs_setRss s p
    (f := fun pr => { pr with rss := (pr.rss + (2 ^ 32 - PGSIZE)) % 2 ^ 32 }) fun _ => rfl
  exact ⟨hrss.proc, rfl, rfl, rfl⟩

omit [KernelImage] in
theorem Searched.same {q idx : Nat} (h : Searched E s q ptr idx p t) :
    t.mem = s.mem ∧ t.freelist = s.freelist ∧ SameProcs s t := by
  rcases h with ⟨-, rfl⟩ | ⟨r, p', -, rfl, -⟩
  · exact ⟨rfl, rfl, SameProcs.refl t⟩
  · exact ⟨rfl, rfl, taken_procs idx r⟩

theorem Searched.other {q z e y idx : Nat} (hI : Searched E s q ptr idx p t)
    (h : Inv mode own (attachOf s) s) (hu : Unshared s q d z v ptr)
    (hatt : attachOf s p = some (e, y)) (hpq : p ≠ q) :
    wp (findPteSwapOut p ptr idx (pagesOf y) 0) t
      (fun _ t' => Searched E s q ptr idx (p + 1) t') E := by
  obtain ⟨hmem, hfree, hprocs⟩ := hI.same
  have hdir : (t.proc p).pgdir = e := by
    rw [hprocs.pgdir, (attachOf_eq_some.1 hatt).2.2.1]
  have hmiss : Missed t ptr e 0 (0 + pagesOf y) := by
    refine (hu.missed h hatt (fun u huv => lt_pagesOf.2 (by omega)) ?_).congr hmem
    rintro u - - ⟨rfl, -⟩
    exact hpq (h.procs.inj p q _ _ _ hatt hu.attached)
  rw [← hdir] at hmiss
  have hskip : wp (findPteSwapOut p ptr idx (pagesOf y) (0 * PGSIZE)) t (fun _ t' => t' = t) E :=
    findPteSwapOut_skip (h.tables.congr (SameRoles.refl own) (sameMaps_of_mem hmem))
      (h.frames.congr hfree) (by rw [hdir]; exact h.procs.dir p e y hatt)
      (by rw [Nat.zero_add]; exact pagesOf_le (h.procs.size p e y hatt)) hmiss
  rw [Nat.zero_mul] at hskip
  refine wp_conseq hskip ?_
  rintro - t' rfl
  exact hI.pass hpq

theorem Searched.owner {q z idx : Nat} (hI : Searched E s q ptr idx q t)
    (h : Inv mode own (attachOf s) s) (hu : Unshared s q d z v ptr)
    (hcnt : (s.swaparray idx).cnt = 0) :
    wp (findPteSwapOut q ptr idx (pagesOf z) 0) t
      (fun _ t' => Searched E s q ptr idx (q + 1) t') E := by
  obtain ⟨hmem, hfree, hprocs⟩ := hI.same
  have hup := hu.upte h
  have hdir : (t.proc q).pgdir = d := by
    rw [hprocs.pgdir, (attachOf_eq_some.1 hu.attached).2.2.1]
  have hmiss : Missed t ptr (t.proc q).pgdir 0 v := by
    rw [hdir]
    exact (hu.missed h hu.attached
      (fun u huv => lt_of_le_of_lt (Nat.mul_le_mul_right _ (Nat.le_of_lt huv)) hu.below)
      fun u _ huv heq => by omega).congr hmem
  have hslot : pteSlot t (t.proc q).pgdir v = some ptr := by
    rw [hdir, ← hu.slot, pteSlot, pteSlot, tableOf, tableOf, hmem]
  have hT : TableInv own t := h.tables.congr (SameRoles.refl own) (sameMaps_of_mem hmem)
  have hF : FrameInv own t := h.frames.congr hfree
  have hdt : own (t.proc q).pgdir = .dir := by rw [hdir]; exact hup.1
  have hvlt : v < 0 + pagesOf z := by
    rw [Nat.zero_add]
    exact lt_pagesOf.1 hu.below
  rcases hI with ⟨-, rfl⟩ | ⟨r, p', hr, ht, ⟨hlt, -⟩ | ⟨-, hE⟩⟩
  · have hlists := h.maps.exact _ (h.frame_lt hup hu.present)
    have hmapper := hup.mem_mappers hu.present hu.slot
    have htake := findPteSwapOut_take (E := E) hT hF hdt hslot hup.2.1
      (lt_of_eq_of_lt hcnt (by decide)) (h.frame_lt hup hu.present) hlists hmapper
      (Nat.zero_le v) hvlt hmiss
    rw [Nat.zero_mul] at htake
    refine wp_conseq htake ?_
    rintro - s' ⟨r, hr, -, rfl⟩
    have hsub : mappers own t (frameOf (pteAt t ptr)) ⊆ {ptr} :=
      fun x hx => hlists.eq_of_count_one hu.one hx hmapper
    rw [Set.sdiff_eq_empty.2 hsub] at hr
    exact .inr ⟨r, q, hr, rfl, .inl ⟨Nat.lt_succ_self q, rfl⟩⟩
  · exact absurd hlt (Nat.lt_irrefl q)
  · have hrt : (t.rmap (frameOf (pteAt t ptr))).Lists ∅ := by
      have hself : t.rmap (frameOf (pteAt t ptr)) = r := by
        rw [ht]
        exact update_self _ _ _
      rw [hself]
      exact hr
    have hagain : wp (findPteSwapOut q ptr idx (pagesOf z) (0 * PGSIZE)) t
        (fun _ t' => Searched E s q ptr idx (q + 1) t') E :=
      findPteSwapOut_again hE hT hF hdt hslot hup.2.1 hrt (Nat.zero_le v) hvlt hmiss
    rw [Nat.zero_mul] at hagain
    exact hagain

theorem Searched.embryo {q z idx : Nat} (hI : Searched E s q ptr idx p t)
    (h : Inv mode own (attachOf s) s) (hu : Unshared s q d z v ptr) (hE : ∀ e, E e)
    (hpq : p ≠ q) (left i : Nat) :
    wp (findPteSwapOut p ptr idx left i) t
      (fun _ t' => Searched E s q ptr idx (p + 1) t') E := by
  have hnext := hI.pass hpq
  rcases hI with ⟨hle, rfl⟩ | ⟨r, p', hr, ht, -⟩
  · have hup := hu.upte h
    have hlists := h.maps.exact _ (h.frame_lt hup hu.present)
    have hmapper := hup.mem_mappers hu.present hu.slot
    refine wp_conseq (findPteSwapOut_any hE hlists
      fun x hx => hlists.eq_of_count_one hu.one hx hmapper) ?_
    rintro - t' (rfl | ⟨-, r, hr, rfl⟩)
    · exact hnext
    · exact .inr ⟨r, p, hr, rfl, .inr ⟨by omega, hE⟩⟩
  · have hself : t.rmap (frameOf (pteAt t ptr)) = r := by
      rw [ht]
      exact update_self _ _ _
    refine wp_conseq (findPteSwapOut_any (A := ∅) hE (by rw [hself]; exact hr)
      (Set.empty_subset _)) ?_
    rintro - t' (rfl | ⟨hmem, -⟩)
    · exact hnext
    · exact hmem.elim

theorem makeOther_spec {q z idx : Nat} (h : Inv mode own (attachOf s) s)
    (hh : Hatched s ∨ ∀ e, E e) (hu : Unshared s q d z v ptr)
    (hcnt : (s.swaparray idx).cnt = 0) :
    wp (makeOtherPteSwappedOut ptr idx) s (fun _ s' => ∃ r, r.Lists ∅ ∧
      s' = s.taken q ptr idx r) E := by
  have hq := attachOf_eq_some.1 hu.attached
  have hloop : wp (makeOtherPteSwappedOut ptr idx) s
      (fun _ s' => Searched E s q ptr idx (0 + NPROC) s') E := by
    refine wp_loopFrom (Searched E s q ptr idx) ?_ (.inl ⟨Nat.zero_le q, rfl⟩)
    intro p t _ hp hI
    have hprocs := hI.same.2.2
    rw [wp_bind, wp_get, hprocs.state, hprocs.sz]
    refine wp_ite (fun hun => hI.pass ?_) fun hused => ?_
    · rintro rfl
      rw [hun] at hq
      exact Bool.noConfusion hq.2.1
    by_cases hlive : (s.proc p).state.live = true
    · have hatt : attachOf s p = some ((s.proc p).pgdir, (s.proc p).sz) :=
        attachOf_eq_some.2 ⟨by omega, hlive, rfl, rfl⟩
      by_cases hpq : p = q
      · subst hpq
        rw [hq.2.2.2]
        exact hI.owner h hu hcnt
      · exact hI.other h hu hatt hpq
    · have hpq : p ≠ q := by grind
      have hembryo : (s.proc p).state = .embryo := by
        cases hst : (s.proc p).state with
        | embryo => rfl
        | unused => exact (hused hst).elim
        | _ => rw [hst] at hlive; exact (hlive rfl).elim
      rcases hh with hh | hE
      · rw [hh p (by omega) hembryo]
        exact hI.pass hpq
      · exact hI.embryo h hu hE hpq _ _
  refine wp_conseq hloop ?_
  rintro - s' (⟨hle, -⟩ | ⟨r, p', hr, hs', ⟨-, rfl⟩ | ⟨hle, -⟩⟩)
  · omega
  · exact ⟨r, hr, hs'⟩
  · omega

end

end CowPaging
