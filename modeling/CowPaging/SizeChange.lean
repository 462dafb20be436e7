import CowPaging.FlatTables
import CowPaging.KallocContract

/-!
# `growproc`: all or nothing

A call of `sbrk` should either change the size of the process with all its pages, or fail
and change nothing. `growproc` takes the new size from `allocuvm` or `deallocuvm` and reads
0 as failure. Two things go wrong with that. A process that gives up its whole memory has
lost its pages when the call returns -1. And `deallocuvm` looks at present entries only, so a
page that is swapped out stays in the table above the new size.
-/

namespace CowPaging

open Bytes StateExcept SlotTable

/-- Page `v` is in memory or in a swap slot. -/
def Mapped (s : Kernel) (d v : Nat) : Prop :=
  has (entry s d v) PTE_P = true ∨ isSwapped (entry s d v) = true

/-- The size after `growproc(n)`, without wrap-around; a sum below 0 leaves the size. -/
def newSize (sz : Nat) (n : Int) : Int := if (sz : Int) + n < 0 then sz else sz + n

/-- Nothing of the current process's memory changed. -/
structure Untouched (s s' : Kernel) : Prop where
  sz : (s'.proc s.cur).sz = (s.proc s.cur).sz
  rss : (s'.proc s.cur).rss = (s.proc s.cur).rss
  pte : ∀ v, v < 2 ^ 20 → pteOf s' (s.proc s.cur).pgdir v = pteOf s (s.proc s.cur).pgdir v
  rmap : s'.rmap = s.rmap
  freelist : s'.freelist = s.freelist

/-- The current process has its new size, exactly the pages below it, new ones filled with
    zeroes and old ones with what they held. -/
structure Resized (n : Int) (s s' : Kernel) : Prop where
  size : ((s'.proc s.cur).sz : Int) = newSize (s.proc s.cur).sz n
  pgdir : (s'.proc s.cur).pgdir = (s.proc s.cur).pgdir
  mapped : ∀ v, v < UPAGES →
    (Mapped s' (s.proc s.cur).pgdir v ↔ v < pagesOf (s'.proc s.cur).sz)
  zeroed : ∀ v, pagesOf (s.proc s.cur).sz ≤ v → v < pagesOf (s'.proc s.cur).sz →
    Shows s' (s.proc s.cur).pgdir v (fun _ => 0) true
  kept : ∀ v, v < pagesOf (s.proc s.cur).sz → v < pagesOf (s'.proc s.cur).sz →
    SameView (view s (s.proc s.cur).pgdir v) (view s' (s.proc s.cur).pgdir v)

/-- The outcome `r` with the state `s'`, after `growproc(n)` in `s`. -/
def AllOrNothing (n : Int) (s : Kernel) (r : Int) (s' : Kernel) : Prop :=
  (r = -1 ∧ Untouched s s') ∨ (r = 0 ∧ Resized n s s')

/-- The calls that return -1: too large a size, and every call that would leave size 0. -/
def Refused (sz : Nat) (n : Int) : Prop :=
  (0 < n ∧ (KERNBASE : Int) ≤ sz + n) ∨ (n < 0 ∧ (sz = 0 ∨ (sz : Int) + n = 0))

/-- Where the call is all or nothing. -/
structure Resizable (n : Int) (s : Kernel) : Prop where
  /-- Giving up all memory: there is no page to lose. -/
  emptied : n < 0 → ((s.proc s.cur).sz : Int) + n = 0 → ∀ v, v < pagesOf (s.proc s.cur).sz →
    has (entry s (s.proc s.cur).pgdir v) PTE_P = false
  /-- No page at or above the new size is swapped out. -/
  above : ¬ Refused (s.proc s.cur).sz n → ∀ v, v < UPAGES →
    newSize (s.proc s.cur).sz n ≤ ((v * PGSIZE : Nat) : Int) →
    isSwapped (entry s (s.proc s.cur).pgdir v) = false

theorem untouched_refl (s : Kernel) : Untouched s s := ⟨rfl, rfl, fun _ _ => rfl, rfl, rfl⟩

theorem mapped_of_page {s : Kernel} {d v : Nat}
    (h : ∃ w, pteOf s d v = some w ∧ (has w PTE_P = true ∨ isSwapped w = true)) :
    Mapped s d v := by grind [Mapped, entry_of_pte]

theorem mapped_congr {s s' : Kernel} {d v : Nat} (h : entry s' d v = entry s d v) :
    Mapped s' d v ↔ Mapped s d v := by
  rw [Mapped, Mapped, h]

/-- A call that went through. What is left above the new size is what was swapped out
    there before. -/
structure Moved (n : Int) (s s' : Kernel) : Prop where
  accepted : ¬ Refused (s.proc s.cur).sz n
  size : ((s'.proc s.cur).sz : Int) = newSize (s.proc s.cur).sz n
  pgdir : (s'.proc s.cur).pgdir = (s.proc s.cur).pgdir
  below : ∀ v, v < UPAGES → v < pagesOf (s'.proc s.cur).sz → Mapped s' (s.proc s.cur).pgdir v
  above : ∀ v, v < UPAGES → pagesOf (s'.proc s.cur).sz ≤ v →
    (Mapped s' (s.proc s.cur).pgdir v ↔ isSwapped (entry s (s.proc s.cur).pgdir v) = true)
  zeroed : ∀ v, pagesOf (s.proc s.cur).sz ≤ v → v < pagesOf (s'.proc s.cur).sz →
    Shows s' (s.proc s.cur).pgdir v (fun _ => 0) true
  kept : ∀ v, v < pagesOf (s.proc s.cur).sz → v < pagesOf (s'.proc s.cur).sz →
    SameView (view s (s.proc s.cur).pgdir v) (view s' (s.proc s.cur).pgdir v)

theorem Moved.size_le_iff {n : Int} {s s' : Kernel} {v : Nat} (h : Moved n s s') :
    newSize (s.proc s.cur).sz n ≤ ((v * PGSIZE : Nat) : Int) ↔ pagesOf (s'.proc s.cur).sz ≤ v := by
  rw [← h.size, Int.ofNat_le]
  constructor
  · intro hle
    exact Nat.le_of_not_lt fun hlt => absurd (lt_pagesOf.2 hlt) (Nat.not_lt.2 hle)
  · intro hle
    exact Nat.le_of_not_lt fun hlt => absurd (lt_pagesOf.1 hlt) (Nat.not_lt.2 hle)

theorem Moved.all_iff {n : Int} {s s' : Kernel} (h : Moved n s s') :
    AllOrNothing n s 0 s' ↔ Resizable n s := by
  constructor
  · rintro (⟨hr, -⟩ | ⟨-, hres⟩)
    · simp at hr
    · constructor
      · intro hn hzero
        exact (h.accepted (.inr ⟨hn, .inr hzero⟩)).elim
      · intro _ v hv hle
        have hge := h.size_le_iff.1 hle
        apply Bool.eq_false_of_not_eq_true
        intro hsw
        have hlt := (hres.mapped v hv).1 ((h.above v hv hge).2 hsw)
        omega
  · intro hok
    refine .inr ⟨rfl, h.size, h.pgdir, ?_, h.zeroed, h.kept⟩
    intro v hv
    constructor
    · intro hmapped
      by_contra hlt
      have hge := Nat.le_of_not_lt hlt
      have hsw := (h.above v hv hge).1 hmapped
      rw [hok.above h.accepted v hv (h.size_le_iff.2 hge)] at hsw
      cases hsw
    · exact h.below v hv

theorem refused_iff {n : Int} {s : Kernel} (hrefused : Refused (s.proc s.cur).sz n)
    (hpos : n < 0 → ((s.proc s.cur).sz : Int) + n = 0 → (s.proc s.cur).sz = 0) :
    AllOrNothing n s (-1) s ↔ Resizable n s := by
  constructor
  · intro _
    constructor
    · grind
    · grind
  · intro _
    exact .inl ⟨rfl, untouched_refl s⟩

section

variable [KernelImage] {mode : Mode} {own : Owners} {s s' : Kernel} {n : Int}

/-- The setting of a call: the current process runs, and no page above its size is
    present. -/
structure Callable (mode : Mode) (own : Owners) (s : Kernel) : Prop where
  inv : Inv mode own (attachOf s) s
  runs : Runs s s.cur
  above : ∀ v, v < UPAGES → (s.proc s.cur).sz ≤ v * PGSIZE →
    has (entry s (s.proc s.cur).pgdir v) PTE_P = false

theorem KInv.callable (h : KInv mode own s) (hrun : Runs s s.cur) : Callable mode own s :=
  ⟨h.inv, hrun, fun v hv hle => h.above _ _ _ v hrun.live hle hv⟩

theorem Callable.dir (h : Callable mode own s) : own (s.proc s.cur).pgdir = .dir :=
  h.inv.procs.dir _ _ _ h.runs.live

theorem Callable.size (h : Callable mode own s) : (s.proc s.cur).sz ≤ KERNBASE :=
  h.inv.procs.size _ _ _ h.runs.live

theorem Callable.mapped (h : Callable mode own s) {v : Nat} (hv : v < pagesOf (s.proc s.cur).sz) :
    Mapped s (s.proc s.cur).pgdir v :=
  mapped_of_page (h.inv.procs.page _ _ _ v h.runs.live (lt_pagesOf.2 hv))

theorem Callable.absent (h : Callable mode own s) {v : Nat} (hv : v < UPAGES)
    (hle : pagesOf (s.proc s.cur).sz ≤ v) : has (entry s (s.proc s.cur).pgdir v) PTE_P = false :=
  h.above v hv (Nat.le_of_not_lt fun hlt => absurd (lt_pagesOf.1 hlt) (Nat.not_lt.2 hle))

theorem Callable.mapped_above (h : Callable mode own s) {v : Nat} (hv : v < UPAGES)
    (hle : pagesOf (s.proc s.cur).sz ≤ v) :
    Mapped s (s.proc s.cur).pgdir v ↔ isSwapped (entry s (s.proc s.cur).pgdir v) = true := by
  rw [Mapped, h.absent hv hle]
  exact or_iff_right Bool.noConfusion

theorem Callable.not_tracked (h : Callable mode own s) {v : Nat}
    (hle : pagesOf (s.proc s.cur).sz ≤ v) : ¬ Tracked (attachOf s) (s.proc s.cur).pgdir v := by
  rintro ⟨p, y, hatt, hlt⟩
  obtain rfl := h.inv.procs.inj _ _ _ _ _ hatt h.runs.live
  rw [h.runs.live, Option.some.injEq, Prod.mk.injEq] at hatt
  rw [← hatt.2, lt_pagesOf] at hlt
  omega

theorem Callable.sameView (h : Callable mode own s) {v : Nat}
    (hv : v < pagesOf (s.proc s.cur).sz) :
    SameView (view s (s.proc s.cur).pgdir v) (view s (s.proc s.cur).pgdir v) :=
  SameView.refl_of (h.inv.view_some (h.inv.visible h.runs.live (lt_pagesOf.2 hv)).2.2)

theorem Callable.stays (h : Callable mode own s) (haccepted : ¬ Refused (s.proc s.cur).sz n)
    (hsize : newSize (s.proc s.cur).sz n = (s.proc s.cur).sz) : Moved n s s where
  accepted := haccepted
  size := hsize.symm
  pgdir := rfl
  below _ _ hlt := h.mapped hlt
  above _ hv hle := h.mapped_above hv hle
  zeroed _ hle hlt := absurd hlt (Nat.not_lt.2 hle)
  kept _ hlt _ := h.sameView hlt

/-! ### Growing -/

/-- The state at the end of a call that sets the size. -/
def Kernel.sized (s : Kernel) (z : Nat) : Kernel := s.setProc s.cur fun pr => { pr with sz := z }

omit [KernelImage] in
theorem sized_proc (h : SameProcs s s') (z : Nat) :
    ((s'.sized z).proc s.cur).sz = z ∧
      ((s'.sized z).proc s.cur).pgdir = (s.proc s.cur).pgdir := by
  have hself : (s'.sized z).proc s.cur = { s'.proc s'.cur with sz := z } := by
    rw [← h.cur]
    exact Function.update_self _ _ _
  rw [hself]
  exact ⟨rfl, by rw [h.cur, h.pgdir]⟩

theorem Callable.grown {own' : Owners} {z : Nat} {keep : Bool} (h : Callable mode own s)
    (haccepted : ¬ Refused (s.proc s.cur).sz n) (hz : (z : Int) = newSize (s.proc s.cur).sz n)
    (hle : (s.proc s.cur).sz ≤ z)
    (hg : Grew mode keep own own' (s.proc s.cur).pgdir (pagesOf (s.proc s.cur).sz) (pagesOf z) s s') :
    Moved n s (s'.sized z) := by
  obtain ⟨hsz, hpgdir⟩ := sized_proc hg.pres.procs z
  have hpages : pagesOf (s.proc s.cur).sz ≤ pagesOf z := by
    simp only [pagesOf, PGROUNDUP, PGSIZE]
    omega
  refine ⟨haccepted, by rw [hsz]; exact hz, hpgdir, ?_, ?_, ?_, ?_⟩
  · intro v hv hlt
    rw [hsz] at hlt
    by_cases hold : v < pagesOf (s.proc s.cur).sz
    · exact mapped_of_page (hg.inv.procs.page _ _ _ v h.runs.live (lt_pagesOf.2 hold))
    · obtain ⟨w, hw, hp, -⟩ := hg.zeroed v (Nat.le_of_not_lt hold) hlt
      exact mapped_of_page ⟨w, hw, .inl hp⟩
  · intro v hv hge
    rw [hsz] at hge
    have hsim := hg.rest v (.inr hge) (upages_lt hv) (h.not_tracked (by omega))
    have hsame : entry s' (s.proc s.cur).pgdir v = entry s (s.proc s.cur).pgdir v :=
      hsim.eq_of_absent (h.absent hv (by omega))
    rw [← h.mapped_above hv (by omega)]
    exact mapped_congr hsame
  · intro v hlo hlt
    rw [hsz] at hlt
    exact hg.zeroed v hlo hlt
  · intro v hlt _
    obtain ⟨hdir, hv, hvis⟩ := h.inv.visible h.runs.live (lt_pagesOf.2 hlt)
    exact (hg.pres.seen _ v hdir hv hvis).2

omit [KernelImage] in
/-- Sums of a size and an `int` do not wrap around upwards. -/
theorem addSigned_of_nonneg {sz : Nat} (hsz : sz ≤ KERNBASE) (hn : n < 2 ^ 31)
    (hsum : 0 ≤ (sz : Int) + n) : (addSigned sz n : Int) = sz + n := by
  rw [addSigned]
  simp only [KERNBASE] at hsz
  change (((((sz : Int) + n) % 2 ^ 32).toNat : Nat) : Int) = sz + n
  omega

omit [KernelImage] in
theorem addSigned_of_neg {sz : Nat} (hsz : sz ≤ KERNBASE) (hn : -2 ^ 31 ≤ n)
    (hsum : (sz : Int) + n < 0) : sz ≤ addSigned sz n := by
  rw [addSigned]
  simp only [KERNBASE] at hsz
  change sz ≤ (((sz : Int) + n) % 2 ^ 32).toNat
  omega

theorem Callable.grow (h : Callable mode own s) (hn : 0 < n) (hint : n < 2 ^ 31) :
    wp (growproc noEvict n) s (fun r s' => AllOrNothing n s r s' ↔ Resizable n s)
      fun e => e = .noEvict := by
  have hsz := h.size
  have hnew := addSigned_of_nonneg (n := n) hsz hint (by omega)
  have hneg : ¬ n < 0 := by omega
  unfold growproc
  simp only [wp_bind, wp_get, if_pos hn]
  generalize addSigned (s.proc s.cur).sz n = z at hnew ⊢
  have hev : EvictOk mode true noEvict fun e => e = .noEvict := evictOk_noEvict rfl
  refine wp_conseq (allocuvm_spec hev h.inv h.dir
    (fun v hle hv => h.absent hv hle) fun v hle => h.not_tracked hle) ?_
  rintro r s' (⟨hbig, rfl, rfl⟩ | ⟨-, hsmall, -⟩ | ⟨hlt, hle, rfl, own', hg⟩)
  · rw [if_pos rfl, wp_pure]
    exact refused_iff (.inl ⟨hn, by rw [← hnew]; exact Int.ofNat_le.2 hbig⟩)
      fun hlt => absurd hlt hneg
  · omega
  · have hpos : r ≠ 0 := by omega
    rw [if_neg hpos]
    simp only [wp_bind, wp_modify, wp_pure]
    have haccepted : ¬ Refused (s.proc s.cur).sz n := by
      rintro (⟨-, hbig⟩ | ⟨hlt', -⟩)
      · grind
      · omega
    exact (h.grown haccepted (by rw [newSize, if_neg (by omega), hnew]) hle hg).all_iff

/-! ### Shrinking -/

/-- `deallocuvm` on the current process: the present entries from the new size on are
    dropped, and every other entry stays. -/
structure Shrunk (z : Nat) (s s' : Kernel) : Prop where
  procs : SameProcs s s'
  gone : ∀ v, pagesOf z ≤ v → v < pagesOf (s.proc s.cur).sz →
    has (entry s' (s.proc s.cur).pgdir v) PTE_P = false
  pte : ∀ v, v < 2 ^ 20 → ¬ (pagesOf z ≤ v ∧ has (entry s (s.proc s.cur).pgdir v) PTE_P = true) →
    pteOf s' (s.proc s.cur).pgdir v = pteOf s (s.proc s.cur).pgdir v
  zero : ∀ v, v < 2 ^ 20 →
    pteOf s' (s.proc s.cur).pgdir v = pteOf s (s.proc s.cur).pgdir v ∨
      entry s' (s.proc s.cur).pgdir v = 0
  view : ∀ v, v < UPAGES →
    pteOf s' (s.proc s.cur).pgdir v = pteOf s (s.proc s.cur).pgdir v →
    view s' (s.proc s.cur).pgdir v = view s (s.proc s.cur).pgdir v

theorem Callable.deallocuvm (h : Callable mode own s) {z : Nat} (hlt : z < (s.proc s.cur).sz) :
    ∃ s', deallocuvm (s.proc s.cur).pgdir (s.proc s.cur).sz z s = .ok (z, s') ∧ Shrunk z s s' := by
  obtain ⟨mode', att, hinv, hdet⟩ := h.inv.detachDir (s.proc s.cur).pgdir
  have hstart : PGROUNDUP z = pagesOf z * PGSIZE := by
    simp only [pagesOf, PGROUNDUP, PGSIZE]
    omega
  obtain ⟨_, s', hok, own', hinv', hun, habs⟩ := exists_ok_of_wp
    (deallocuvmLoop_spec (p := s.cur) (v := pagesOf z) (E := fun _ => False) h.size hdet hinv h.dir
      (Nat.le_add_left _ _))
  refine ⟨s', ?_, ⟨hun.procs, habs, ?_, ?_, ?_⟩⟩
  · have hcall : CowPaging.deallocuvm (s.proc s.cur).pgdir (s.proc s.cur).sz z s =
        deallocuvm2 (s.proc s.cur).pgdir (s.proc s.cur).sz z s.cur s := rfl
    rw [hcall, deallocuvm2, if_neg (Nat.not_le.2 hlt), hstart, bind_of_ok hok]
    rfl
  · intro v hv hne
    exact (hun.pte v hv).resolve_right fun hX => hne hX.1
  · intro v hv
    exact (hun.pte v hv).imp id fun hX => entry_of_pte hX.2
  · intro v hv hpte
    exact hun.view hinv' h.dir hv hpte

/-- Where nothing is present from the new size on, `deallocuvm` does nothing. -/
theorem Callable.deallocuvm_none (h : Callable mode own s) {z : Nat}
    (hlt : z < (s.proc s.cur).sz)
    (habsent : ∀ v, pagesOf z ≤ v → v < pagesOf (s.proc s.cur).sz →
      has (entry s (s.proc s.cur).pgdir v) PTE_P = false) :
    CowPaging.deallocuvm (s.proc s.cur).pgdir (s.proc s.cur).sz z s = .ok (z, s) := by
  obtain ⟨mode', att, hinv, hdet⟩ := h.inv.detachDir (s.proc s.cur).pgdir
  have hstart : PGROUNDUP z = pagesOf z * PGSIZE := by
    simp only [pagesOf, PGROUNDUP, PGSIZE]
    omega
  obtain ⟨visited, s', hrun, hlist, hall⟩ := exists_ok_of_wp
    (deallocWith_visits (p := s.cur) (v := pagesOf z) jumpOk_nextTable h.size hdet hinv h.dir
      (Nat.le_add_left (pagesOf (s.proc s.cur).sz) _))
  have hnil : visited = [] := by
    rw [hlist, List.eq_nil_iff_forall_not_mem]
    intro ptr hmem
    obtain ⟨v, hlo, hhi, hslot, hp⟩ := mem_presentSlots.1 hmem
    have hzero := habsent v hlo (by omega)
    rw [entry_of_pte (pteOf_of_slot hslot), hp] at hzero
    cases hzero
  rw [hnil] at hall
  obtain ⟨-, rfl⟩ := Prod.mk.inj (Except.ok.inj hall)
  have hloop := deallocuvmLoop_of_visits h.size hrun
  have hcall : CowPaging.deallocuvm (s.proc s.cur).pgdir (s.proc s.cur).sz z s =
      deallocuvm2 (s.proc s.cur).pgdir (s.proc s.cur).sz z s.cur s := rfl
  rw [hcall, deallocuvm2, if_neg (Nat.not_le.2 hlt), hstart, bind_of_ok hloop]
  rfl

theorem Callable.shrunk (h : Callable mode own s) {z : Nat}
    (haccepted : ¬ Refused (s.proc s.cur).sz n) (hz : (z : Int) = newSize (s.proc s.cur).sz n)
    (hlt : z < (s.proc s.cur).sz) (hs : Shrunk z s s') : Moved n s (s'.sized z) := by
  obtain ⟨hsz, hpgdir⟩ := sized_proc hs.procs z
  have hpages : pagesOf z ≤ pagesOf (s.proc s.cur).sz := by
    simp only [pagesOf, PGROUNDUP, PGSIZE]
    omega
  have hlow : ∀ v, v < UPAGES → v < pagesOf z →
      pteOf s' (s.proc s.cur).pgdir v = pteOf s (s.proc s.cur).pgdir v := by
    grind [hs.pte, upages_lt, Nat.not_le.2]
  refine ⟨haccepted, by rw [hsz]; exact hz, hpgdir, ?_, ?_, ?_, ?_⟩
  · intro v hv hvz
    rw [hsz] at hvz
    have hsame : entry s' (s.proc s.cur).pgdir v = entry s (s.proc s.cur).pgdir v := by
      rw [entry, hlow v hv hvz, ← entry]
    exact (mapped_congr hsame).2 (h.mapped (by omega))
  · intro v hv hge
    rw [hsz] at hge
    by_cases hp : has (entry s (s.proc s.cur).pgdir v) PTE_P = true
    · -- the page was there and is gone
      have hvold : v < pagesOf (s.proc s.cur).sz := by grind [h.absent, Nat.le_of_not_lt]
      have hgone := hs.gone v hge hvold
      have hzero : entry s' (s.proc s.cur).pgdir v = 0 := by
        rcases hs.zero v (upages_lt hv) with hsame | hzero
        · rw [entry, hsame, ← entry, hp] at hgone
          exact Bool.noConfusion hgone
        · exact hzero
      rw [isSwapped_of_present hp]
      constructor
      · rintro (hP | hS)
        · change has (entry s' (s.proc s.cur).pgdir v) PTE_P = true at hP
          rw [hgone] at hP
          exact Bool.noConfusion hP
        · change isSwapped (entry s' (s.proc s.cur).pgdir v) = true at hS
          rw [hzero] at hS
          exact absurd hS (by decide)
      · intro hfalse
        exact Bool.noConfusion hfalse
    · have hsame : entry s' (s.proc s.cur).pgdir v = entry s (s.proc s.cur).pgdir v := by
        rw [entry, hs.pte v (upages_lt hv) fun hX => hp hX.2, ← entry]
      refine (mapped_congr hsame).trans ?_
      rw [Mapped]
      exact or_iff_right hp
  · grind
  · intro v hvold hvz
    rw [hsz] at hvz
    have hv := (h.inv.visible h.runs.live (lt_pagesOf.2 hvold)).2.1
    have heq := hs.view v hv (hlow v hv hvz)
    obtain ⟨x, hx⟩ := h.inv.view_some (h.inv.visible h.runs.live (lt_pagesOf.2 hvold)).2.2
    exact SameView.of_eq hx heq

theorem Callable.emptied_iff (h : Callable mode own s) (hn : n < 0)
    (hzero : ((s.proc s.cur).sz : Int) + n = 0)
    (hok : CowPaging.deallocuvm (s.proc s.cur).pgdir (s.proc s.cur).sz 0 s = .ok (0, s'))
    (hs : Shrunk 0 s s') : AllOrNothing n s (-1) s' ↔ Resizable n s := by
  constructor
  · rintro (⟨-, hsame⟩ | ⟨hr, -⟩)
    · constructor
      · intro _ _ v hv
        apply Bool.eq_false_of_not_eq_true
        intro hp
        have hgone := hs.gone v (Nat.zero_le v) hv
        have hv20 : v < 2 ^ 20 :=
          upages_lt (h.inv.visible h.runs.live (lt_pagesOf.2 hv)).2.1
        rw [entry, hsame.pte v hv20, ← entry, hp] at hgone
        cases hgone
      · intro haccepted
        exact (haccepted (.inr ⟨hn, .inr hzero⟩)).elim
    · simp at hr
  · intro hres
    have hnone := h.deallocuvm_none (z := 0) (by omega)
      fun v _ hv => hres.emptied hn hzero v hv
    rw [hok] at hnone
    obtain ⟨-, rfl⟩ := Prod.mk.inj (Except.ok.inj hnone)
    exact .inl ⟨rfl, untouched_refl s'⟩

theorem Callable.shrink (h : Callable mode own s) (hn : n < 0) (hint : -2 ^ 31 ≤ n) :
    wp (growproc noEvict n) s (fun r s' => AllOrNothing n s r s' ↔ Resizable n s)
      fun e => e = .noEvict := by
  have hsz := h.size
  have hpos : ¬ 0 < n := by omega
  unfold growproc
  simp only [wp_bind, wp_get, if_neg hpos, if_pos hn]
  by_cases hsum : ((s.proc s.cur).sz : Int) + n < 0
  · -- the sum wraps around to a size above the old one
    have hge := addSigned_of_neg hsz hint hsum
    have hcall : CowPaging.deallocuvm (s.proc s.cur).pgdir (s.proc s.cur).sz
        (addSigned (s.proc s.cur).sz n) s = .ok ((s.proc s.cur).sz, s) := by
      change deallocuvm2 _ _ _ _ s = _
      rw [deallocuvm2, if_pos hge]
      rfl
    rw [wp_of_ok hcall]
    by_cases hzero : (s.proc s.cur).sz = 0
    · rw [if_pos hzero, wp_pure]
      exact refused_iff (.inr ⟨hn, .inl hzero⟩) fun _ _ => hzero
    · rw [if_neg hzero]
      simp only [wp_bind, wp_modify, wp_pure, setSize_self]
      refine (h.stays ?_ (by rw [newSize, if_pos hsum])).all_iff
      rintro (⟨hlt, -⟩ | ⟨-, hz | hz⟩) <;> omega
  · have hnew := addSigned_of_nonneg (n := n) hsz (by omega) (by omega)
    generalize addSigned (s.proc s.cur).sz n = z at hnew ⊢
    obtain ⟨s', hok, hs⟩ := h.deallocuvm (z := z) (by omega)
    rw [wp_of_ok hok]
    by_cases hzero : z = 0
    · rw [if_pos hzero, wp_pure]
      subst hzero
      exact h.emptied_iff hn (by omega) hok hs
    · rw [if_neg hzero]
      simp only [wp_bind, wp_modify, wp_pure]
      refine (h.shrunk ?_ (by rw [newSize, if_neg hsum, hnew]) (by omega) hs).all_iff
      rintro (⟨hlt, -⟩ | ⟨-, hz | hz⟩) <;> omega

/-- `growproc` is all or nothing exactly where it does not give up present pages down to size
    0 and no page at or above the new size is swapped out. -/
theorem growproc_all_or_nothing (evict : K Unit) (h : Callable mode own s)
    (hint : -2 ^ 31 ≤ n ∧ n < 2 ^ 31) (hmem : growproc noEvict n s ≠ .error .noEvict) :
    ∃ r s', growproc evict n s = .ok (r, s') ∧ (AllOrNothing n s r s' ↔ Resizable n s) := by
  have hwp : wp (growproc noEvict n) s (fun r s' => AllOrNothing n s r s' ↔ Resizable n s)
      fun e => e = .noEvict := by
    rcases Int.lt_trichotomy n 0 with hn | rfl | hn
    · exact h.shrink hn hint.1
    · refine (h.stays ?_ ?_).all_iff
      · rintro (⟨hlt, -⟩ | ⟨hlt, -⟩) <;> omega
      · rw [newSize, if_neg (by omega), Int.add_zero]
    · exact h.grow hn hint.2
  cases hrun : growproc noEvict n s with
  | error e => grind [wp_error]
  | ok x =>
    obtain ⟨r, s'⟩ := x
    have hiff := wp_ok hwp hrun
    exact ⟨r, s', ((cautious_noEvict evict).growproc n).ok hrun, hiff⟩

/-- What `growproc` does below the size of the process, with any eviction routine. -/
theorem Callable.growproc_below (h : Callable mode own s) (evict : K Unit) (hn : n < 0)
    (hsum : 0 ≤ ((s.proc s.cur).sz : Int) + n) {z : Nat}
    (hz : (z : Int) = ((s.proc s.cur).sz : Int) + n) :
    ∃ s', CowPaging.deallocuvm (s.proc s.cur).pgdir (s.proc s.cur).sz z s = .ok (z, s') ∧
      Shrunk z s s' ∧
      growproc evict n s = if z = 0 then .ok (-1, s') else .ok (0, s'.sized z) := by
  obtain ⟨s', hok, hs⟩ := h.deallocuvm (z := z) (by omega)
  have hnew := addSigned_of_nonneg (n := n) h.size (by omega) hsum
  obtain rfl : z = addSigned (s.proc s.cur).sz n := by omega
  have hpos : ¬ 0 < n := by omega
  refine ⟨s', hok, hs, ?_⟩
  unfold growproc
  rw [bind_of_ok (show (get : K Kernel) s = .ok (s, s) from rfl), if_neg hpos, if_pos hn, bind_of_ok hok]
  split <;> rfl

/-- A process with a page in memory that gives up everything loses it, and the call
    fails. -/
theorem Callable.emptied_loses (h : Callable mode own s) (evict : K Unit) (hn : n < 0)
    (hzero : ((s.proc s.cur).sz : Int) + n = 0)
    (hp : has (entry s (s.proc s.cur).pgdir 0) PTE_P = true) :
    ∃ s', growproc evict n s = .ok (-1, s') ∧ ¬ AllOrNothing n s (-1) s' := by
  obtain ⟨s', hok, hs, hrun⟩ := h.growproc_below evict hn (by omega) (z := 0) (by omega)
  rw [if_pos rfl] at hrun
  refine ⟨s', hrun, fun hall => ?_⟩
  have hres := (h.emptied_iff hn hzero hok hs).1 hall
  have hpages : 0 < pagesOf (s.proc s.cur).sz := lt_pagesOf.1 (by omega)
  rw [hres.emptied hn hzero 0 hpages] at hp
  cases hp

theorem first_process_callable {otherCpus : Nat} {initcode : List Byte}
    (hboot : boot otherCpus initcode Kernel.zero = .ok ((), s)) :
    ∃ mode own, Callable mode own { s with cur := 0 } ∧ (s.proc 0).sz = PGSIZE ∧
      has (entry s (s.proc 0).pgdir 0) PTE_P = true ∧
      ∀ v, v < UPAGES → isSwapped (entry s (s.proc 0).pgdir v) = false := by
  obtain ⟨own, href⟩ := refines_of_boot hboot
  obtain ⟨hrun, hsize⟩ := first_process_runs hboot
  have h := (href.withCur (p := 0) (by decide)).kinv
  refine ⟨_, own, h.callable hrun, hsize, ?_, ?_⟩
  · have hres := href.kinv.resident rfl (p := 0) hrun
    exact hres 0 (by rw [hsize]; decide)
  · intro v hv
    apply Bool.eq_false_of_not_eq_true
    intro hsw
    have hw : pteOf s (s.proc 0).pgdir v = some (entry s (s.proc 0).pgdir v) :=
      pteOf_of_entry (swapped_flag hsw)
    have hrec := h.inv.procs.slot 0 _ _ v _ hrun.live hv hw hsw
    have hfree := h.inv.resident rfl _ hrec.slot
    rw [hrec.busy] at hfree
    cases hfree

end

/-- The first process gives back the last byte of its page. -/
theorem growproc_all_or_nothing_byte : letI := KernelImage.sample
    ∃ s r s', boot 1 [7] Kernel.zero = .ok ((), s) ∧
      growproc findNewPageAfterSwapping (-1) { s with cur := 0 } = .ok (r, s') ∧
      AllOrNothing (-1) { s with cur := 0 } r s' := by
  let _ := KernelImage.sample
  obtain ⟨s, _, hboot, -⟩ := sample_run (by decide)
  obtain ⟨mode, own, h, hsize, -, hnone⟩ := first_process_callable hboot
  have hsz : ((({ s with cur := 0 } : Kernel).proc 0).sz : Int) = 4096 := by
    rw [show (({ s with cur := 0 } : Kernel).proc 0).sz = PGSIZE from hsize]
    rfl
  obtain ⟨s₁, -, -, hrun⟩ := h.growproc_below (n := -1) noEvict (by decide) (by rw [hsz]; decide)
    (z := 4095) (by rw [hsz]; decide)
  obtain ⟨r, s', hok, hiff⟩ := growproc_all_or_nothing findNewPageAfterSwapping h (n := -1)
    (by decide) (by rw [hrun]; exact (by simp))
  refine ⟨s, r, s', hboot, hok, hiff.2 ⟨?_, ?_⟩⟩
  · intro _ hzero
    rw [hsz] at hzero
    simp at hzero
  · intro _ v hv _
    exact hnone v hv

/-- The first process asks to give up its whole memory of one page: the page is gone and the
    call returns -1. -/
theorem growproc_to_zero_loses : letI := KernelImage.sample
    ∃ s s', boot 1 [7] Kernel.zero = .ok ((), s) ∧ (s.proc 0).sz = 4096 ∧
      growproc findNewPageAfterSwapping (-4096) { s with cur := 0 } = .ok (-1, s') ∧
      ¬ AllOrNothing (-4096) { s with cur := 0 } (-1) s' := by
  let _ := KernelImage.sample
  obtain ⟨s, _, hboot, -⟩ := sample_run (by decide)
  obtain ⟨mode, own, h, hsize, hp, -⟩ := first_process_callable hboot
  have hsz : ((({ s with cur := 0 } : Kernel).proc 0).sz : Int) = 4096 := by
    rw [show (({ s with cur := 0 } : Kernel).proc 0).sz = PGSIZE from hsize]
    rfl
  obtain ⟨s', hrun, hnot⟩ := h.emptied_loses (n := -4096) findNewPageAfterSwapping (by decide)
    (by rw [hsz]; decide) hp
  exact ⟨s, s', hboot, hsize, hrun, hnot⟩

end CowPaging
