import CowPaging.Containment
import CowPaging.Guarded
import CowPaging.SharedEviction

/-!
# Runs that use up the memory

Between boot and the first eviction a process can take every free page with `sbrk`, one
page a call. The state at the end of such a run is known well enough to say which page an
eviction takes: no entry has its accessed bit set, since nobody has read or written
anything, and the process that grew is charged most, so the victim is its first page.
-/

namespace CowPaging

open Bytes StateExcept SlotTable
open Function (update_of_ne update_self update_idem update)

variable {s s' : Kernel} {own : Owners} {d k f p : Nat} {ptr : PtePtr} {rest : List Nat}
  {m : Flat}

/-! ### No word with the accessed bit -/

/-- Read as a page-table entry, no word of memory has its accessed bit set. -/
def Unaccessed (s : Kernel) : Prop := ∀ f i, has (ldw (s.mem f) i) PTE_A = false

theorem ldw_bit5 (page : Page) (i : Nat) : (ldw page i).getLsbD 5 = (page (4 * i)).getLsbD 5 := by
  simp only [ldw, BitVec.getLsbD_append]
  rfl

theorem frameAddr_bit5 (f : Nat) : (frameAddr f).getLsbD 5 = false := by
  have hpow : f * PGSIZE = f * 2 ^ 12 := rfl
  rw [frameAddr, hpow, BitVec.getLsbD_ofNat, Nat.testBit_mul_two_pow]
  simp

theorem Unaccessed.setPage {page : Page} (h : Unaccessed s)
    (hpage : ∀ i, has (ldw page i) PTE_A = false) (f : Nat) : Unaccessed (s.setPage f page) := by
  intro g i
  by_cases hg : g = f
  · subst hg
    simpa only [Kernel.setPage, update_self] using hpage i
  · simpa only [Kernel.setPage, update_of_ne hg] using h g i

theorem Unaccessed.storeWord {w : Word} (h : Unaccessed s) (hw : has w PTE_A = false)
    (f i : Nat) : Unaccessed (s.storeWord f i w) := by
  refine h.setPage (fun j => ?_) f
  rw [ldw_stw]
  split
  · exact hw
  · exact h f j

theorem const_unaccessed {c : Byte} (hc : c.getLsbD 5 = false) (i : Nat) :
    has (ldw (fun _ => c) i) PTE_A = false := by
  rw [has_A, ldw_bit5, hc]

section

variable [KernelImage]

/-- Nobody is charged for more than `n` further pages. -/
def Charged (n : Nat) (s s' : Kernel) : Prop :=
  ∀ q, (s'.proc q).rss ≤ (s.proc q).rss + n * PGSIZE

omit [KernelImage] in
theorem Charged.trans {n n' : Nat} {s1 : Kernel} (h : Charged n s s1) (h' : Charged n' s1 s') :
    Charged (n + n') s s' := by
  intro q
  have h1 := h q
  have h2 := h' q
  rw [Nat.add_mul]
  omega

omit [KernelImage] in
theorem Charged.mono {n n' : Nat} (h : Charged n s s') (hle : n ≤ n') : Charged n' s s' :=
  fun q => Nat.le_trans (h q) (Nat.add_le_add_left (Nat.mul_le_mul_right _ hle) _)

/-- The page `f` taken off the free list and filled with zeroes. -/
def Kernel.cleared (s : Kernel) (f : Nat) (rest : List Nat) : Kernel :=
  ({ s with freelist := rest, numFreePages := decr32 s.numFreePages } : Kernel).setPage f fun _ => 0

/-- The state after `sbrk(PGSIZE)`, with the page `f` at the head of the free list and the
    entry `ptr` for the new page. -/
def Kernel.enlarged (s : Kernel) (ptr : PtePtr) (f : Nat) (rest : List Nat) : Kernel :=
  (((s.cleared f rest).linked ptr (userWord f) f).setProc s.cur fun pr =>
    { pr with rss := (pr.rss + PGSIZE) % 2 ^ 32 }).setProc s.cur fun pr =>
    { pr with sz := pr.sz + PGSIZE }

/-- Process `p` of `k` pages, and the entry of the page above them. -/
structure Growable (s : Kernel) (p k : Nat) (ptr : PtePtr) : Prop where
  runs : Runs s p
  size : (s.proc p).sz = k * PGSIZE
  room : (k + 1) * PGSIZE < KERNBASE
  slot : pteSlot s (s.proc p).pgdir k = some ptr
  absent : has (pteAt s ptr) PTE_P = false

omit [KernelImage] in
theorem Growable.page_lt (hg : Growable s p k ptr) : k < UPAGES := by
  have hroom := hg.room
  simp only [UPAGES, PGSIZE, KERNBASE] at hroom ⊢
  omega

theorem Inv.cleared {mode : Mode} (h : Inv mode own (attachOf s) s)
    (hlist : s.freelist = f :: rest) :
    own f = .free ∧ Inv mode (update own f .held) (attachOf s) (s.cleared f rest) := by
  obtain ⟨hfree, hinv⟩ := h.pop (n := decr32 s.numFreePages) hlist
  exact ⟨hfree, hinv.setPage (by rw [update_self]; exact id)⟩

omit [KernelImage] in
theorem sameMaps_cleared (hfree : own f = .free) : SameMaps own s (s.cleared f rest) :=
  sameMaps_setPage (s := { s with freelist := rest, numFreePages := decr32 s.numFreePages })
    (by rw [hfree]; exact id)

theorem growproc_page {mode : Mode} {n : Int} (hn : n = PGSIZE) (h : Inv mode own (attachOf s) s)
    (hg : Growable s s.cur k ptr) (hlist : s.freelist = f :: rest) :
    growproc noEvict n s = .ok (0, s.enlarged ptr f rest) := by
  have hlive := hg.runs.live
  have hd := h.procs.dir _ _ _ hlive
  have hroom := hg.room
  have hk := hg.page_lt
  obtain ⟨hfree, hinv⟩ := h.cleared hlist
  have hret : Retains own (update own f .held) := retains_update (.inl hfree)
  have hmaps : SameMaps own s (s.cleared f rest) := sameMaps_cleared hfree
  have hslot := (hmaps.slot hd).trans hg.slot
  have hword := hmaps _ (by rw [h.tables.slot_owner hd (upages_lt hk) hg.slot]; trivial)
  have hadd : addSigned (k * PGSIZE) n = (k + 1) * PGSIZE := by
    rw [hn]
    simp only [PGSIZE, KERNBASE] at hroom
    change ((((k * 4096 : Nat) : Int) + ((4096 : Nat) : Int)) % 2 ^ 32).toNat = (k + 1) * 4096
    omega
  have hpages : pagesOf ((k + 1) * PGSIZE) - pagesOf (k * PGSIZE) = 1 := by
    simp only [pagesOf, PGROUNDUP, PGSIZE]
    omega
  have hup : PGROUNDUP (k * PGSIZE) = k * PGSIZE := by
    simp only [PGROUNDUP, PGSIZE]
    omega
  have hwp : wp (growproc noEvict n) s
      (fun r t => r = 0 ∧ t = s.enlarged ptr f rest) fun _ => False := by
    unfold growproc
    rw [wp_bind, wp_get, if_pos (by rw [hn]; decide), hg.size, hadd, wp_bind, allocuvm,
      if_neg (by omega), if_neg (by rw [Nat.add_mul]; omega), hpages, hup, allocuvmLoop, wp_bind,
      wp_of_ok (kalloc_cons hlist)]
    simp only [memset, wp_bind, wp_modify]
    rw [← Kernel.cleared, mappages_one (upages_lt hk), mapOne, walkpgdirAlloc, wp_bind, wp_bind,
      hinv.walk (hret.of_dir hd) (mul_PGSIZE_lt (upages_lt hk)), mul_PGSIZE_div, hslot]
    simp only [wp_pure, wp_bind, wp_loadPte]
    rw [pteAt, hword, ← pteAt, hg.absent]
    simp only [Bool.false_eq_true, if_false, wp_bind, wp_storePte, wp_pure]
    rw [if_neg (by decide)]
    refine wp_link hinv (hret.of_dir hd) (upages_lt hk) hslot (h.frames.range f ?_).2 ?_
    · rw [hfree]
      simp
    · simp only [wp_bind, wp_get, addRss, wp_modify, allocuvmLoop, wp_pure]
      rw [if_neg (by rw [Nat.add_mul, PGSIZE]; omega)]
      simp only [wp_bind, wp_modify, wp_pure, true_and]
      have hsz : (k + 1) * PGSIZE = (s.proc s.cur).sz + PGSIZE := by
        rw [hg.size, Nat.add_mul, Nat.one_mul]
      rw [hsz]
      simp only [Kernel.enlarged, Kernel.setProc, update_self, update_idem]
      rfl
  obtain ⟨_, _, hok, rfl, rfl⟩ := exists_ok_of_wp hwp
  exact hok

/-- Process `p` has grown, and nothing that was in memory has moved. -/
structure Undisturbed (p : Nat) (s s' : Kernel) : Prop where
  others : ∀ q, q ≠ p → s'.proc q = s.proc q
  state : (s'.proc p).state = (s.proc p).state
  pgdir : (s'.proc p).pgdir = (s.proc p).pgdir
  entry : ∀ q v, q < NPROC → (s.proc q).state.live = true → v < UPAGES →
    has (entry s (s.proc q).pgdir v) PTE_P = true →
      entry s' (s.proc q).pgdir v = entry s (s.proc q).pgdir v ∧
      s'.mem (frameOf (entry s (s.proc q).pgdir v)) = s.mem (frameOf (entry s (s.proc q).pgdir v))
  unaccessed : Unaccessed s → Unaccessed s'

omit [KernelImage] in
theorem Undisturbed.proc (h : Undisturbed p s s') (q : Nat) :
    (s'.proc q).state = (s.proc q).state ∧ (s'.proc q).pgdir = (s.proc q).pgdir := by
  grind [h.state, h.pgdir, h.others]

omit [KernelImage] in
theorem Undisturbed.refl (p : Nat) (s : Kernel) : Undisturbed p s s :=
  ⟨fun _ _ => rfl, rfl, rfl, fun _ _ _ _ _ _ => ⟨rfl, rfl⟩, id⟩

omit [KernelImage] in
theorem Undisturbed.trans {s1 : Kernel} (h : Undisturbed p s s1) (h' : Undisturbed p s1 s') :
    Undisturbed p s s' where
  others q hq := (h'.others q hq).trans (h.others q hq)
  state := h'.state.trans h.state
  pgdir := h'.pgdir.trans h.pgdir
  entry q v hq hlive hv hp := by
    obtain ⟨he, hmem⟩ := h.entry q v hq hlive hv hp
    have hnext := h'.entry q v hq (by rw [(h.proc q).1, hlive]) hv
    rw [(h.proc q).2, he] at hnext
    obtain ⟨he', hmem'⟩ := hnext hp
    exact ⟨he', hmem'.trans hmem⟩
  unaccessed hs := h'.unaccessed (h.unaccessed hs)

/-- The one entry that `sbrk` stores. -/
theorem pteStore_enlarged {mode : Mode} (h : Inv mode own (attachOf s) s)
    (hg : Growable s s.cur k ptr) (hlist : s.freelist = f :: rest) :
    PteStore own (s.proc s.cur).pgdir k (userWord f) s (s.enlarged ptr f rest) := by
  obtain ⟨hfree, -⟩ := h.cleared hlist
  have hmaps : SameMaps own s (s.cleared f rest) := sameMaps_cleared hfree
  refine pteStore_of_mem h.tables (h.procs.dir _ _ _ hg.runs.live) (upages_lt hg.page_lt) hg.slot
    fun g hmap => ?_
  change (update (s.cleared f rest).mem ptr.table _) g = update s.mem _ _ g
  by_cases hgt : g = ptr.table
  · subst hgt
    rw [update_self, update_self, hmaps _ hmap]
  · rw [update_of_ne hgt, update_of_ne hgt, hmaps _ hmap]

theorem undisturbed_enlarged {mode : Mode} (h : Inv mode own (attachOf s) s)
    (hg : Growable s s.cur k ptr) (hlist : s.freelist = f :: rest) :
    Undisturbed s.cur s (s.enlarged ptr f rest) := by
  have hfree := (h.cleared hlist).1
  have hd := h.procs.dir _ _ _ hg.runs.live
  have htab := h.tables.slot_owner hd (upages_lt hg.page_lt) hg.slot
  have hst := pteStore_enlarged h hg hlist
  refine ⟨fun q hq => ?_, ?_, ?_, fun q v hq hlive hv hp => ⟨?_, ?_⟩, fun hs => ?_⟩
  · simp only [Kernel.enlarged, Kernel.setProc, update_of_ne hq]
    rfl
  · simp only [Kernel.enlarged, Kernel.setProc, update_self]
    rfl
  · simp only [Kernel.enlarged, Kernel.setProc, update_self]
    rfl
  · have he := h.procs.dir q _ _ (attachOf_eq_some.2 ⟨hq, hlive, rfl, rfl⟩)
    rw [entry, hst.pte _ v he (upages_lt hv), if_neg, entry]
    -- the new page had no entry
    rintro ⟨hpg, rfl⟩
    rw [hpg, entry, pteOf_of_slot hg.slot, Option.getD_some, hg.absent] at hp
    cases hp
  · have he := h.procs.dir q _ _ (attachOf_eq_some.2 ⟨hq, hlive, rfl, rfl⟩)
    have huser := (h.maps.user _ _ _ ⟨he, hv, pteOf_of_entry hp⟩ hp).1
    generalize frameOf (CowPaging.entry s (s.proc q).pgdir v) = g at huser ⊢
    have hgt : g ≠ ptr.table := by grind
    have hgf : g ≠ f := by grind
    exact (update_of_ne hgt _ _).trans (update_of_ne hgf _ _)
  · have hclear : Unaccessed (s.cleared f rest) :=
      Unaccessed.setPage (s := { s with freelist := rest, numFreePages := decr32 s.numFreePages })
        hs (const_unaccessed rfl) f
    refine hclear.storeWord (w := userWord f) ?_ ptr.table ptr.index
    rw [has_A, userWord, BitVec.getLsbD_or, BitVec.getLsbD_or, frameAddr_bit5]
    rfl

/-! ### Taking every free page -/

theorem Refines.growable {mode : Mode} (h : Refines mode own s m) (hrun : Runs s p)
    (hsz : (s.proc p).sz = k * PGSIZE) (hpos : 0 < k) (hk : k < 1024) :
    ∃ ptr, Growable s p k ptr := by
  have hlive := hrun.live
  have hsize : 0 * PGSIZE < (s.proc p).sz := by
    rw [hsz, Nat.zero_mul]
    exact Nat.mul_pos hpos (by decide)
  obtain ⟨w, hw, -⟩ := h.kinv.inv.procs.page _ _ _ 0 hlive hsize
  obtain ⟨ptr0, hslot0, -⟩ := pteOf_eq_some.1 hw
  have hslot : pteSlot s (s.proc p).pgdir k = some ⟨ptr0.table, k⟩ := by
    rw [pteSlot_eq_some] at hslot0 ⊢
    rw [show k / 1024 = 0 / 1024 by omega]
    exact ⟨hslot0.1, (Nat.mod_eq_of_lt hk).symm⟩
  have hup : k < UPAGES := Nat.lt_trans hk (by decide)
  have habove := h.kinv.above _ _ _ k hlive (Nat.le_of_eq hsz) hup
  rw [entry_of_pte (pteOf_of_slot hslot)] at habove
  exact ⟨_, hrun, hsz, by simp only [PGSIZE, KERNBASE]; omega, hslot, habove⟩

theorem perform_sbrk {n : Int} (hn : n = PGSIZE) (h : Refines Mode.plenty own s m)
    (hg : Growable s p k ptr) (hlist : s.freelist = f :: rest) :
    perform noEvict p (.sbrk n) s =
      .ok (.code 0, ({ s with cur := p } : Kernel).enlarged ptr f rest) := by
  have hwp : wp (perform noEvict p (.sbrk n)) s (fun r t => r = .code 0 ∧
      t = ({ s with cur := p } : Kernel).enlarged ptr f rest) fun _ => False := by
    unfold perform
    rw [wp_bind, wp_modify, wp_bind, wp_of_ok (growproc_page hn (h.withCur hg.runs.1).kinv.inv
      ⟨hg.runs, hg.size, hg.room, hg.slot, hg.absent⟩ hlist)]
    exact ⟨rfl, rfl⟩
  obtain ⟨_, _, hok, rfl, rfl⟩ := exists_ok_of_wp hwp
  exact hok

theorem Refines.drains : ∀ (l : List Nat) {s : Kernel} {own : Owners} {m : Flat} {k : Nat},
    Refines Mode.plenty own s m → Runs s p → (s.proc p).sz = k * PGSIZE → 0 < k →
    s.freelist = l → k + l.length ≤ 1024 → (s.proc p).rss + l.length * PGSIZE < 2 ^ 32 →
    ∃ ops rs s', Steps noEvict Enabled s ops rs s' ∧ s'.freelist = [] ∧
      (s'.proc p).sz = (k + l.length) * PGSIZE ∧
      (s'.proc p).rss = (s.proc p).rss + l.length * PGSIZE ∧ Undisturbed p s s' := by
  intro l
  induction l with
  | nil =>
    intro s own m k h hrun hsz hpos hlist hk hrss
    exact ⟨[], [], s, .nil s, hlist, hsz, rfl, Undisturbed.refl p s⟩
  | cons f rest ih =>
    intro s own m k h hrun hsz hpos hlist hk hrss
    simp only [List.length_cons] at hk hrss ⊢
    obtain ⟨ptr, hg⟩ := h.growable hrun hsz hpos (by omega)
    obtain ⟨n, hn⟩ : ∃ n : Int, n = PGSIZE := ⟨_, rfl⟩
    have hcall : Enabled s p (.sbrk n) := ⟨hrun, fun hneg => absurd hneg (by rw [hn]; decide)⟩
    have hperf := perform_sbrk hn h hg hlist
    have hsuff : Suffices Mode.plenty true Enabled := suffices_enabled rfl rfl rfl
    obtain ⟨_, hadm⟩ := hsuff _ _ _ _ _ h hcall
    obtain ⟨own1, h1, -⟩ := wp_ok (perform_spec evictOk_plenty h hrun hadm) hperf
    have hun : Undisturbed p { s with cur := p } _ :=
      undisturbed_enlarged (h.withCur hrun.1).kinv.inv
        ⟨hg.runs, hg.size, hg.room, hg.slot, hg.absent⟩ hlist
    generalize hs1 : ({ s with cur := p } : Kernel).enlarged ptr f rest = s1 at hperf h1 hun
    have hself : s1.proc p = { s.proc p with
        rss := ((s.proc p).rss + PGSIZE) % 2 ^ 32, sz := (s.proc p).sz + PGSIZE } := by
      rw [← hs1]
      simp only [Kernel.enlarged, Kernel.setProc, update_self]
      rfl
    have hsz1 : (s1.proc p).sz = (k + 1) * PGSIZE := by
      rw [hself, Nat.add_mul, Nat.one_mul, ← hsz]
    have hrss1 : (s1.proc p).rss = (s.proc p).rss + PGSIZE := by grind
    have hrun1 : Runs s1 p := ⟨hrun.1, by rw [hself]; exact hrun.2⟩
    obtain ⟨ops, rs, s', hsteps, hempty, hsz', hrss', hun'⟩ := ih h1 hrun1 hsz1 (by omega)
      (by rw [← hs1]; rfl) (by omega) (by rw [hrss1]; rw [Nat.add_mul] at hrss; omega)
    have hun1 : Undisturbed p s s1 := ⟨hun.others, hun.state, hun.pgdir, hun.entry, hun.unaccessed⟩
    refine ⟨(p, .sbrk n) :: ops, .code 0 :: rs, s', .cons hcall hperf hsteps, hempty, ?_, ?_,
      hun1.trans hun'⟩
    · rw [hsz']
      congr 1
      omega
    · rw [hrss', hrss1, Nat.add_mul]
      omega

theorem Inv.freelist_le {mode : Mode} {att : Attach} (h : Inv mode own att s) :
    s.freelist.length ≤ NFRAMES - KernelImage.endPage := by
  have hsub : s.freelist ⊆ List.range' KernelImage.endPage (NFRAMES - KernelImage.endPage) := by
    intro f hf
    have hfree := (h.frames.free_iff f).1 hf
    have hrange := h.frames.range f (by rw [hfree]; exact (by simp))
    have hend := KernelImage.end_lt
    rw [List.mem_range'_1]
    omega
  have hle := (h.frames.nodup.subperm hsub).length_le
  rwa [List.length_range'] at hle

theorem Refines.exhausts (h : Refines Mode.plenty own s m) (hrun : Runs s p)
    (hsz : (s.proc p).sz = PGSIZE) (hrss : (s.proc p).rss ≤ PGSIZE) :
    ∃ ops rs s' own', Steps noEvict Enabled s ops rs s' ∧
      Refines Mode.plenty own' s' (m.run ops).2 ∧ s'.freelist = [] ∧
      (s'.proc p).rss = (s.proc p).rss + s.freelist.length * PGSIZE ∧ PGSIZE ≤ (s'.proc p).sz ∧
      Undisturbed p s s' := by
  have hle := h.kinv.inv.freelist_le
  have htext := KernelImage.text_pos
  have hdata := KernelImage.data_le
  have hend := KernelImage.end_lt
  simp only [NFRAMES, PHYSTOP, PGSIZE, EXTMEM] at hle htext hend hrss
  obtain ⟨ops, rs, s', hsteps, hempty, hsz', hrss', hund⟩ := h.drains (k := 1) s.freelist hrun
    (by rw [hsz, Nat.one_mul]) (by decide) rfl (by omega) (by simp only [PGSIZE]; omega)
  obtain ⟨own', h', -⟩ := hsteps.refines evictOk_plenty (suffices_enabled rfl rfl rfl) h
  refine ⟨ops, rs, s', own', hsteps, h', hempty, hrss', ?_, hund⟩
  rw [hsz', Nat.add_mul]
  omega

theorem Refines.supplied {c : Nat} (h : Refines Mode.plenty own s m) (hrun : Runs s p)
    (hsz : (s.proc p).sz = PGSIZE) (hrss : (s.proc p).rss ≤ PGSIZE)
    (hsup : Supply Mode.plenty true noEvict (fun _ => False) c s) : c ≤ s.freelist.length := by
  rcases hsup with hlen | hev
  · exact hlen
  · obtain ⟨_, _, s', own', -, h', hempty, -⟩ := h.exhausts hrun hsz hrss
    exact (hev own' s' h'.kinv.inv hempty).elim

theorem boot_one_byte {c : Nat} (hmem : c + 1 + 23 ≤ NFRAMES - KernelImage.endPage) :
    ∃ s own, boot 1 [7] Kernel.zero = .ok ((), s) ∧ Refines Mode.plenty own s (Flat.boot [7]) ∧
      Supply Mode.plenty true noEvict (fun _ => False) c s ∧ Runs s 0 ∧
      (s.proc 0).sz = PGSIZE := by
  have hlen : ([7] : List Byte).length < PGSIZE := by decide
  have hwp : wp (boot 1 [7]) Kernel.zero (fun _ s =>
      (∃ own, Refines Mode.plenty own s (Flat.boot [7])) ∧
      Supply Mode.plenty true noEvict (fun _ => False) c s) fun _ => False :=
    boot_spec rfl rfl (.inl hlen) (.inl hmem)
  obtain ⟨_, s, hboot, ⟨own, h⟩, hsup⟩ := exists_ok_of_wp hwp
  obtain ⟨hstate, -, -⟩ := first_page_present hboot
  refine ⟨s, own, hboot, h, hsup, ⟨by decide, .inr (.inl hstate)⟩, ?_⟩
  rw [← h.seesAs.size 0 (by decide) (by rw [hstate]; rfl)]
  rfl

end

end CowPaging
