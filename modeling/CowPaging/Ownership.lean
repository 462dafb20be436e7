import CowPaging.Proc

/-!
# Who owns a physical page

Every page the allocator manages has one role at a time: on the free list, user
memory, page directory, page table of one directory at one index, kernel stack,
or held by the kernel in some other way (a page just taken from the free list, a
pipe, a boot stack). The role function is ghost state. `TableInv` ties it to the
directory entries, `MapInv` ties the user mappings to the reverse map: the entry
of a page lists exactly the user entries that map it.
-/

namespace CowPaging

open Bytes StateExcept SlotTable

/-! ### Reading page tables -/

/-- The page table at index `i` of directory `d`. -/
def tableOf (s : Kernel) (d i : Nat) : Option Nat :=
  if has (ldw (s.mem d) i) PTE_P then some (frameOf (ldw (s.mem d) i)) else none

/-- Page `f` is the directory `d` or one of its tables. -/
def InDir (s : Kernel) (d f : Nat) : Prop := f = d ∨ ∃ i, i < 1024 ∧ tableOf s d i = some f

theorem InDir.congr {s s' : Kernel} {d : Nat} (h : s'.mem d = s.mem d) (f : Nat) :
    InDir s' d f ↔ InDir s d f := by
  simp only [InDir, tableOf, h]

/-- The word behind a `pte_t *`. -/
def pteAt (s : Kernel) (ptr : PtePtr) : Word := ldw (s.mem ptr.table) ptr.index

/-- The entry of page `v` in directory `d`, if its table exists. -/
def pteSlot (s : Kernel) (d v : Nat) : Option PtePtr :=
  (tableOf s d (v / 1024)).map fun t => ⟨t, v % 1024⟩

def pteOf (s : Kernel) (d v : Nat) : Option Word := (pteSlot s d v).map (pteAt s)

/-- The entry of page `v`, where a missing table counts as zero entries. -/
def entry (s : Kernel) (d v : Nat) : Word := (pteOf s d v).getD 0

theorem pteSlot_eq_some {s : Kernel} {d v : Nat} {ptr : PtePtr} :
    pteSlot s d v = some ptr ↔
      tableOf s d (v / 1024) = some ptr.table ∧ ptr.index = v % 1024 := by
  cases ptr
  simp only [pteSlot, Option.map_eq_some_iff, PtePtr.mk.injEq]
  constructor
  · grind
  · grind

theorem pteOf_of_slot {s : Kernel} {d v : Nat} {ptr : PtePtr}
    (h : pteSlot s d v = some ptr) : pteOf s d v = some (pteAt s ptr) := by
  rw [pteOf, h]; rfl

theorem pteOf_eq_some {s : Kernel} {d v : Nat} {w : Word} :
    pteOf s d v = some w ↔ ∃ ptr, pteSlot s d v = some ptr ∧ pteAt s ptr = w := by
  simp only [pteOf, Option.map_eq_some_iff]

theorem pteSlot_congr {s s' : Kernel} {d v : Nat}
    (h : tableOf s' d (v / 1024) = tableOf s d (v / 1024)) :
    pteSlot s' d v = pteSlot s d v := by
  rw [pteSlot, pteSlot, h]

theorem pteOf_none_iff {s : Kernel} {d v : Nat} :
    pteOf s d v = none ↔ tableOf s d (v / 1024) = none := by
  simp [pteOf, pteSlot]

theorem pteOf_of_mem_eq {s s' : Kernel} (h : s'.mem = s.mem) (d v : Nat) :
    pteOf s' d v = pteOf s d v := by
  have hat : pteAt s' = pteAt s := by
    funext q
    rw [pteAt, pteAt, h]
  rw [pteOf, pteOf, pteSlot, pteSlot, tableOf, tableOf, h, hat]

theorem entry_of_pte {s : Kernel} {d v : Nat} {w : Word} (h : pteOf s d v = some w) :
    entry s d v = w := by
  rw [entry, h, Option.getD_some]

theorem entry_of_none {s : Kernel} {d v : Nat} (h : pteOf s d v = none) : entry s d v = 0 := by
  rw [entry, h, Option.getD_none]

/-! ### Roles -/

inductive Owner where
  | unmanaged
  | free
  | user
  | dir
  | tab (d i : Nat)
  | stack (p : Nat)
  | held
deriving DecidableEq

abbrev Owners := Nat → Owner

/-- Directories and tables: the pages that translation reads. -/
def Owner.isMap : Owner → Prop
  | .dir => True
  | .tab _ _ => True
  | _ => False

/-- Pages that no address space holds: outside the allocator, kernel stacks, and pages the
    kernel holds in some other way. -/
def Owner.isKernel : Owner → Prop
  | .unmanaged => True
  | .stack _ => True
  | .held => True
  | _ => False

structure FrameInv [KernelImage] (own : Owners) (s : Kernel) : Prop where
  nodup : s.freelist.Nodup
  free_iff : ∀ f, f ∈ s.freelist ↔ own f = .free
  range : ∀ f, own f ≠ .unmanaged → KernelImage.endPage ≤ f ∧ f < NFRAMES

structure TableInv (own : Owners) (s : Kernel) : Prop where
  tab_iff : ∀ d i t, own d = .dir → i < 1024 → (tableOf s d i = some t ↔ own t = .tab d i)
  tab_dir : ∀ d i t, own t = .tab d i → own d = .dir ∧ i < 1024

/-- `w` is the entry of user page `v` in the live directory `d`. -/
def Upte (own : Owners) (s : Kernel) (d v : Nat) (w : Word) : Prop :=
  own d = .dir ∧ v < UPAGES ∧ pteOf s d v = some w

/-- The user entries that map page `n`. -/
def mappers (own : Owners) (s : Kernel) (n : Nat) : Set PtePtr :=
  { ptr | ∃ d v w, Upte own s d v w ∧ has w PTE_P = true ∧ frameOf w = n ∧
      pteSlot s d v = some ptr }

/-- The entry lists exactly the pointers of `A`. -/
def Rmap.Lists (r : Rmap) (A : Set PtePtr) : Prop :=
  Holds NPROC r.refcount r.pteId r.presentId A

structure MapInv (own : Owners) (s : Kernel) : Prop where
  user : ∀ d v w, Upte own s d v w → has w PTE_P = true →
    own (frameOf w) = .user ∧ has w PTE_S = false
  kern : ∀ d v w, own d = .dir → UPAGES ≤ v → v < 2 ^ 20 → pteOf s d v = some w →
    has w PTE_S = false
  once : ∀ d v v' w w', Upte own s d v w → Upte own s d v' w' → has w PTE_P = true →
    has w' PTE_P = true → frameOf w = frameOf w' → v = v'
  exact : ∀ n, n < NFRAMES → (s.rmap n).Lists (mappers own s n)
  mapped : ∀ n, own n = .user → (mappers own s n).Nonempty
  writable : ∀ d v w, Upte own s d v w → has w PTE_P = true → has w PTE_W = true →
    (s.rmap (frameOf w)).refcount = 1

/-! ### What a change of state leaves alone -/

/-- The pages translation reads are the same. -/
def SameMaps (own : Owners) (s s' : Kernel) : Prop :=
  ∀ f, (own f).isMap → s'.mem f = s.mem f

theorem SameMaps.refl (own : Owners) (s : Kernel) : SameMaps own s s := fun _ _ => rfl

theorem SameMaps.table {own : Owners} {s s' : Kernel} (h : SameMaps own s s') {d i : Nat}
    (hd : own d = .dir) : tableOf s' d i = tableOf s d i := by
  rw [tableOf, tableOf, h d (by rw [hd]; trivial)]

theorem SameMaps.slot {own : Owners} {s s' : Kernel} (h : SameMaps own s s') {d v : Nat}
    (hd : own d = .dir) : pteSlot s' d v = pteSlot s d v :=
  pteSlot_congr (h.table hd)

theorem TableInv.slot_owner {own : Owners} {s : Kernel} (hT : TableInv own s) {d v : Nat}
    {ptr : PtePtr} (hd : own d = .dir) (hv : v < 2 ^ 20) (h : pteSlot s d v = some ptr) :
    own ptr.table = .tab d (v / 1024) :=
  (hT.tab_iff d (v / 1024) ptr.table hd (by omega)).1 (pteSlot_eq_some.1 h).1

theorem SameMaps.pte {own : Owners} {s s' : Kernel} (h : SameMaps own s s')
    (hT : TableInv own s) {d v : Nat} (hd : own d = .dir) (hv : v < 2 ^ 20) :
    pteOf s' d v = pteOf s d v := by
  cases hs : pteSlot s d v with
  | none => rw [pteOf, pteOf, h.slot hd, hs]; rfl
  | some ptr =>
    have howner := hT.slot_owner hd hv hs
    rw [pteOf_of_slot hs, pteOf_of_slot ((h.slot hd).trans hs), pteAt, pteAt,
      h ptr.table (by rw [howner]; trivial)]

theorem sameMaps_of_mem {own : Owners} {s s' : Kernel} (h : s'.mem = s.mem) :
    SameMaps own s s' := fun f _ => by rw [h]

theorem sameMaps_setPage {own : Owners} {s : Kernel} {f : Nat} {page : Page}
    (hf : ¬ (own f).isMap) : SameMaps own s (s.setPage f page) := by
  intro g hg
  have hne : g ≠ f := by rintro rfl; exact hf hg
  exact Function.update_of_ne hne _ _

/-- A change of roles among pages that are neither user memory nor maps. -/
structure SameRoles (own own' : Owners) : Prop where
  dir : ∀ f, own' f = .dir ↔ own f = .dir
  user : ∀ f, own' f = .user ↔ own f = .user
  tab : ∀ f d i, own' f = .tab d i ↔ own f = .tab d i

theorem SameRoles.refl (own : Owners) : SameRoles own own :=
  ⟨fun _ => Iff.rfl, fun _ => Iff.rfl, fun _ _ _ => Iff.rfl⟩

/-- A role that says nothing about translation. -/
def Owner.isPlain : Owner → Prop
  | .user => False
  | .dir => False
  | .tab _ _ => False
  | _ => True

theorem sameRoles_update {own : Owners} {f : Nat} {o : Owner} (hf : (own f).isPlain)
    (ho : o.isPlain) : SameRoles own (Function.update own f o) := by
  refine ⟨fun g => ?_, fun g => ?_, fun g d i => ?_⟩ <;>
  · by_cases hg : g = f
    · subst hg
      rw [Function.update_self]
      constructor
      · intro h; rw [h] at ho; exact ho.elim
      · intro h; rw [h] at hf; exact hf.elim
    · rw [Function.update_of_ne hg]

theorem TableInv.congr {own own' : Owners} {s s' : Kernel} (h : TableInv own s)
    (hroles : SameRoles own own') (hmaps : SameMaps own s s') : TableInv own' s' where
  tab_iff d i t hd hi := by
    have hd' := (hroles.dir d).1 hd
    rw [hmaps.table hd', hroles.tab, h.tab_iff d i t hd' hi]
  tab_dir d i t ht := by
    rw [hroles.tab] at ht
    rw [hroles.dir]
    exact h.tab_dir d i t ht

theorem upages_lt {v : Nat} (h : v < UPAGES) : v < 2 ^ 20 := by
  simp only [UPAGES, KERNBASE, PGSIZE] at h
  omega

theorem Upte.congr {own own' : Owners} {s s' : Kernel} (hT : TableInv own s)
    (hroles : SameRoles own own') (hmaps : SameMaps own s s') {d v : Nat} {w : Word} :
    Upte own' s' d v w ↔ Upte own s d v w := by
  constructor
  · rintro ⟨hd, hv, hw⟩
    have hd' := (hroles.dir d).1 hd
    exact ⟨hd', hv, by rw [← hmaps.pte hT hd' (upages_lt hv)]; exact hw⟩
  · rintro ⟨hd, hv, hw⟩
    exact ⟨(hroles.dir d).2 hd, hv, by rw [hmaps.pte hT hd (upages_lt hv)]; exact hw⟩

/-- The present user entries, their places, the user pages and the reverse map are
    the same. -/
theorem MapInv.of_upte {own own' : Owners} {s s' : Kernel} (h : MapInv own s)
    (hup : ∀ d v w, has w PTE_P = true → (Upte own' s' d v w ↔ Upte own s d v w))
    (hslot : ∀ d v ptr, own d = .dir → v < UPAGES → pteSlot s d v = some ptr →
      pteSlot s' d v = some ptr)
    (huser : ∀ n, own' n = .user ↔ own n = .user)
    (hkern : ∀ d v w, own' d = .dir → UPAGES ≤ v → v < 2 ^ 20 → pteOf s' d v = some w →
      has w PTE_S = false)
    (hrmap : s'.rmap = s.rmap) : MapInv own' s' := by
  have hmap : ∀ n, mappers own' s' n = mappers own s n := by
    intro n
    ext q
    constructor
    · rintro ⟨d, v, w, hu, hp, hn, hq⟩
      have hu' := (hup d v w hp).1 hu
      obtain ⟨ptr, hptr, -⟩ := pteOf_eq_some.1 hu'.2.2
      have heq := hslot d v ptr hu'.1 hu'.2.1 hptr
      rw [hq] at heq
      exact ⟨d, v, w, hu', hp, hn, by rw [hptr, heq]⟩
    · rintro ⟨d, v, w, hu, hp, hn, hq⟩
      exact ⟨d, v, w, (hup d v w hp).2 hu, hp, hn, hslot d v q hu.1 hu.2.1 hq⟩
  refine ⟨?_, hkern, ?_, ?_, ?_, ?_⟩
  · intro d v w hu hp
    rw [huser]
    exact h.user d v w ((hup d v w hp).1 hu) hp
  · intro d v v' w w' hu hu' hp hp'
    exact h.once d v v' w w' ((hup d v w hp).1 hu) ((hup d v' w' hp').1 hu') hp hp'
  · intro n hn
    rw [hmap, hrmap]
    exact h.exact n hn
  · grind [h.mapped]
  · intro d v w hu hp hw
    rw [hrmap]
    exact h.writable d v w ((hup d v w hp).1 hu) hp hw

theorem MapInv.congr {own own' : Owners} {s s' : Kernel} (h : MapInv own s)
    (hT : TableInv own s) (hroles : SameRoles own own') (hmaps : SameMaps own s s')
    (hrmap : s'.rmap = s.rmap) : MapInv own' s' := by
  refine h.of_upte (fun d v w _ => Upte.congr hT hroles hmaps) ?_ hroles.user ?_ hrmap
  · intro d v ptr hd _ hptr
    rw [hmaps.slot hd, hptr]
  · grind [hroles.dir, h.kern, hmaps.pte]

end CowPaging
