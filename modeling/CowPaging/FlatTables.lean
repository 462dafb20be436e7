import CowPaging.Guarded
import CowPaging.Boot

/-!
# Two levels of tables as one map

A directory with its tables stands for one partial map from page numbers to entries, in
which a missing table and a table of zeroes are the same. The page walk with allocation
leaves that map alone. `mappages` sets a range of it: its loop, which the source ends by
the test `a == last`, stops for every start and every size. The loop of `deallocuvm` jumps
over missing tables; it visits the entries that a loop over all pages would visit, each
once and in the same order.

Only the shape of the tables matters for the first two, so they hold in every state with
`Paged`, also between the stores of one `mappages`.
-/

namespace CowPaging

open Bytes StateExcept SlotTable
open Function (update_of_ne update_self update)

/-- The directory `d` as a map: a zero entry, or one in a missing table, maps nothing. -/
def flat (s : Kernel) (d v : Nat) : Option Word :=
  if entry s d v = 0 then none else some (entry s d v)

theorem flat_congr {s s' : Kernel} {d v : Nat} (h : entry s' d v = entry s d v) :
    flat s' d v = flat s d v := by
  rw [flat, flat, h]

theorem flat_of_ne_zero {s : Kernel} {d v : Nat} (h : entry s d v ≠ 0) :
    flat s d v = some (entry s d v) := if_neg h

variable [KernelImage]

/-- The allocator and the tables are in order. -/
structure Paged (own : Owners) (s : Kernel) : Prop where
  frames : FrameInv own s
  tables : TableInv own s

theorem Inv.paged {mode : Mode} {own : Owners} {att : Attach} {s : Kernel}
    (h : Inv mode own att s) : Paged own s := ⟨h.frames, h.tables⟩

/-- Tables may have been added. No entry outside `X` changed. -/
structure Extends (own own' : Owners) (X : Nat → Nat → Prop) (s s' : Kernel) : Prop where
  paged : Paged own' s'
  dir : ∀ e, own e = .dir → own' e = .dir
  slot : ∀ e v ptr, own e = .dir → v < 2 ^ 20 → pteSlot s e v = some ptr →
    pteSlot s' e v = some ptr
  entry : ∀ e v, own e = .dir → v < 2 ^ 20 → ¬ X e v → entry s' e v = entry s e v

variable {own own' : Owners} {s s' : Kernel} {d v va : Nat} {ptr : PtePtr}

theorem Extends.refl {X : Nat → Nat → Prop} (h : Paged own s) : Extends own own X s s :=
  ⟨h, fun _ he => he, fun _ _ _ _ _ hslot => hslot, fun _ _ _ _ _ => rfl⟩

theorem Extends.trans {own1 : Owners} {X Y : Nat → Nat → Prop} {s1 : Kernel}
    (h : Extends own own1 X s s1) (h' : Extends own1 own' Y s1 s') :
    Extends own own' (fun e v => X e v ∨ Y e v) s s' where
  paged := h'.paged
  dir e he := h'.dir e (h.dir e he)
  slot e v ptr he hv hslot := h'.slot e v ptr (h.dir e he) hv (h.slot e v ptr he hv hslot)
  entry e v he hv hX := by grind [h'.entry, h.dir, h.entry]

theorem Extends.mono {X Y : Nat → Nat → Prop} (h : Extends own own' X s s')
    (hXY : ∀ e v, X e v → Y e v) : Extends own own' Y s s' :=
  ⟨h.paged, h.dir, h.slot, fun e v he hv hY => h.entry e v he hv fun hX => hY (hXY e v hX)⟩

/-! ### The page walk -/

theorem Paged.newTable {i f : Nat} (h : Paged own s) (hnt : NewTable own d i f s s')
    (hheld : own f = .held) (hd : own d = .dir) (hi : i < 1024)
    (hlist : s'.freelist = s.freelist) :
    Extends own (update own f (.tab d i)) (fun _ _ => False) s s' where
  paged := ⟨(h.frames.update (by rw [hheld]; simp) (by rw [hheld]; simp) (by simp)).congr hlist,
    hnt.tableInv h.tables hheld hd hi⟩
  dir e he := by grind
  slot e v ptr he hv hslot := hnt.slot he hv hslot
  entry e v he hv _ := by
    cases hold : pteOf s e v with
    | some w => rw [entry_of_pte (hnt.pte e v w he hv hold), entry_of_pte hold]
    | none =>
      rw [entry_of_none hold]
      rcases hnt.pte_none he hv hold with h' | h'
      · exact entry_of_none h'
      · exact entry_of_pte h'

theorem Paged.pop {f : Nat} {rest : List Nat} {n : Nat} (h : Paged own s)
    (hlist : s.freelist = f :: rest) :
    Extends own (update own f .held) (fun _ _ => False) s
      { s with freelist := rest, numFreePages := n } := by
  have hfree : own f = .free :=
    (h.frames.free_iff f).1 (by rw [hlist]; exact List.mem_cons_self)
  refine ⟨⟨h.frames.pop hlist rfl, ?_⟩, ?_, fun _ _ _ _ _ hslot => hslot, fun _ _ _ _ _ => rfl⟩
  · exact h.tables.congr (sameRoles_update (by rw [hfree]; trivial) trivial) (sameMaps_of_mem rfl)
  · grind

theorem walkpgdirAlloc_flat (h : Paged own s) (hd : own d = .dir) (hva : va < 2 ^ 32) :
    wp (walkpgdirAlloc noEvict d va) s (fun r s' => ∃ ptr own', r = some ptr ∧
      pteSlot s' d (va / PGSIZE) = some ptr ∧ Extends own own' (fun _ _ => False) s s')
      fun e => e = .noEvict := by
  unfold walkpgdirAlloc
  rw [wp_bind, wp_walkpgdir h.tables h.frames hd hva]
  cases hslot : pteSlot s d (va / PGSIZE) with
  | some ptr => exact ⟨ptr, own, rfl, hslot, Extends.refl h⟩
  | none =>
    have htab : tableOf s d (va / PGSIZE / 1024) = none := Option.map_eq_none_iff.1 hslot
    have hi : va / PGSIZE / 1024 < 1024 := by
      simp only [PGSIZE]
      omega
    simp only [wp_bind]
    cases hlist : s.freelist with
    | nil =>
      unfold kalloc
      rw [wp_bind, wp_popFree_nil hlist]
      exact rfl
    | cons f rest =>
      rw [wp_of_ok (kalloc_cons hlist)]
      simp only [memset, wp_bind, wp_modify, wp_pure]
      have hpop := h.pop (n := decr32 s.numFreePages) hlist
      have hheld : update own f .held f = .held := update_self _ _ _
      have hflt : f < NFRAMES := (hpop.paged.frames.range f (by rw [hheld]; simp)).2
      obtain ⟨hp, hframe⟩ := pde_bits hflt
      have hd1 := hpop.dir d hd
      have hnt := newTable_of_store hpop.paged.tables hd1 hi hheld htab hp hframe
      rw [PDX_eq hva]
      refine ⟨⟨f, PTX va⟩, _, rfl, ?_,
        (hpop.trans (hpop.paged.newTable hnt hheld hd1 hi rfl)).mono ?_⟩
      · rw [pteSlot_eq_some, hnt.table d _ hd1 hi, if_pos ⟨rfl, rfl⟩]
        exact ⟨rfl, PTX_eq va⟩
      · intro e u hX
        exact hX.elim id id

theorem walkpgdirAlloc_of_slot {evict : K Unit} (h : Paged own s) (hd : own d = .dir)
    (hva : va < 2 ^ 32) (hslot : pteSlot s d (va / PGSIZE) = some ptr) :
    walkpgdirAlloc evict d va s = .ok (some ptr, s) := by
  have hwp : wp (walkpgdirAlloc evict d va) s (fun r s' => r = some ptr ∧ s' = s)
      fun _ => False := by
    unfold walkpgdirAlloc
    rw [wp_bind, wp_walkpgdir h.tables h.frames hd hva, hslot]
    exact ⟨rfl, rfl⟩
  obtain ⟨_, _, hok, rfl, rfl⟩ := exists_ok_of_wp hwp
  exact hok

/-! ### `mappages` -/

theorem Paged.store {w : Word} (h : Paged own s) (hd : own d = .dir) (hv : v < 2 ^ 20)
    (hslot : pteSlot s d v = some ptr) :
    Extends own own (fun e u => e = d ∧ u = v) s (s.storeWord ptr.table ptr.index w) ∧
      entry (s.storeWord ptr.table ptr.index w) d v = w := by
  have hst := pteStore_storeWord h.tables hd hv hslot w
  constructor
  · refine ⟨⟨h.frames.congr rfl, h.tables.store (SameMapRoles.refl own) hst.table⟩,
      fun _ he => he, ?_, ?_⟩
    · intro e u q he _ hq
      rw [hst.slot he, hq]
    · intro e u he hu hX
      rw [hst.entry_eq he hu, if_neg hX]
  · rw [hst.entry_eq hd hv, if_pos ⟨rfl, rfl⟩]

theorem mapOne_flat {pa perm : Word} (h : Paged own s) (hd : own d = .dir) (hv : v < 2 ^ 20)
    (hfree : has (entry s d v) PTE_P = false) :
    wp (mapOne noEvict d (v * PGSIZE) pa perm) s (fun r s' => r = 0 ∧ ∃ own',
      Extends own own' (fun e u => e = d ∧ u = v) s s' ∧
      entry s' d v = pa ||| perm ||| PTE_P) fun e => e = .noEvict := by
  unfold mapOne
  rw [wp_bind]
  have hwalk := walkpgdirAlloc_flat h hd (mul_PGSIZE_lt hv)
  rw [mul_PGSIZE_div] at hwalk
  refine wp_conseq hwalk ?_
  rintro - s1 ⟨ptr, own1, rfl, hslot, hext⟩
  have hword : pteAt s1 ptr = entry s d v := by
    rw [← hext.entry d v hd hv id, entry_of_pte (pteOf_of_slot hslot)]
  simp only [wp_bind, wp_loadPte]
  rw [hword, hfree]
  obtain ⟨hstore, hself⟩ := hext.paged.store (w := pa ||| perm ||| PTE_P) (hext.dir d hd) hv hslot
  refine ⟨rfl, own1, (hext.trans hstore).mono ?_, hself⟩
  rintro e u (hX | hX)
  · exact hX.elim
  · exact hX

/-- Pages `lo` to `hi` of directory `d` map consecutive pages of physical memory from `pa`
    on. -/
def MapsRange (s : Kernel) (d lo hi : Nat) (pa perm : Word) : Prop :=
  ∀ u, lo ≤ u → u ≤ hi →
    entry s d u = (pa + BitVec.ofNat 32 ((u - lo) * PGSIZE)) ||| perm ||| PTE_P

/-- The loop of `mappages` over pages `v` to `v + n`. -/
theorem mappagesLoop_flat (perm : Word) {n : Nat} :
    ∀ {s : Kernel} {own : Owners} {v : Nat} (pa : Word), Paged own s → own d = .dir →
      v + n < 2 ^ 20 → (∀ u, v ≤ u → u ≤ v + n → has (entry s d u) PTE_P = false) →
      wp (mappagesLoop noEvict d perm n (v * PGSIZE) pa) s (fun r s' => r = 0 ∧ ∃ own',
        Extends own own' (fun e u => e = d ∧ v ≤ u ∧ u ≤ v + n) s s' ∧
        MapsRange s' d v (v + n) pa perm) fun e => e = .noEvict := by
  induction n with
  | zero =>
    intro s own v pa h hd hv hfree
    refine wp_conseq (mapOne_flat h hd hv (hfree v (Nat.le_refl v) (Nat.le_refl v))) ?_
    rintro r s' ⟨hr, own', hext, hself⟩
    refine ⟨hr, own', hext.mono ?_, ?_⟩
    · rintro e u ⟨rfl, rfl⟩
      exact ⟨rfl, Nat.le_refl u, Nat.le_refl u⟩
    · intro u hlo hhi
      obtain rfl : u = v := by omega
      rw [hself, Nat.sub_self, Nat.zero_mul]
      simp
  | succ n ih =>
    intro s own v pa h hd hv hfree
    rw [mappagesLoop, wp_bind]
    refine wp_conseq (mapOne_flat h hd (by omega) (hfree v (Nat.le_refl v) (by omega))) ?_
    rintro r s1 ⟨rfl, own1, hext, hself⟩
    have hnext : (v * PGSIZE + PGSIZE) % 2 ^ 32 = (v + 1) * PGSIZE := by
      simp only [PGSIZE]
      omega
    rw [if_neg (by decide), hnext]
    have hd1 := hext.dir d hd
    have hfree1 : ∀ u, v + 1 ≤ u → u ≤ v + 1 + n → has (entry s1 d u) PTE_P = false := by
      intro u hlo hhi
      rw [hext.entry d u hd (by omega) (by omega)]
      exact hfree u (by omega) (by omega)
    refine wp_conseq (ih _ hext.paged hd1 (by omega) hfree1) ?_
    rintro r s2 ⟨hr, own2, hext2, hmaps⟩
    refine ⟨hr, own2, (hext.trans hext2).mono ?_, ?_⟩
    · rintro e u (⟨rfl, rfl⟩ | ⟨rfl, hlo, hhi⟩)
      · exact ⟨rfl, by omega, by omega⟩
      · exact ⟨rfl, by omega, by omega⟩
    · intro u hlo hhi
      by_cases huv : u = v
      · subst huv
        rw [hext2.entry d u hd1 (by omega) (by omega), hself, Nat.sub_self, Nat.zero_mul]
        simp
      · have hoff : PGSIZE + (u - (v + 1)) * PGSIZE = (u - v) * PGSIZE := by
          simp only [PGSIZE]
          omega
        rw [hmaps u (by omega) (by omega), BitVec.add_assoc, ← BitVec.ofNat_add, hoff]

/-- The loop of `mappages` as the source writes it, with `fuel` turns at most. -/
def mappagesFor (evict : K Unit) (pgdir last : Nat) (perm : Word) : Nat → Nat → Word → K Int
  | 0, _, _ => throw .spin
  | fuel + 1, a, pa => do
    let r ← mapOne evict pgdir a pa perm
    if r < 0 then pure (-1)
    else if a = last then pure 0
    else
      mappagesFor evict pgdir last perm fuel ((a + PGSIZE) % 2 ^ 32)
        (pa + BitVec.ofNat 32 PGSIZE)

omit [KernelImage] in
theorem mapOne_code {evict : K Unit} {a : Nat} {pa perm : Word} {r : Int}
    (h : mapOne evict d a pa perm s = .ok (r, s')) : r = 0 ∨ r = -1 := by
  have hwp : wp (mapOne evict d a pa perm) s (fun r _ => r = 0 ∨ r = -1) fun _ => True := by
    unfold mapOne
    rw [wp_bind]
    refine wp_conseq (wp_trivial _) ?_
    rintro (_ | ptr) s1 -
    · exact .inr rfl
    · simp only [wp_bind, wp_loadPte]
      refine wp_ite (fun _ => trivial) fun _ => ?_
      exact .inl rfl
  have hr := wp_ok hwp h
  exact hr

omit [KernelImage] in
theorem mappagesFor_eq (evict : K Unit) (perm : Word) {n : Nat} :
    ∀ {fuel a : Nat} (pa : Word) (s : Kernel), n < fuel → n < 2 ^ 20 → a < 2 ^ 32 →
      mappagesFor evict d ((a + n * PGSIZE) % 2 ^ 32) perm fuel a pa s =
        mappagesLoop evict d perm n a pa s := by
  induction n with
  | zero =>
    intro fuel a pa s hfuel _ ha
    obtain ⟨fuel, rfl⟩ := Nat.exists_eq_succ_of_ne_zero (Nat.ne_of_gt hfuel)
    rw [mappagesFor, mappagesLoop, Nat.zero_mul, Nat.add_zero, Nat.mod_eq_of_lt ha]
    simp only [bind, StateT.bind, Except.bind, if_true]
    cases hone : mapOne evict d a pa perm s with
    | error e => rfl
    | ok x =>
      obtain ⟨r, s'⟩ := x
      rcases mapOne_code hone with rfl | rfl <;> rfl
  | succ n ih =>
    intro fuel a pa s hfuel hn ha
    obtain ⟨fuel, rfl⟩ := Nat.exists_eq_succ_of_ne_zero (Nat.ne_of_gt (Nat.zero_lt_of_lt hfuel))
    have hne : a ≠ (a + (n + 1) * PGSIZE) % 2 ^ 32 := by
      simp only [PGSIZE]
      omega
    have hlast : (a + (n + 1) * PGSIZE) % 2 ^ 32 =
        ((a + PGSIZE) % 2 ^ 32 + n * PGSIZE) % 2 ^ 32 := by
      simp only [PGSIZE]
      omega
    rw [mappagesFor, mappagesLoop, if_neg hne, hlast]
    simp only [bind, StateT.bind, Except.bind]
    cases mapOne evict d a pa perm s with
    | error e => rfl
    | ok x =>
      dsimp only
      split
      · rfl
      · exact ih _ x.2 (by omega) (by omega) (Nat.mod_lt _ (by decide))

omit [KernelImage] in
theorem mappagesFor_stops (evict : K Unit) (size : Nat) (pa perm : Word) (s : Kernel)
    {fuel : Nat} (hva : va < 2 ^ 32) (hfuel : 2 ^ 20 ≤ fuel) :
    mappagesFor evict d (PGROUNDDOWN ((va + size + (2 ^ 32 - 1)) % 2 ^ 32)) perm fuel
      (PGROUNDDOWN va) pa s = mappages evict d va size pa perm s := by
  rw [mappages]
  have hlt := Nat.mod_lt (va + size + (2 ^ 32 - 1)) (show 0 < 2 ^ 32 by decide)
  generalize (va + size + (2 ^ 32 - 1)) % 2 ^ 32 = top at hlt
  have hlast : PGROUNDDOWN top = (PGROUNDDOWN va +
      (PGROUNDDOWN top + 2 ^ 32 - PGROUNDDOWN va) % 2 ^ 32 / PGSIZE * PGSIZE) % 2 ^ 32 := by
    simp only [PGROUNDDOWN, PGSIZE]
    omega
  have hturns : (PGROUNDDOWN top + 2 ^ 32 - PGROUNDDOWN va) % 2 ^ 32 / PGSIZE < 2 ^ 20 := by
    simp only [PGSIZE]
    omega
  have heq := mappagesFor_eq (d := d) evict perm pa s (Nat.lt_of_lt_of_le hturns hfuel) hturns (a := PGROUNDDOWN va)
    (by simp only [PGROUNDDOWN, PGSIZE]; omega)
  rw [← hlast] at heq
  exact heq

/-! ### The loop of `deallocuvm` -/

/-- The loop of `deallocuvm`, with `fuel` turns at most, which goes on at `jump a` where the
    table for `a` is missing; the result lists the present entries it visits. -/
def deallocWith (jump : Nat → Nat) (pgdir p oldsz : Nat) : Nat → Nat → K (List PtePtr)
  | 0, _ => throw .spin
  | fuel + 1, a =>
    if a < oldsz then do
      match ← walkpgdir pgdir a with
      | none => deallocWith jump pgdir p oldsz fuel (jump a)
      | some pte => do
        let w ← loadPte pte
        unmapPte p pte
        let rest ← deallocWith jump pgdir p oldsz fuel ((a + PGSIZE) % 2 ^ 32)
        pure (if has w PTE_P then pte :: rest else rest)
    else pure []

/-- `a = PGADDR(PDX(a) + 1, 0, 0) - PGSIZE`, then `a += PGSIZE`. -/
def nextTable (a : Nat) : Nat :=
  ((PGADDR (PDX a + 1) 0 0 + (2 ^ 32 - PGSIZE)) % 2 ^ 32 + PGSIZE) % 2 ^ 32

/-- The page-by-page loop has no jump: `a += PGSIZE`. -/
def nextPage (a : Nat) : Nat := (a + PGSIZE) % 2 ^ 32

/-- Both loops, once the entries to visit are known. -/
def unmapAll (p : Nat) : List PtePtr → K Unit
  | [] => pure ()
  | pte :: rest => do
    unmapPte p pte
    unmapAll p rest

/-- The present entries of `n` pages from `v` on, in order. -/
def presentSlots (s : Kernel) (d : Nat) : Nat → Nat → List PtePtr
  | _, 0 => []
  | v, n + 1 =>
    match pteSlot s d v with
    | some ptr =>
      if has (pteAt s ptr) PTE_P then ptr :: presentSlots s d (v + 1) n
      else presentSlots s d (v + 1) n
    | none => presentSlots s d (v + 1) n

omit [KernelImage] in
theorem mem_presentSlots {n : Nat} : ∀ {v : Nat}, ptr ∈ presentSlots s d v n ↔
    ∃ u, v ≤ u ∧ u < v + n ∧ pteSlot s d u = some ptr ∧ has (pteAt s ptr) PTE_P = true := by
  induction n with
  | zero =>
    intro v
    rw [presentSlots]
    constructor
    · intro h
      cases h
    · rintro ⟨u, hlo, hhi, -⟩
      omega
  | succ n ih =>
    intro v
    have hrest : ptr ∈ presentSlots s d (v + 1) n ↔ ∃ u, v ≤ u ∧ u < v + (n + 1) ∧ u ≠ v ∧
        pteSlot s d u = some ptr ∧ has (pteAt s ptr) PTE_P = true := by grind
    have hstep : ptr ∈ presentSlots s d v (n + 1) ↔
        (pteSlot s d v = some ptr ∧ has (pteAt s ptr) PTE_P = true) ∨
          ptr ∈ presentSlots s d (v + 1) n := by
      rw [presentSlots]
      cases hslot : pteSlot s d v with
      | none => simp
      | some q => grind
    rw [hstep, hrest]
    constructor
    · grind
    · grind

omit [KernelImage] in
theorem nodup_presentSlots (hT : TableInv own s) (hd : own d = .dir) {n : Nat} :
    ∀ {v : Nat}, v + n ≤ 2 ^ 20 → (presentSlots s d v n).Nodup := by
  induction n with
  | zero =>
    intro v _
    exact List.nodup_nil
  | succ n ih =>
    intro v hle
    have hrest := ih (v := v + 1) (by omega)
    rw [presentSlots]
    cases hslot : pteSlot s d v with
    | none => exact hrest
    | some ptr =>
      dsimp only
      split
      · apply List.nodup_cons.2
        constructor
        · intro hmem
          obtain ⟨u, hlo, hhi, hu, -⟩ := mem_presentSlots.1 hmem
          have huv := (hT.slot_inj hd hd (by omega) (by omega) hslot hu).2
          omega
        · exact hrest
      · exact hrest

omit [KernelImage] in
theorem presentSlots_congr {n : Nat} : ∀ {v : Nat},
    (∀ u, v ≤ u → u < v + n → pteSlot s' d u = pteSlot s d u ∧ pteOf s' d u = pteOf s d u) →
    presentSlots s' d v n = presentSlots s d v n := by
  induction n with
  | zero =>
    intro v _
    rfl
  | succ n ih =>
    intro v hsame
    obtain ⟨hslot, hpte⟩ := hsame v (Nat.le_refl v) (by omega)
    rw [presentSlots, presentSlots, hslot, ih fun u hlo hhi => hsame u (by omega) (by omega)]
    cases hs : pteSlot s d v with
    | none => rfl
    | some ptr => grind [pteOf_of_slot, Option.some.injEq]

omit [KernelImage] in
theorem presentSlots_missing (hnone : tableOf s d (v / 1024) = none) (hi : Nat) {n : Nat} :
    ∀ {u : Nat}, v / 1024 * 1024 ≤ u → u + n ≤ (v / 1024 + 1) * 1024 →
      presentSlots s d u (hi - u) = presentSlots s d (u + n) (hi - (u + n)) := by
  induction n with
  | zero =>
    intro u _ _
    rfl
  | succ n ih =>
    intro u hlo hend
    have hslot : pteSlot s d u = none := by
      rw [pteSlot, show u / 1024 = v / 1024 by omega, hnone]
      rfl
    have hrest := ih (u := u + 1) (by omega) (by omega)
    rw [show u + 1 + n = u + (n + 1) by omega] at hrest
    rw [← hrest]
    cases hk : hi - u with
    | zero => rw [show hi - (u + 1) = 0 by omega, presentSlots, presentSlots]
    | succ k => rw [show hi - (u + 1) = k by omega, presentSlots, hslot]

section

variable {mode : Mode} {att : Attach} {p oldsz : Nat}

theorem unmapPte_visit (h : Inv mode own att s) (hd : own d = .dir) (hv : v < UPAGES)
    (hslot : pteSlot s d v = some ptr) (hdet : ∀ p z, att p ≠ some (d, z)) :
    ∃ own1 s1, unmapPte p ptr s = .ok ((), s1) ∧ Inv mode own1 att s1 ∧ own1 d = .dir ∧
      ∀ u, u < 2 ^ 20 → u ≠ v → pteSlot s1 d u = pteSlot s d u ∧ pteOf s1 d u = pteOf s d u := by
  obtain ⟨_, s1, hok, own1, hinv, hun, -⟩ :=
    exists_ok_of_wp (unmapPte_spec (E := fun _ => False) h hd hv hslot hdet p)
  refine ⟨own1, s1, hok, hinv, ?_, fun u hu hne => ⟨hun.slot hd u, ?_⟩⟩
  · rw [hun.same (by rw [hd]; simp), hd]
  · exact (hun.pte u hu).resolve_right fun hX => hne hX.1.1

omit [KernelImage] in
/-- The jump stays on page boundaries, goes forward and does not leave the table. -/
structure JumpOk (jump : Nat → Nat) : Prop where
  next : ∀ v, v < UPAGES → ∃ n, jump (v * PGSIZE) = (v + 1 + n) * PGSIZE ∧
    v + 1 + n ≤ (v / 1024 + 1) * 1024

omit [KernelImage] in
theorem jumpOk_nextTable : JumpOk nextTable := by
  refine ⟨fun v hv => ⟨(v / 1024 + 1) * 1024 - (v + 1), ?_, by omega⟩⟩
  simp only [UPAGES, KERNBASE, PGSIZE] at hv
  simp only [nextTable, PGADDR, PDX, PGSIZE]
  omega

omit [KernelImage] in
theorem jumpOk_nextPage : JumpOk nextPage := by
  refine ⟨fun v hv => ⟨0, ?_, by omega⟩⟩
  simp only [UPAGES, KERNBASE, PGSIZE] at hv
  simp only [nextPage, PGSIZE]
  omega

theorem unmapPte_absent (hp : has (pteAt s ptr) PTE_P = false) :
    unmapPte p ptr s = .ok ((), s) := by
  have hwp : wp (unmapPte p ptr) s (fun _ s' => s' = s) fun _ => False := by
    unfold unmapPte
    rw [wp_bind, wp_loadPte, hp]
    exact rfl
  obtain ⟨_, _, hok, rfl⟩ := exists_ok_of_wp hwp
  exact hok

/-- Whatever the jump, the loop visits the present entries from page `v` on. -/
theorem deallocWith_visits {jump : Nat → Nat} (hjump : JumpOk jump) (hold : oldsz ≤ KERNBASE)
    (hdet : ∀ p z, att p ≠ some (d, z)) {fuel : Nat} :
    ∀ {s : Kernel} {own : Owners} {v : Nat}, Inv mode own att s → own d = .dir →
      pagesOf oldsz ≤ v + fuel →
      wp (deallocWith jump d p oldsz (fuel + 1) (v * PGSIZE)) s (fun visited s' =>
        visited = presentSlots s d v (pagesOf oldsz - v) ∧
        unmapAll p visited s = .ok ((), s')) fun _ => False := by
  have hup : pagesOf oldsz ≤ UPAGES := by
    simp only [pagesOf, PGROUNDUP, PGSIZE, UPAGES, KERNBASE] at hold ⊢
    omega
  induction fuel with
  | zero =>
    intro s own v h hd hle
    rw [deallocWith, if_neg fun hlt => by rw [lt_pagesOf] at hlt; omega,
      show pagesOf oldsz - v = 0 by omega]
    exact ⟨rfl, rfl⟩
  | succ fuel ih =>
    intro s own v h hd hle
    rw [deallocWith]
    by_cases hlt : v * PGSIZE < oldsz
    swap
    · rw [if_neg hlt]
      rw [lt_pagesOf] at hlt
      rw [show pagesOf oldsz - v = 0 by omega]
      exact ⟨rfl, rfl⟩
    rw [if_pos hlt]
    rw [lt_pagesOf] at hlt
    have hv : v < UPAGES := by omega
    obtain ⟨k, hk⟩ : ∃ k, pagesOf oldsz - v = k + 1 := ⟨pagesOf oldsz - (v + 1), by omega⟩
    have hk' : pagesOf oldsz - (v + 1) = k := by omega
    have hnext : (v * PGSIZE + PGSIZE) % 2 ^ 32 = (v + 1) * PGSIZE := by
      have hlt' : (v + 1) * 4096 < 2 ^ 32 := by
        simp only [UPAGES, KERNBASE, PGSIZE] at hv
        omega
      simp only [PGSIZE]
      omega
    rw [wp_bind, h.walk hd (mul_PGSIZE_lt (upages_lt hv)), mul_PGSIZE_div]
    cases hslot : pteSlot s d v with
    | none =>
      -- the pages that are jumped over lie in the missing table
      have htab : tableOf s d (v / 1024) = none := Option.map_eq_none_iff.1 hslot
      obtain ⟨n, hj, hend⟩ := hjump.next v hv
      have hskip := presentSlots_missing htab (pagesOf oldsz) (n := 1 + n) (u := v)
        (by omega) (by omega)
      rw [show v + (1 + n) = v + 1 + n by omega] at hskip
      rw [hskip]
      dsimp only
      rw [hj]
      exact ih h hd (by omega)
    | some ptr =>
      rw [hk, presentSlots, hslot]
      simp only [wp_bind, wp_loadPte]
      by_cases hp : has (pteAt s ptr) PTE_P = true
      · obtain ⟨own1, s1, hok, hinv, hd1, hsame⟩ := unmapPte_visit (p := p) h hd hv hslot hdet
        have hlist : presentSlots s1 d (v + 1) k = presentSlots s d (v + 1) k :=
          presentSlots_congr fun u hlo hhi => hsame u (upages_lt (by omega)) (by omega)
        have hrest := ih (v := v + 1) hinv hd1 (by omega)
        rw [wp_of_ok hok, hnext]
        refine wp_conseq hrest ?_
        rintro rest s' ⟨rfl, hall⟩
        rw [hk', hlist] at hall ⊢
        rw [if_pos hp]
        refine ⟨rfl, ?_⟩
        simp only [unmapAll, bind, StateT.bind, Except.bind, hok]
        exact hall
      · rw [wp_of_ok (unmapPte_absent (Bool.eq_false_of_not_eq_true hp)), hnext, if_neg hp]
        have hrest := ih (v := v + 1) h hd (by omega)
        rw [hk'] at hrest
        refine wp_conseq hrest ?_
        rintro rest s' hall
        rw [wp_pure, if_neg hp]
        exact hall

omit [KernelImage] in
/-- Below `KERNBASE` no address of the loop wraps around. -/
theorem next_below {a : Nat} (ha : a < KERNBASE) :
    nextTable a = PGADDR (PDX a + 1) 0 0 ∧ (a + PGSIZE) % 2 ^ 32 = a + PGSIZE := by
  simp only [KERNBASE] at ha
  simp only [nextTable, PGADDR, PDX, PGSIZE]
  omega

theorem deallocuvmLoop_of_visits (hold : oldsz ≤ KERNBASE) {fuel : Nat} :
    ∀ {s s' : Kernel} {a : Nat} {visited : List PtePtr},
      deallocWith nextTable d p oldsz (fuel + 1) a s = .ok (visited, s') →
      deallocuvmLoop d p oldsz fuel a s = .ok ((), s') := by
  induction fuel with
  | zero =>
    intro s s' a visited hrun
    rw [deallocWith] at hrun
    rw [deallocuvmLoop]
    by_cases ha : a < oldsz
    · -- one more turn is needed, and there is none
      rw [if_pos ha] at hrun
      obtain ⟨_ | ptr, s1, -, hrun⟩ := bind_eq_ok hrun
      · cases hrun
      · obtain ⟨w, s2, -, hrun⟩ := bind_eq_ok hrun
        obtain ⟨_, s3, -, hrun⟩ := bind_eq_ok hrun
        obtain ⟨rest, s4, hrest, -⟩ := bind_eq_ok hrun
        cases hrest
    · rw [if_neg ha] at hrun ⊢
      obtain ⟨-, rfl⟩ := Prod.mk.inj (Except.ok.inj hrun)
      rfl
  | succ fuel ih =>
    intro s s' a visited hrun
    rw [deallocWith] at hrun
    rw [deallocuvmLoop]
    by_cases ha : a < oldsz
    · obtain ⟨hjump, hnext⟩ := next_below (Nat.lt_of_lt_of_le ha hold)
      rw [if_pos ha] at hrun ⊢
      obtain ⟨_ | ptr, s1, hwalk, hrun⟩ := bind_eq_ok hrun
      · rw [bind_of_ok hwalk, ← hjump]
        exact ih hrun
      · obtain ⟨w, s2, hload, hrun⟩ := bind_eq_ok hrun
        obtain ⟨-, rfl⟩ := Prod.mk.inj (Except.ok.inj hload)
        obtain ⟨_, s3, hunmap, hrun⟩ := bind_eq_ok hrun
        obtain ⟨rest, s4, hrest, hrun⟩ := bind_eq_ok hrun
        obtain ⟨-, rfl⟩ := Prod.mk.inj (Except.ok.inj hrun)
        rw [bind_of_ok hwalk]
        dsimp only
        rw [bind_of_ok hunmap, ← hnext]
        exact ih hrest
    · rw [if_neg ha] at hrun ⊢
      obtain ⟨-, rfl⟩ := Prod.mk.inj (Except.ok.inj hrun)
      rfl

theorem Inv.detachDir (h : Inv mode own att s) (d : Nat) :
    ∃ mode' att', Inv mode' own att' s ∧ ∀ p z, att' p ≠ some (d, z) := by
  by_cases hatt : ∃ p z, att p = some (d, z)
  · obtain ⟨p, z, hp⟩ := hatt
    refine ⟨mode.lax, update att p none, h.detach p, ?_⟩
    intro q y hq
    by_cases hqp : q = p
    · grind
    · rw [update_of_ne hqp] at hq
      exact hqp (h.procs.inj q p d y z hq hp)
  · exact ⟨mode, att, h, fun p z hp => hatt ⟨p, z, hp⟩⟩

/-- All the loops visit the same entries and end in the same state, and they do not depend
    on the number of turns they are given. -/
theorem deallocWith_same (h : Inv mode own att s) (hd : own d = .dir) (hold : oldsz ≤ KERNBASE)
    (p newsz : Nat) :
    ∃ s', ∀ jump fuel, JumpOk jump → pagesOf oldsz < fuel →
      deallocWith jump d p oldsz fuel (PGROUNDUP newsz) s =
        .ok (presentSlots s d (pagesOf newsz) (pagesOf oldsz - pagesOf newsz), s') := by
  obtain ⟨mode', att', hinv, hdet⟩ := h.detachDir d
  have hstart : PGROUNDUP newsz = pagesOf newsz * PGSIZE := by
    simp only [pagesOf, PGROUNDUP, PGSIZE]
    omega
  have hrun : ∀ jump fuel, JumpOk jump → pagesOf oldsz < fuel → ∃ s',
      deallocWith jump d p oldsz fuel (PGROUNDUP newsz) s =
        .ok (presentSlots s d (pagesOf newsz) (pagesOf oldsz - pagesOf newsz), s') ∧
      unmapAll p (presentSlots s d (pagesOf newsz) (pagesOf oldsz - pagesOf newsz)) s =
        .ok ((), s') := by
    intro jump fuel hjump hfuel
    obtain ⟨turns, rfl⟩ := Nat.exists_eq_succ_of_ne_zero (Nat.ne_of_gt (Nat.zero_lt_of_lt hfuel))
    obtain ⟨_, s', hok, rfl, hall⟩ := exists_ok_of_wp
      (deallocWith_visits (p := p) (v := pagesOf newsz) hjump hold hdet hinv hd
        (show pagesOf oldsz ≤ pagesOf newsz + turns by omega))
    exact ⟨s', by rw [hstart]; exact hok, hall⟩
  obtain ⟨s', -, hall⟩ := hrun nextPage (pagesOf oldsz + 1) jumpOk_nextPage (by omega)
  refine ⟨s', fun jump fuel hjump hfuel => ?_⟩
  obtain ⟨s'', hok, hall'⟩ := hrun jump fuel hjump hfuel
  rw [hall] at hall'
  obtain ⟨-, rfl⟩ := Prod.mk.inj (Except.ok.inj hall')
  exact hok

end

/-! ### The map of a directory -/

omit [KernelImage] in
theorem frameOf_eq_div (w : Word) : frameOf w = w.toNat / PGSIZE := by
  apply Nat.eq_of_testBit_eq
  intro i
  have hshift : w.toNat / PGSIZE = w.toNat >>> 12 := by
    rw [Nat.shiftRight_eq_div_pow, PGSIZE]
  rw [testBit_frameOf, hshift, Nat.testBit_shiftRight, Nat.add_comm, BitVec.getLsbD]

omit [KernelImage] in
theorem frameOf_consecutive {pa perm : Word} (hperm : ∀ i, 12 ≤ i → perm.getLsbD i = false)
    (n : Nat) : frameOf ((pa + BitVec.ofNat 32 (n * PGSIZE)) ||| perm ||| PTE_P) =
      (frameOf pa + n) % 2 ^ 20 := by
  have hP : ∀ i, 12 ≤ i → PTE_P.getLsbD i = false := by grind [getLsbD_P]
  rw [frameOf_or_low hP, frameOf_or_low hperm, frameOf_eq_div, frameOf_eq_div, BitVec.toNat_add,
    BitVec.toNat_ofNat]
  have hpa := pa.isLt
  simp only [PGSIZE]
  omega

omit [KernelImage] in
theorem walkpgdirAlloc_page {evict : K Unit} {va' : Nat} (hva : va < 2 ^ 32) (hva' : va' < 2 ^ 32)
    (h : va' / PGSIZE = va / PGSIZE) :
    walkpgdirAlloc evict d va' = walkpgdirAlloc evict d va := by
  have hpdx : PDX va' = PDX va := by rw [PDX_eq hva', PDX_eq hva, h]
  have hptx : PTX va' = PTX va := by rw [PTX_eq, PTX_eq, h]
  unfold walkpgdirAlloc walkpgdir
  rw [hpdx, hptx]

theorem walkpgdirAlloc_ok (evict : K Unit) (h : Paged own s) (hd : own d = .dir)
    (hva : va < 2 ^ 32) (hsome : walkpgdirAlloc noEvict d va s ≠ .error .noEvict) :
    ∃ ptr own' s', walkpgdirAlloc evict d va s = .ok (some ptr, s') ∧
      pteSlot s' d (va / PGSIZE) = some ptr ∧ Extends own own' (fun _ _ => False) s s' := by
  have hwp := walkpgdirAlloc_flat h hd hva
  have hcautious := (cautious_noEvict evict).walkpgdirAlloc d va
  cases hrun : walkpgdirAlloc noEvict d va s with
  | error e => grind [wp_error]
  | ok x => grind [wp_ok, hcautious.ok]

/-- `mappages` over any range without wrap-around, as long as pages are free. -/
theorem mappages_ok (evict : K Unit) {size : Nat} {pa perm : Word} (h : Paged own s)
    (hd : own d = .dir) (hsize : 1 ≤ size) (hwrap : va + size ≤ 2 ^ 32)
    (hfree : ∀ v, va / PGSIZE ≤ v → v ≤ (va + size - 1) / PGSIZE →
      has (entry s d v) PTE_P = false)
    (hsome : mappages noEvict d va size pa perm s ≠ .error .noEvict) :
    ∃ own' s', mappages evict d va size pa perm s = .ok (0, s') ∧
      Extends own own' (fun e u => e = d ∧ va / PGSIZE ≤ u ∧ u ≤ (va + size - 1) / PGSIZE) s s' ∧
      MapsRange s' d (va / PGSIZE) ((va + size - 1) / PGSIZE) pa perm := by
  have hcautious := (cautious_noEvict evict).mappages d va size pa perm
  have hfirst : PGROUNDDOWN va = va / PGSIZE * PGSIZE := rfl
  have hlast : PGROUNDDOWN ((va + size + (2 ^ 32 - 1)) % 2 ^ 32) =
      (va + size - 1) / PGSIZE * PGSIZE := by
    simp only [PGROUNDDOWN, PGSIZE]
    omega
  have hhi : (va + size - 1) / PGSIZE < 2 ^ 20 := by
    simp only [PGSIZE]
    omega
  have hle : va / PGSIZE ≤ (va + size - 1) / PGSIZE := Nat.div_le_div_right (by omega)
  generalize (va + size - 1) / PGSIZE = hi at *
  generalize va / PGSIZE = lo at *
  have hturns : (hi * PGSIZE + 2 ^ 32 - lo * PGSIZE) % 2 ^ 32 / PGSIZE = hi - lo := by
    simp only [PGSIZE]
    omega
  have hwp : wp (mappages noEvict d va size pa perm) s (fun r s' => r = 0 ∧ ∃ own',
      Extends own own' (fun e u => e = d ∧ lo ≤ u ∧ u ≤ hi) s s' ∧
      MapsRange s' d lo hi pa perm) fun e => e = .noEvict := by
    have hloop := mappagesLoop_flat perm (n := hi - lo) (v := lo) pa h hd
      (by omega) fun u hlo hhi' => hfree u hlo (by omega)
    rw [show lo + (hi - lo) = hi by omega] at hloop
    rw [mappages, hfirst, hlast, hturns]
    exact hloop
  cases hrun : mappages noEvict d va size pa perm s with
  | error e =>
    rw [wp_error hwp hrun] at hrun
    exact (hsome hrun).elim
  | ok x =>
    obtain ⟨r, s'⟩ := x
    obtain ⟨rfl, own', hext, hmaps⟩ := wp_ok hwp hrun
    exact ⟨own', s', hcautious.ok hrun, hext, hmaps⟩

theorem MapsRange.flat_eq {lo hi : Nat} {pa perm : Word} (hmaps : MapsRange s' d lo hi pa perm)
    (hext : Extends own own' (fun e u => e = d ∧ lo ≤ u ∧ u ≤ hi) s s') (hd : own d = .dir)
    (hv : v < 2 ^ 20) : flat s' d v =
      if lo ≤ v ∧ v ≤ hi then
        some ((pa + BitVec.ofNat 32 ((v - lo) * PGSIZE)) ||| perm ||| PTE_P)
      else flat s d v := by
  split
  · next hin =>
    rw [← hmaps v hin.1 hin.2]
    apply flat_of_ne_zero
    rw [hmaps v hin.1 hin.2]
    exact ne_zero_of_has (show has _ PTE_P = true by simp)
  · next hout => exact flat_congr (hext.entry d v hd hv fun hin => hout hin.2)

theorem walkpgdirAlloc_evict {mode : Mode} {keep : Bool} {evict : K Unit} {E : Halt → Prop}
    (h : Inv mode own (attachOf s) s) (hev : EvictOk mode keep evict E) (hd : own d = .dir)
    (hva : va < 2 ^ 32) :
    wp (walkpgdirAlloc evict d va) s (fun r s' => ∃ ptr, r = some ptr ∧
      pteSlot s' d (va / PGSIZE) = some ptr ∧ ∀ v, v < 2 ^ 20 →
        has (entry s' d v) PTE_P = true → has (entry s d v) PTE_P = true) E := by
  refine wp_conseq (walkpgdirAlloc_spec (c := 0) h hd hva (.inr hev)) ?_
  rintro r s' ⟨ptr, own', hr, hwalk, -⟩
  refine ⟨ptr, hr, hwalk.slot, ?_⟩
  intro v hv hp
  by_cases hvictim : Evictable (Victims keep s) s d v (entry s d v)
  · exact hvictim.2.1
  · rw [← (hwalk.drift.entry_sim hd hv hvictim).present, hp]

/-- The operations on a directory, seen on its flat map. `noEvict` stops where the free list
    is empty; where it does not, every eviction routine gives the same run. -/
theorem tables_refine_flat (evict : K Unit) (h : Paged own s) (hd : own d = .dir) :
    (∀ va, va < 2 ^ 32 → walkpgdirAlloc noEvict d va s ≠ .error .noEvict →
      ∃ ptr own' s', walkpgdirAlloc evict d va s = .ok (some ptr, s') ∧
        Paged own' s' ∧ own' d = .dir ∧ (∀ v, v < 2 ^ 20 → flat s' d v = flat s d v) ∧
        (∀ va', va' < 2 ^ 32 → va' / PGSIZE = va / PGSIZE →
          walkpgdirAlloc evict d va' s = .ok (some ptr, s') ∧
          walkpgdirAlloc evict d va' s' = .ok (some ptr, s')) ∧
        ∀ va', va' < 2 ^ 32 → va' / PGSIZE ≠ va / PGSIZE →
          walkpgdirAlloc noEvict d va' s' ≠ .error .noEvict →
          ∃ ptr' s'', walkpgdirAlloc evict d va' s' = .ok (some ptr', s'') ∧ ptr' ≠ ptr) ∧
    (∀ mode keep E va, Inv mode own (attachOf s) s → EvictOk mode keep evict E → va < 2 ^ 32 →
      wp (walkpgdirAlloc evict d va) s (fun r s' => ∃ ptr, r = some ptr ∧
        pteSlot s' d (va / PGSIZE) = some ptr ∧ ∀ v, v < 2 ^ 20 →
          has (entry s' d v) PTE_P = true → has (entry s d v) PTE_P = true) E) ∧
    (∀ va size pa perm fuel, 1 ≤ size → va + size ≤ 2 ^ 32 → 2 ^ 20 ≤ fuel →
      (∀ v, va / PGSIZE ≤ v → v ≤ (va + size - 1) / PGSIZE → has (entry s d v) PTE_P = false) →
      mappages noEvict d va size pa perm s ≠ .error .noEvict →
      ∃ own' s', mappagesFor evict d (PGROUNDDOWN ((va + size + (2 ^ 32 - 1)) % 2 ^ 32)) perm fuel
          (PGROUNDDOWN va) pa s = .ok (0, s') ∧
        mappages evict d va size pa perm s = .ok (0, s') ∧ Paged own' s' ∧ own' d = .dir ∧
        ∀ v, v < 2 ^ 20 →
          (flat s' d v = if va / PGSIZE ≤ v ∧ v ≤ (va + size - 1) / PGSIZE then
            some ((pa + BitVec.ofNat 32 ((v - va / PGSIZE) * PGSIZE)) ||| perm ||| PTE_P)
            else flat s d v) ∧
          (va / PGSIZE ≤ v → v ≤ (va + size - 1) / PGSIZE →
            (∀ i, 12 ≤ i → perm.getLsbD i = false) →
            frameOf (entry s' d v) = (frameOf pa + (v - va / PGSIZE)) % 2 ^ 20)) ∧
    ∀ mode att p newsz oldsz fuel, Inv mode own att s → newsz < oldsz → oldsz ≤ KERNBASE →
      pagesOf oldsz < fuel →
      ∃ visited s', deallocWith nextTable d p oldsz fuel (PGROUNDUP newsz) s = .ok (visited, s') ∧
        deallocWith nextPage d p oldsz fuel (PGROUNDUP newsz) s = .ok (visited, s') ∧
        deallocuvm2 d oldsz newsz p s = .ok (newsz, s') ∧ visited.Nodup ∧
        ∀ ptr, ptr ∈ visited ↔ ∃ v, newsz ≤ v * PGSIZE ∧ v * PGSIZE < oldsz ∧
          pteSlot s d v = some ptr ∧ has (pteAt s ptr) PTE_P = true := by
  refine ⟨?_, fun _ _ _ va hinv hev hva => walkpgdirAlloc_evict hinv hev hd hva, ?_, ?_⟩
  · intro va hva hsome
    obtain ⟨ptr, own', s', hrun, hslot, hext⟩ := walkpgdirAlloc_ok evict h hd hva hsome
    have hd' := hext.dir d hd
    refine ⟨ptr, own', s', hrun, hext.paged, hd', ?_, ?_, ?_⟩
    · intro v hv
      exact flat_congr (hext.entry d v hd hv id)
    · intro va' hva' hpage
      constructor
      · rw [walkpgdirAlloc_page hva hva' hpage, hrun]
      · exact walkpgdirAlloc_of_slot hext.paged hd' hva' (by rw [hpage, hslot])
    · intro va' hva' hpage hsome'
      obtain ⟨ptr', own'', s'', hrun', hslot', hext'⟩ :=
        walkpgdirAlloc_ok evict hext.paged hd' hva' hsome'
      refine ⟨ptr', s'', hrun', ?_⟩
      rintro rfl
      have hlt : va / PGSIZE < 2 ^ 20 := by
        simp only [PGSIZE]
        omega
      have hlt' : va' / PGSIZE < 2 ^ 20 := by
        simp only [PGSIZE]
        omega
      have hd'' := hext'.dir d hd'
      exact hpage (hext'.paged.tables.slot_inj hd'' hd'' hlt' hlt hslot'
        (hext'.slot d _ ptr' hd' hlt hslot)).2
  · intro va size pa perm fuel hsize hwrap hfuel hfree hsome
    obtain ⟨own', s', hrun, hext, hmaps⟩ :=
      mappages_ok evict h hd hsize hwrap hfree hsome
    have hfor := mappagesFor_stops (d := d) evict size pa perm s (show va < 2 ^ 32 by omega) hfuel
    refine ⟨own', s', hfor.trans hrun, hrun, hext.paged, hext.dir d hd, ?_⟩
    intro v hv
    refine ⟨hmaps.flat_eq hext hd hv, ?_⟩
    intro hlo hhi hperm
    rw [hmaps v hlo hhi, frameOf_consecutive hperm]
  · intro mode att p newsz oldsz fuel hinv hlt hold hfuel
    obtain ⟨s', hrun⟩ := deallocWith_same hinv hd hold p newsz
    have hloop := deallocuvmLoop_of_visits hold
      (hrun nextTable _ jumpOk_nextTable (Nat.lt_succ_self _))
    refine ⟨_, s', hrun nextTable fuel jumpOk_nextTable hfuel,
      hrun nextPage fuel jumpOk_nextPage hfuel, ?_, ?_, ?_⟩
    · rw [deallocuvm2, if_neg (by omega), bind_of_ok hloop]
      rfl
    · apply nodup_presentSlots h.tables hd
      simp only [pagesOf, PGROUNDUP, PGSIZE, KERNBASE] at hold ⊢
      omega
    · intro ptr
      rw [mem_presentSlots]
      constructor
      · rintro ⟨v, hlo, hhi, hv⟩
        refine ⟨v, ?_, ?_, hv⟩
        · exact Nat.le_of_not_lt fun hx => absurd (lt_pagesOf.1 hx) (Nat.not_lt.2 hlo)
        · exact lt_pagesOf.2 (by omega)
      · rintro ⟨v, hlo, hhi, hv⟩
        have hhi' := lt_pagesOf.1 hhi
        refine ⟨v, ?_, by omega, hv⟩
        exact Nat.le_of_not_lt fun hx => absurd (lt_pagesOf.2 hx) (Nat.not_lt.2 hlo)

/-- A kernel with the directory 500, which has no table yet, and the free page 501. -/
def bareDir : Kernel :=
  { mem := fun _ _ => 0, freelist := [501], numFreePages := 1
    rmap := fun _ => ⟨0, fun _ => ⟨0, 0⟩, fun _ => false⟩
    swaparray := fun _ => ⟨0, true, fun _ => ⟨0, 0⟩, fun _ => 0, 0⟩
    disk := fun _ _ => 0
    proc := fun _ => ⟨0, 0, 0, 0, .unused, 0, none, false⟩
    nextpid := 1, initproc := none, cur := 0 }

def bareOwners : Owners := fun f => if f = 500 then .dir else if f = 501 then .free else .unmanaged

omit [KernelImage] in
theorem bareOwners_cases (f : Nat) :
    (f = 500 ∧ bareOwners f = .dir) ∨ (f = 501 ∧ bareOwners f = .free) ∨
      (f ≠ 500 ∧ f ≠ 501 ∧ bareOwners f = .unmanaged) := by grind [bareOwners]

omit [KernelImage] in
theorem bareDir_paged : @Paged KernelImage.sample bareOwners bareDir := by
  let _ := KernelImage.sample
  refine ⟨⟨List.nodup_singleton 501, fun f => ?_, fun f hf => ?_⟩,
    ⟨fun e i t he hi => ?_, fun e i t ht => ?_⟩⟩
  · grind [bareOwners_cases, bareDir]
  · rcases bareOwners_cases f with ⟨rfl, -⟩ | ⟨rfl, -⟩ | ⟨-, -, h⟩
    · decide
    · decide
    · exact (hf h).elim
  · have hnone : tableOf bareDir e i = none := by
      simp only [tableOf, bareDir, ldw_zero, has_zero]
      rfl
    rw [hnone]
    rcases bareOwners_cases t with ⟨-, h⟩ | ⟨-, h⟩ | ⟨-, -, h⟩ <;> simp [h]
  · rcases bareOwners_cases t with ⟨-, h⟩ | ⟨-, h⟩ | ⟨-, -, h⟩ <;> simp [h] at ht

omit [KernelImage] in
theorem tables_refine_flat_one :
    ∃ s', mappages noEvict 500 0 1 0 (PTE_W ||| PTE_U) bareDir = .ok (0, s') ∧
      flat s' 500 0 = some (PTE_W ||| PTE_U ||| PTE_P) ∧ flat s' 500 1 = none := by
  let _ := KernelImage.sample
  have hzero : ∀ v, entry bareDir 500 v = 0 := by
    intro v
    apply entry_of_none
    rw [pteOf_none_iff, tableOf]
    simp only [bareDir, ldw_zero, has_zero]
    rfl
  obtain ⟨-, -, hmap, -⟩ := tables_refine_flat noEvict bareDir_paged (d := 500) rfl
  obtain ⟨_, s', -, hrun, -, -, hflat⟩ := hmap 0 1 0 (PTE_W ||| PTE_U) (2 ^ 20) (by decide)
    (by decide) (Nat.le_refl _) (fun v _ _ => by rw [hzero, has_zero]) fun hstop => by cases hstop
  refine ⟨s', hrun, ?_, ?_⟩
  · rw [(hflat 0 (by decide)).1, if_pos (by decide)]
    decide
  · rw [(hflat 1 (by decide)).1, if_neg (by decide), flat, hzero, if_pos rfl]

end CowPaging
