import CowPaging.MapSteps

/-!
# Page tables and directories

`Inv` when a directory gets a new page table, when a zeroed page becomes a
directory, and when a directory that maps no user page any more is given up: the
directory and its tables turn into held pages, which `freevm` then frees one by
one.
-/

namespace CowPaging

open Bytes StateExcept SlotTable
open Function (update_of_ne update_self update)

variable {own own' : Owners} {att : Attach} {s s' : Kernel}

/-! ### A new table -/

/-- Directory `d` has the zeroed page `f` as its table `i`; nothing else changed. -/
structure NewTable (own : Owners) (d i f : Nat) (s s' : Kernel) : Prop where
  missing : tableOf s d i = none
  table : ∀ d' j, own d' = .dir → j < 1024 →
    tableOf s' d' j = if d' = d ∧ j = i then some f else tableOf s d' j
  zero : ∀ v, v < 2 ^ 20 → v / 1024 = i → pteOf s' d v = some 0
  pte : ∀ d' v w, own d' = .dir → v < 2 ^ 20 → pteOf s d' v = some w → pteOf s' d' v = some w

theorem tableOf_storeWord_self {d i : Nat} {pde : Word} (hp : has pde PTE_P = true) :
    tableOf (s.storeWord d i pde) d i = some (frameOf pde) := by
  simp only [tableOf, Kernel.storeWord, Kernel.setPage, update_self, ldw_stw_self,
    if_pos hp]

theorem newTable_of_store {d i f : Nat} {pde : Word} (hT : TableInv own s) (hd : own d = .dir)
    (hi : i < 1024) (hheld : own f = .held) (hnone : tableOf s d i = none)
    (hp : has pde PTE_P = true) (hf : frameOf pde = f) :
    NewTable own d i f s ((s.setPage f fun _ => 0).storeWord d i pde) := by
  have hfd : f ≠ d := by grind
  have hmem : ∀ g, g ≠ f → g ≠ d →
      ((s.setPage f fun _ => 0).storeWord d i pde).mem g = s.mem g := by
    intro g hgf hgd
    simp only [Kernel.storeWord, Kernel.setPage, update_of_ne hgd,
      update_of_ne hgf]
  have hmemd : ((s.setPage f fun _ => 0).storeWord d i pde).mem d = stw (s.mem d) i pde := by
    simp only [Kernel.storeWord, Kernel.setPage, update_self,
      update_of_ne hfd.symm]
  have hmemf : ((s.setPage f fun _ => 0).storeWord d i pde).mem f = fun _ => 0 := by
    simp only [Kernel.storeWord, Kernel.setPage, update_of_ne hfd, update_self]
  have htable : ∀ d' j, own d' = .dir → j < 1024 →
      tableOf ((s.setPage f fun _ => 0).storeWord d i pde) d' j =
        if d' = d ∧ j = i then some f else tableOf s d' j := by
    intro d' j hd' _
    by_cases hdd : d' = d
    · subst hdd
      by_cases hji : j = i
      · subst hji
        rw [tableOf_storeWord_self hp, if_pos ⟨rfl, rfl⟩, hf]
      · rw [if_neg (fun h => hji h.2), tableOf, tableOf, hmemd, ldw_stw_ne _ _ hji]
    · grind [tableOf]
  refine ⟨hnone, htable, ?_, ?_⟩
  · intro v hv hvi
    have hslot : pteSlot ((s.setPage f fun _ => 0).storeWord d i pde) d v =
        some ⟨f, v % 1024⟩ := by
      rw [pteSlot_eq_some, htable d _ hd (by omega), if_pos ⟨rfl, hvi⟩]
      exact ⟨rfl, rfl⟩
    rw [pteOf_of_slot hslot, pteAt, hmemf, ldw_zero]
  · intro d' v w hd' hv hw
    obtain ⟨ptr, hslot, hat⟩ := pteOf_eq_some.1 hw
    have howner := hT.slot_owner hd' hv hslot
    have hne : ¬ (d' = d ∧ v / 1024 = i) := by
      rintro ⟨rfl, rfl⟩
      rw [(pteSlot_eq_some.1 hslot).1] at hnone
      exact Option.some_ne_none _ hnone
    have hslot' : pteSlot ((s.setPage f fun _ => 0).storeWord d i pde) d' v = some ptr := by
      rw [pteSlot_eq_some, htable d' _ hd' (by omega), if_neg hne]
      exact pteSlot_eq_some.1 hslot
    have hmemt : ((s.setPage f fun _ => 0).storeWord d i pde).mem ptr.table =
        s.mem ptr.table := by grind
    rw [pteOf_of_slot hslot', pteAt, hmemt, ← hat, pteAt]

theorem NewTable.slot {d i f : Nat} (hnt : NewTable own d i f s s') {d' v : Nat}
    {ptr : PtePtr} (hd' : own d' = .dir) (hv : v < 2 ^ 20)
    (hslot : pteSlot s d' v = some ptr) : pteSlot s' d' v = some ptr := by
  have hne : ¬ (d' = d ∧ v / 1024 = i) := by
    rintro ⟨rfl, rfl⟩
    have hnone := hnt.missing
    rw [(pteSlot_eq_some.1 hslot).1] at hnone
    exact Option.some_ne_none _ hnone
  rw [pteSlot_eq_some, hnt.table d' _ hd' (by omega), if_neg hne]
  exact pteSlot_eq_some.1 hslot

theorem NewTable.pte_none {d i f : Nat} (hnt : NewTable own d i f s s') {d' v : Nat}
    (hd' : own d' = .dir) (hv : v < 2 ^ 20) (hold : pteOf s d' v = none) :
    pteOf s' d' v = none ∨ pteOf s' d' v = some 0 := by
  by_cases heq : d' = d ∧ v / 1024 = i
  · obtain ⟨rfl, hvi⟩ := heq
    exact .inr (hnt.zero v hv hvi)
  · left
    rw [pteOf_none_iff, hnt.table d' _ hd' (by omega), if_neg heq]
    exact pteOf_none_iff.1 hold

theorem NewTable.pte_old {d i f : Nat} (hnt : NewTable own d i f s s') {d' v : Nat} {w : Word}
    (hd' : own d' = .dir) (hv : v < 2 ^ 20) (hw : pteOf s' d' v = some w) (hne : w ≠ 0) :
    pteOf s d' v = some w := by
  cases hold : pteOf s d' v with
  | none =>
    rcases hnt.pte_none hd' hv hold with h | h
    · rw [hw] at h
      cases h
    · rw [hw] at h
      exact (hne (Option.some.inj h)).elim
  | some w' =>
    have := hnt.pte d' v w' hd' hv hold
    rw [hw] at this
    exact this.symm

theorem ne_zero_of_has {w flag : Word} (h : has w flag = true) : w ≠ 0 := by
  rintro rfl
  rw [has_zero] at h
  cases h

theorem NewTable.tableInv {d i f : Nat} (hnt : NewTable own d i f s s') (hT : TableInv own s)
    (hheld : own f = .held) (hd : own d = .dir) (hi : i < 1024) :
    TableInv (update own f (.tab d i)) s' := by
  have hdir : ∀ d', update own f (.tab d i) d' = .dir → own d' = .dir ∧ d' ≠ f := by grind
  refine ⟨fun d' j t hd' hj => ?_, fun d' j t ht => ?_⟩
  · rw [hnt.table d' j (hdir d' hd').1 hj]
    by_cases htf : t = f
    · grind [Function.update_apply, hT.tab_iff, Owner.tab.injEq]
    · rw [update_of_ne htf]
      by_cases heq : d' = d ∧ j = i
      · grind [hT.tab_iff, hnt.missing]
      · grind [hT.tab_iff]
  · by_cases htf : t = f
    · grind
    · rw [update_of_ne htf] at ht
      obtain ⟨hd', hj⟩ := hT.tab_dir d' j t ht
      have hne : d' ≠ f := by grind
      rw [update_of_ne hne]
      exact ⟨hd', hj⟩

theorem NewTable.upte {d i f : Nat} (hnt : NewTable own d i f s s') (hheld : own f = .held)
    {d' v : Nat} {w : Word} (hne : w ≠ 0) :
    Upte (update own f (.tab d i)) s' d' v w ↔ Upte own s d' v w := by
  have hdir : update own f (.tab d i) d' = .dir ↔ own d' = .dir := by
    by_cases h : d' = f
    · subst h
      rw [update_self, hheld]
      simp
    · rw [update_of_ne h]
  constructor
  · rintro ⟨hd', hv, hw⟩
    rw [hdir] at hd'
    exact ⟨hd', hv, hnt.pte_old hd' (upages_lt hv) hw hne⟩
  · rintro ⟨hd', hv, hw⟩
    exact ⟨hdir.2 hd', hv, hnt.pte d' v w hd' (upages_lt hv) hw⟩

theorem NewTable.mapInv {d i f : Nat} (hnt : NewTable own d i f s s') (h : MapInv own s)
    (hheld : own f = .held) (hrmap : s'.rmap = s.rmap) :
    MapInv (update own f (.tab d i)) s' := by
  refine h.of_upte (fun d' v w hp => hnt.upte hheld (ne_zero_of_has hp))
    (fun d' v ptr hd' hv => hnt.slot hd' (upages_lt hv)) ?_ ?_ hrmap
  · grind
  · intro d' v w hd' hlo hhi hw
    by_cases hzero : w = 0
    · rw [hzero, has_zero]
    · have hd'' : own d' = .dir := by
        by_cases hf : d' = f
        · subst hf
          rw [update_self] at hd'
          cases hd'
        · rwa [update_of_ne hf] at hd'
      exact h.kern d' v w hd'' hlo hhi (hnt.pte_old hd'' hhi hw hzero)

theorem NewTable.procInv {d i f : Nat} (hnt : NewTable own d i f s s') (h : ProcInv own att s)
    (hheld : own f = .held) (hslots : s'.swaparray = s.swaparray) :
    ProcInv (update own f (.tab d i)) att s' := by
  have hdir : ∀ d', own d' = .dir → update own f (.tab d i) d' = .dir := by grind
  refine ⟨fun p d' z hatt => hdir d' (h.dir p d' z hatt), h.inj, h.size, ?_, ?_, ?_⟩
  · intro p d' z v hatt hv
    obtain ⟨w, hw, hcase⟩ := h.page p d' z v hatt hv
    have hup : v < UPAGES := Tracked.upages h ⟨p, z, hatt, hv⟩
    exact ⟨w, hnt.pte d' v w (h.dir p d' z hatt) (upages_lt hup) hw, hcase⟩
  · intro p d' z v w hatt hv hw hsw
    have hd' := h.dir p d' z hatt
    have hold := hnt.pte_old hd' (upages_lt hv) hw (ne_zero_of_has (swapped_flag hsw))
    have hrec := h.slot p d' z v w hatt hv hold hsw
    refine ⟨hrec.slot, ?_, ?_, ?_, ?_, ?_, ?_⟩ <;> rw [hslots]
    · exact hrec.busy
    · exact hrec.cnt
    · exact hnt.slot hd' (upages_lt hv) hrec.pte
    · exact hrec.proc
    · exact hrec.permP
    · exact hrec.permS
  · intro j hj hfree
    rw [hslots] at hfree ⊢
    exact h.slotFree j hj hfree

section

variable [KernelImage] {mode : Mode}

theorem Inv.newTable {d i f : Nat} (h : Inv mode own att s) (hnt : NewTable own d i f s s')
    (hheld : own f = .held) (hd : own d = .dir) (hi : i < 1024) (hrest : SameRest s s')
    (hrmap : s'.rmap = s.rmap) : Inv mode (update own f (.tab d i)) att s' where
  frames := (h.frames.update (by rw [hheld]; simp) (by rw [hheld]; simp) (by simp)).congr
    hrest.freelist
  tables := hnt.tableInv h.tables hheld hd hi
  maps := hnt.mapInv h.maps hheld hrmap
  procs := hnt.procInv h.procs hheld hrest.slots
  unshared hm n hn := by rw [hrmap]; exact h.unshared hm n hn
  idle := hrest.procs.idle h
  resident := h.resident_congr hrest.slots
  slots hm := by
    refine (h.slots hm).of_pte ?_ hrest.slots
    intro p d' z v w hatt hv hsw
    have hd' := h.procs.dir p d' z hatt
    exact ⟨fun hw => hnt.pte_old hd' (upages_lt hv) hw (ne_zero_of_has (swapped_flag hsw)),
      fun hw => hnt.pte d' v w hd' (upages_lt hv) hw⟩

end

/-! ### A new directory -/

theorem tableOf_zero (f i : Nat) : tableOf (s.setPage f fun _ => 0) f i = none := by
  simp only [tableOf, Kernel.setPage, update_self, ldw_zero, has_zero]
  rfl

section

variable {f : Nat}

theorem newDir_dir {d : Nat} :
    update own f .dir d = .dir ↔ d = f ∨ own d = .dir := by grind

theorem newDir_table (hheld : own f = .held) {d : Nat} (hd : own d = .dir) (i : Nat) :
    tableOf (s.setPage f fun _ => 0) d i = tableOf s d i :=
  (sameMaps_setPage (by rw [hheld]; exact id)).table hd

theorem newDir_pte (hT : TableInv own s) (hheld : own f = .held) {d v : Nat}
    (hd : own d = .dir) (hv : v < 2 ^ 20) :
    pteOf (s.setPage f fun _ => 0) d v = pteOf s d v :=
  (sameMaps_setPage (by rw [hheld]; exact id)).pte hT hd hv

theorem newDir_upte (hT : TableInv own s) (hheld : own f = .held) {d v : Nat} {w : Word} :
    Upte (update own f .dir) (s.setPage f fun _ => 0) d v w ↔ Upte own s d v w := by
  constructor
  · rintro ⟨hd, hv, hw⟩
    rcases newDir_dir.1 hd with rfl | hd
    · rw [pteOf_none_iff.2 (tableOf_zero d _)] at hw
      cases hw
    · exact ⟨hd, hv, by rw [← newDir_pte hT hheld hd (upages_lt hv)]; exact hw⟩
  · rintro ⟨hd, hv, hw⟩
    exact ⟨newDir_dir.2 (.inr hd), hv,
      by rw [newDir_pte hT hheld hd (upages_lt hv)]; exact hw⟩

theorem newDir_tableInv (h : TableInv own s) (hheld : own f = .held) :
    TableInv (update own f .dir) (s.setPage f fun _ => 0) := by
  have htab : ∀ t d i, update own f .dir t = .tab d i ↔ own t = .tab d i := by grind
  refine ⟨fun d i t hd hi => ?_, fun d i t ht => ?_⟩
  · rw [htab]
    rcases newDir_dir.1 hd with rfl | hd
    · grind [tableOf_zero, h.tab_dir]
    · rw [newDir_table hheld hd]
      exact h.tab_iff d i t hd hi
  · rw [htab] at ht
    obtain ⟨hd, hi⟩ := h.tab_dir d i t ht
    exact ⟨newDir_dir.2 (.inr hd), hi⟩

theorem newDir_mapInv (h : MapInv own s) (hT : TableInv own s) (hheld : own f = .held) :
    MapInv (update own f .dir) (s.setPage f fun _ => 0) := by
  refine h.of_upte (fun d v w _ => newDir_upte hT hheld) ?_ ?_ ?_ rfl
  · intro d v ptr hd _ hptr
    rw [pteSlot_congr (newDir_table hheld hd _), hptr]
  · grind
  · intro d v w hd hlo hhi hw
    rcases newDir_dir.1 hd with rfl | hd
    · rw [pteOf_none_iff.2 (tableOf_zero d _)] at hw
      cases hw
    · rw [newDir_pte hT hheld hd hhi] at hw
      exact h.kern d v w hd hlo hhi hw

variable [KernelImage] {mode : Mode}

theorem Inv.newDir (h : Inv mode own att s) (hheld : own f = .held) :
    Inv mode (update own f .dir) att (s.setPage f fun _ => 0) := by
  have hdir : ∀ d, own d = .dir → update own f .dir d = .dir :=
    fun d hd => newDir_dir.2 (.inr hd)
  have hpte : ∀ p d z v, att p = some (d, z) → v < UPAGES →
      pteOf (s.setPage f fun _ => 0) d v = pteOf s d v :=
    fun p d z v hatt hv => newDir_pte h.tables hheld (h.procs.dir p d z hatt) (upages_lt hv)
  refine ⟨?_, newDir_tableInv h.tables hheld, newDir_mapInv h.maps h.tables hheld, ?_,
    h.unshared, h.idle, h.resident, ?_⟩
  · exact (h.frames.update (by rw [hheld]; simp) (by rw [hheld]; simp) (by simp)).congr rfl
  · refine h.procs.of_pte hdir ?_ ?_ ?_ rfl
    · intro d v ptr hd hslot
      rw [pteSlot_congr (newDir_table hheld hd _), hslot]
    · grind
    · grind
  · intro hm
    refine (h.slots hm).of_pte ?_ rfl
    intro p d z v w hatt hv _
    rw [hpte p d z v hatt hv]

end

/-! ### Giving up a directory -/

/-- Directory `d` and its tables become held pages. -/
def dropDir (own : Owners) (d : Nat) : Owners := fun g =>
  if g = d then .held
  else match own g with
    | .tab d' i => if d' = d then .held else .tab d' i
    | o => o

theorem dropDir_other {d g : Nat} {o : Owner} (ho : o ≠ .held) (htab : ∀ e i, o ≠ .tab e i) :
    dropDir own d g = o ↔ own g = o ∧ g ≠ d := by grind [dropDir]

theorem dropDir_dir {d g : Nat} : dropDir own d g = .dir ↔ own g = .dir ∧ g ≠ d :=
  dropDir_other (by simp) (by simp)

theorem dropDir_same {d g : Nat} {o : Owner} (hd : own d = .dir) (ho : o ≠ .held)
    (htab : ∀ e i, o ≠ .tab e i) (hdir : o ≠ .dir) : dropDir own d g = o ↔ own g = o := by
  rw [dropDir_other ho htab]
  refine and_iff_left_of_imp ?_
  rintro h rfl
  exact hdir (h.symm.trans hd)

theorem dropDir_tab {d g d' i : Nat} (hd : own d = .dir) :
    dropDir own d g = .tab d' i ↔ own g = .tab d' i ∧ d' ≠ d := by
  unfold dropDir
  by_cases hg : g = d
  · subst hg
    simp [hd]
  · grind

theorem dropDir_held {d g : Nat} :
    dropDir own d g = .held ↔ g = d ∨ own g = .held ∨ ∃ i, own g = .tab d i := by grind [dropDir]

theorem Inv.dropDir [KernelImage] {mode : Mode} {d : Nat} (h : Inv mode own att s)
    (hd : own d = .dir) (hnone : ∀ v w, Upte own s d v w → has w PTE_P = false)
    (hdet : ∀ p z, att p ≠ some (d, z)) : Inv mode (dropDir own d) att s := by
  have hup : ∀ e v w, has w PTE_P = true →
      (Upte (CowPaging.dropDir own d) s e v w ↔ Upte own s e v w) := by
    intro e v w hp
    constructor
    · rintro ⟨he, hv, hw⟩
      exact ⟨(dropDir_dir.1 he).1, hv, hw⟩
    · intro hu
      refine ⟨dropDir_dir.2 ⟨hu.1, ?_⟩, hu.2⟩
      rintro rfl
      rw [hnone v w hu] at hp
      cases hp
  refine ⟨⟨h.frames.nodup, ?_, ?_⟩, ⟨?_, ?_⟩, ?_, ?_, h.unshared, h.idle, h.resident, h.slots⟩
  · intro f
    rw [h.frames.free_iff, dropDir_same hd (by simp) (by simp) (by simp)]
  · intro f hf
    rw [Ne, dropDir_same hd (by simp) (by simp) (by simp)] at hf
    exact h.frames.range f hf
  · intro e i t he hi
    obtain ⟨he, hne⟩ := dropDir_dir.1 he
    rw [dropDir_tab hd, h.tables.tab_iff e i t he hi]
    exact (and_iff_left hne).symm
  · intro e i t ht
    obtain ⟨ht, hne⟩ := (dropDir_tab hd).1 ht
    obtain ⟨he, hi⟩ := h.tables.tab_dir e i t ht
    exact ⟨dropDir_dir.2 ⟨he, hne⟩, hi⟩
  · exact h.maps.of_upte hup (fun _ _ _ _ _ hptr => hptr)
      (fun n => dropDir_same hd (by simp) (by simp) (by simp))
      (fun e v w he => h.maps.kern e v w (dropDir_dir.1 he).1) rfl
  · refine ⟨?_, h.procs.inj, h.procs.size, h.procs.page, h.procs.slot, h.procs.slotFree⟩
    intro p e z hatt
    refine dropDir_dir.2 ⟨h.procs.dir p e z hatt, ?_⟩
    rintro rfl
    exact hdet p z hatt

end CowPaging
