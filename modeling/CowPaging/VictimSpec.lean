import CowPaging.CopySpec

/-!
# Choosing a victim

`select_a_victim` reads page tables and clears accessed bits. `Aged` says what it
may have done: entries are the same up to a cleared accessed bit. The scan of
`make_acces_bit_0` does not look at the state of a process, so for a process-table
entry that was reaped it follows a stale directory and may hit any page; it still
writes only to a word that equals the entry of a user page, and such a word is
never a directory entry. In a `Clean` table there is no such entry.
-/

namespace CowPaging

open Bytes StateExcept SlotTable

variable [KernelImage] {mode : Mode} {E : Halt → Prop} {own : Owners} {s s' s1 s2 : Kernel}
  {d v p : Nat} {ptr orig : PtePtr}

/-! ### Accessed bits -/

structure Aged (mode : Mode) (own : Owners) (s s' : Kernel) : Prop where
  inv : Inv mode own (attachOf s) s'
  rest : SameRest s s'
  rmap : s'.rmap = s.rmap
  table : SameTables own s s'
  pte : ∀ d v w, own d = .dir → v < 2 ^ 20 → pteOf s d v = some w →
    ∃ w', pteOf s' d v = some w' ∧ PteSim w' w
  mem : Clean s → ∀ g, ¬ (own g).isMap → s'.mem g = s.mem g

theorem Aged.refl (h : Inv mode own (attachOf s) s) : Aged mode own s s :=
  ⟨h, SameRest.refl s, rfl, fun _ _ _ => rfl, fun _ _ w _ _ hw => ⟨w, hw, PteSim.refl w⟩,
    fun _ _ _ => rfl⟩

theorem Aged.trans (h : Aged mode own s s1) (h' : Aged mode own s1 s2) : Aged mode own s s2 where
  inv := by
    rw [← h.rest.procs.attach]
    exact h'.inv
  rest := h.rest.trans h'.rest
  rmap := h'.rmap.trans h.rmap
  table d i hd := (h'.table d i hd).trans (h.table d i hd)
  pte d v w hd hv hw := by
    obtain ⟨w1, hw1, hsim⟩ := h.pte d v w hd hv hw
    obtain ⟨w2, hw2, hsim2⟩ := h'.pte d v w1 hd hv hw1
    exact ⟨w2, hw2, hsim.trans hsim2⟩
  mem hclean g hg := (h'.mem (h.rest.procs.clean.2 hclean) g hg).trans (h.mem hclean g hg)

theorem Aged.next (h : Aged mode own s s') : Inv mode own (attachOf s') s' := by
  rw [h.rest.procs.attach]
  exact h.inv

theorem Aged.slot (h : Aged mode own s s') (hd : own d = .dir) :
    pteSlot s' d v = pteSlot s d v := pteSlot_congr (h.table d _ hd)

omit [KernelImage] in
theorem sameTarget_clearA (w : Word) : SameTarget (w &&& ~~~PTE_A) w :=
  sameTarget_of_bits fun _ _ h5 _ => clearA_bit w h5

theorem aged_table {i j : Nat} (h : Inv mode own (attachOf s) s) (hi : ptr.index < 1024)
    (hp : has (pteAt s ptr) PTE_P = true) (htab : own ptr.table = .tab i j) :
    Aged mode own s (s.storeWord ptr.table ptr.index (pteAt s ptr &&& ~~~PTE_A)) := by
  obtain ⟨hd, hj⟩ := h.tables.tab_dir i j _ htab
  have hv : j * 1024 + ptr.index < 2 ^ 20 := by omega
  have hslot : pteSlot s i (j * 1024 + ptr.index) = some ptr := by
    rw [pteSlot_eq_some, show (j * 1024 + ptr.index) / 1024 = j by omega]
    exact ⟨(h.tables.tab_iff i j _ hd hj).2 htab, by omega⟩
  have hpte := pteOf_of_slot hslot
  have hsim : PteSim (pteAt s ptr &&& ~~~PTE_A) (pteAt s ptr) := .inr ⟨hp, rfl⟩
  have ht := sameTarget_clearA (pteAt s ptr)
  generalize pteAt s ptr &&& ~~~PTE_A = x at hsim ht
  have hst := pteStore_storeWord h.tables hd hv hslot x
  refine ⟨?_, sameRest_storeWord _ _ _ _, rfl, hst.table, ?_, ?_⟩
  · by_cases hup : j * 1024 + ptr.index < UPAGES
    · refine (flags_step h hd hup hslot hp ht fun hW => ?_).1
      refine h.maps.writable _ _ _ ⟨hd, hup, hpte⟩ hp ?_
      rwa [has_W, hsim.bit (by decide), ← has_W] at hW
    · refine h.kernStore hst (not_lt.1 hup) ?_ (sameRest_storeWord _ _ _ _) rfl
      rw [ht.swap, h.maps.kern i _ _ hd (not_lt.1 hup) hv hpte]
  · grind [hst.pte, PteSim.refl]
  · intro _ g hg
    refine Function.update_of_ne ?_ _ _
    rintro rfl
    rw [htab] at hg
    exact hg trivial

theorem aged_clear (h : Inv mode own (attachOf s) s) (hi : ptr.index < 1024)
    (hp : has (pteAt s ptr) PTE_P = true) (huser : own (frameOf (pteAt s ptr)) = .user)
    (hmap : Clean s → (own ptr.table).isMap) :
    Aged mode own s (s.storeWord ptr.table ptr.index (pteAt s ptr &&& ~~~PTE_A)) := by
  by_cases hm : (own ptr.table).isMap
  · cases howner : own ptr.table with
    | tab i j => exact aged_table h hi hp howner
    | dir =>
      -- the entry of a table names a table, not user memory
      have htab := (h.tables.tab_iff ptr.table ptr.index (frameOf (pteAt s ptr)) howner hi).1
        (if_pos hp)
      rw [huser] at htab
      cases htab
    | _ =>
      rw [howner] at hm
      exact hm.elim
  · have hmaps : SameMaps own s
        (s.storeWord ptr.table ptr.index (pteAt s ptr &&& ~~~PTE_A)) := sameMaps_setPage hm
    refine ⟨h.setPage hm, sameRest_storeWord _ _ _ _, rfl, fun d i hd => hmaps.table hd, ?_,
      fun hclean => (hm (hmap hclean)).elim⟩
    intro d v w hd hv hw
    exact ⟨w, by rw [hmaps.pte h.tables hd hv, hw], PteSim.refl w⟩

/-! ### `make_acces_bit_0` -/

/-- The entry that the accessed bits are compared with: a present user page. -/
structure UserEntry (own : Owners) (s : Kernel) (ptr : PtePtr) : Prop where
  dir : ∃ d v, own d = .dir ∧ v < UPAGES ∧ pteSlot s d v = some ptr
  present : has (pteAt s ptr) PTE_P = true

theorem UserEntry.user (h : UserEntry own s ptr) (hinv : Inv mode own (attachOf s) s) :
    own (frameOf (pteAt s ptr)) = .user := by
  obtain ⟨d, v, hd, hv, hslot⟩ := h.dir
  exact (hinv.maps.user d v _ ⟨hd, hv, pteOf_of_slot hslot⟩ h.present).1

theorem UserEntry.aged (h : UserEntry own s ptr) (ha : Aged mode own s s') :
    UserEntry own s' ptr := by
  obtain ⟨d, v, hd, hv, hslot⟩ := h.dir
  obtain ⟨w', hw', hsim⟩ := ha.pte d v _ hd (upages_lt hv) (pteOf_of_slot hslot)
  have hslot' : pteSlot s' d v = some ptr := (ha.slot hd).trans hslot
  rw [pteOf_of_slot hslot'] at hw'
  refine ⟨⟨d, v, hd, hv, hslot'⟩, ?_⟩
  rw [Option.some.inj hw', hsim.present, h.present]

omit [KernelImage] in
theorem wp_walk_any {Q : Option PtePtr → Kernel → Prop} {va : Nat} (hE : E .wild)
    (hnone : Q none s) (hsome : ∀ q, q.index < 1024 → Q (some q) s) :
    wp (walkpgdir d va) s Q E := by
  unfold walkpgdir
  rw [wp_bind, wp_get]
  refine wp_ite (fun _ => wp_ite (fun _ => ?_) fun _ => hE) fun _ => hnone
  exact hsome _ (Nat.mod_lt _ (by decide))

/-- The directory `d` is scanned without harm: it is live and has the pages `u` with
    `lo ≤ u < hi`, or the table is not clean and the kernel may stop. -/
def Scannable (own : Owners) (E : Halt → Prop) (d lo hi : Nat) (s : Kernel) : Prop :=
  (own d = .dir ∧ hi ≤ UPAGES ∧ ∀ u, lo ≤ u → u < hi → ∃ q, pteSlot s d u = some q) ∨
    (¬ Clean s ∧ E .wild ∧ E (.panic .accesBit))

theorem Scannable.aged {lo hi : Nat} (h : Scannable own E d lo hi s) (ha : Aged mode own s s') :
    Scannable own E d (lo + 1) hi s' := by
  rcases h with ⟨hd, hhi, hpages⟩ | ⟨hclean, hE⟩
  · refine .inl ⟨hd, hhi, fun u hlo hu => ?_⟩
    rw [ha.slot hd]
    exact hpages u (by omega) hu
  · exact .inr ⟨fun hc => hclean (ha.rest.procs.clean.1 hc), hE⟩

theorem Scannable.walk {lo hi : Nat} {Q : Option PtePtr → Kernel → Prop}
    (h : Scannable own E d lo hi s) (hinv : Inv mode own (attachOf s) s) (hlt : lo < hi)
    (hnone : E (.panic .accesBit) → Q none s)
    (hsome : ∀ q, q.index < 1024 → (Clean s → (own q.table).isMap) → Q (some q) s) :
    wp (walkpgdir d (lo * PGSIZE)) s Q E := by
  rcases h with ⟨hd, hhi, hpages⟩ | ⟨hclean, hwild, hpanic⟩
  · obtain ⟨q, hq⟩ := hpages lo (Nat.le_refl lo) hlt
    have hv : lo < UPAGES := by omega
    rw [hinv.walk hd (mul_PGSIZE_lt (upages_lt hv)), mul_PGSIZE_div, hq]
    refine hsome q ?_ fun _ => ?_
    · rw [(pteSlot_eq_some.1 hq).2]
      exact Nat.mod_lt _ (by decide)
    · rw [hinv.tables.slot_owner hd (upages_lt hv) hq]
      trivial
  · exact wp_walk_any hwild (hnone hpanic) fun q hq => hsome q hq fun hc => (hclean hc).elim

theorem clearAccessedIn_spec {pgdir : Nat} :
    ∀ {left i : Nat} {s : Kernel}, Inv mode own (attachOf s) s → UserEntry own s orig →
      Scannable own E pgdir i (i + left) s →
      wp (clearAccessedIn pgdir orig left (i * PGSIZE)) s (fun _ s' => Aged mode own s s') E := by
  intro left
  induction left with
  | zero => exact fun hinv _ _ => Aged.refl hinv
  | succ left ih =>
    intro i s hinv horig hscan
    rw [clearAccessedIn, wp_bind]
    refine hscan.walk hinv (by omega) (fun hpanic => hpanic) fun q hidx hmap => ?_
    simp only [wp_bind, wp_loadPte]
    -- the rest of the scan, after a step that only ages
    have hrest : ∀ s1, Aged mode own s s1 →
        wp (clearAccessedIn pgdir orig left (i * PGSIZE + PGSIZE)) s1
          (fun _ s' => Aged mode own s s') E := by
      intro s1 ha
      have hscan1 : Scannable own E pgdir (i + 1) (i + 1 + left) s1 := by grind [hscan.aged]
      rw [← Nat.succ_mul]
      exact wp_conseq (ih ha.next (horig.aged ha) hscan1) fun _ s' ha' => ha.trans ha'
    by_cases heq : pteAt s q = pteAt s orig
    · simp only [heq, if_true]
      rw [← heq]
      exact hrest _ (aged_clear hinv hidx (by rw [heq]; exact horig.present)
        (by rw [heq]; exact horig.user hinv) hmap)
    · grind [Aged.refl]

/-- The pages of process `p` can be scanned. -/
theorem Inv.scannable (h : Inv mode own (attachOf s) s) (hp : p < NPROC)
    (hE : Clean s ∨ (E .wild ∧ E (.panic .accesBit))) :
    pagesOf (s.proc p).sz = 0 ∨
      Scannable own E (s.proc p).pgdir 0 (pagesOf (s.proc p).sz) s := by
  by_cases hlive : (s.proc p).state.live = true
  · have hatt : attachOf s p = some ((s.proc p).pgdir, (s.proc p).sz) :=
      attachOf_eq_some.2 ⟨hp, hlive, rfl, rfl⟩
    refine .inr (.inl ⟨h.procs.dir p _ _ hatt, ?_, fun u _ hu => ?_⟩)
    · have hsize := h.procs.size p _ _ hatt
      simp only [pagesOf, PGROUNDUP, UPAGES, KERNBASE, PGSIZE] at *
      omega
    · obtain ⟨w, hw, -⟩ := h.procs.page p _ _ u hatt (lt_pagesOf.2 hu)
      obtain ⟨q, hq, -⟩ := pteOf_eq_some.1 hw
      exact ⟨q, hq⟩
  · by_cases hclean : Clean s
    · refine .inl ?_
      rw [hclean.2 p hp (Bool.not_eq_true _ ▸ hlive)]
      rfl
    · exact .inr (.inr ⟨hclean, hE.resolve_left hclean⟩)

theorem makeAccesBit0_spec (h : Inv mode own (attachOf s) s) (horig : UserEntry own s orig)
    (hE : Clean s ∨ (E .wild ∧ E (.panic .accesBit))) :
    wp (makeAccesBit0 orig) s (fun _ s' => Aged mode own s s') E := by
  refine wp_loopFrom (fun _ s' => Aged mode own s s') ?_ (Aged.refl h)
  intro p s1 _ hp ha
  have hinv1 := ha.next
  have hE1 : Clean s1 ∨ (E .wild ∧ E (.panic .accesBit)) := hE.imp ha.rest.procs.clean.2 id
  rw [wp_bind, wp_get]
  rcases hinv1.scannable (p := p) (by omega) hE1 with hzero | hscan
  · rw [hzero]
    exact ha
  · have hloop := clearAccessedIn_spec (i := 0) hinv1 (horig.aged ha)
      (by rw [Nat.zero_add]; exact hscan)
    rw [Nat.zero_mul] at hloop
    exact wp_conseq hloop fun _ s' ha' => ha.trans ha'

theorem Inv.pages {q z : Nat} (h : Inv mode own (attachOf s) s)
    (hatt : attachOf s q = some (d, z)) :
    own d = .dir ∧ 0 + pagesOf z ≤ UPAGES ∧
      ∀ u, 0 ≤ u → u < 0 + pagesOf z → ∃ ptr, pteSlot s d u = some ptr := by
  refine ⟨h.procs.dir q _ _ hatt, ?_, fun u _ hu => ?_⟩
  · rw [Nat.zero_add]
    exact pagesOf_le (h.procs.size q _ _ hatt)
  · obtain ⟨w, hw, -⟩ := h.procs.page q _ _ u hatt (lt_pagesOf.2 (by omega))
    obtain ⟨ptr, hptr, -⟩ := pteOf_eq_some.1 hw
    exact ⟨ptr, hptr⟩

omit [KernelImage] in
theorem has_clearA (w : Word) : has (w &&& ~~~PTE_A) PTE_A = false := by simp_all

/-- The accessed bit of the entry `orig` is clear. -/
def Idle (s : Kernel) (orig : PtePtr) : Prop := has (pteAt s orig) PTE_A = false

theorem Idle.aged (h : Idle s orig) (horig : UserEntry own s orig) (ha : Aged mode own s s') :
    Idle s' orig := by
  obtain ⟨d, v, hd, hv, hslot⟩ := horig.dir
  obtain ⟨w', hw', hsim⟩ := ha.pte d v _ hd (upages_lt hv) (pteOf_of_slot hslot)
  rw [pteOf_of_slot ((ha.slot hd).trans hslot)] at hw'
  rw [Idle, Option.some.inj hw']
  rcases hsim with hsame | ⟨-, hclear⟩
  · rw [hsame]
    exact h
  · rw [hclear]
    exact has_clearA _

theorem clearAccessedIn_idle {pgdir u : Nat} (hd : own pgdir = .dir) :
    ∀ {left i : Nat} {s : Kernel}, Inv mode own (attachOf s) s → UserEntry own s orig →
      i + left ≤ UPAGES → (∀ x, i ≤ x → x < i + left → ∃ q, pteSlot s pgdir x = some q) →
      i ≤ u → u < i + left → pteSlot s pgdir u = some orig →
      wp (clearAccessedIn pgdir orig left (i * PGSIZE)) s
        (fun _ s' => Aged mode own s s' ∧ Idle s' orig) E := by
  intro left
  induction left with
  | zero => exact fun _ _ _ _ hlo hhi => absurd hhi (by omega)
  | succ left ih =>
    intro i s hinv horig hle hpages hlo hhi hslot
    obtain ⟨q, hq⟩ := hpages i (Nat.le_refl i) (by omega)
    have hi : i < UPAGES := by omega
    rw [clearAccessedIn, wp_bind]
    rw [hinv.walk hd (mul_PGSIZE_lt (upages_lt hi)), mul_PGSIZE_div, hq]
    simp only [wp_bind, wp_loadPte]
    have hmap : (own q.table).isMap := by
      rw [hinv.tables.slot_owner hd (upages_lt hi) hq]
      trivial
    have hidx : q.index < 1024 := by
      rw [(pteSlot_eq_some.1 hq).2]
      exact Nat.mod_lt _ (by decide)
    have hclear : pteAt s q = pteAt s orig →
        Aged mode own s (s.storeWord q.table q.index (pteAt s q &&& ~~~PTE_A)) := fun heq =>
      aged_clear hinv hidx (by rw [heq]; exact horig.present)
        (by rw [heq]; exact horig.user hinv) fun _ => hmap
    by_cases hiu : i = u
    · -- this is the entry itself; what follows only ages
      subst hiu
      obtain rfl : q = orig := Option.some.inj (hq.symm.trans hslot)
      rw [if_pos rfl]
      have ha := hclear rfl
      have hidle : Idle (s.storeWord q.table q.index (pteAt s q &&& ~~~PTE_A)) q := by
        rw [Idle, pteAt_storeWord_self]
        exact has_clearA _
      have hscan : Scannable own E pgdir (i + 1) (i + 1 + left)
          (s.storeWord q.table q.index (pteAt s q &&& ~~~PTE_A)) := by
        refine .inl ⟨hd, by omega, fun x hx hx' => ?_⟩
        rw [ha.slot hd]
        exact hpages x (by omega) (by omega)
      rw [wp_bind, wp_storePte, ← Nat.succ_mul]
      refine wp_conseq (clearAccessedIn_spec ha.next (horig.aged ha) hscan) fun _ s' ha' => ?_
      exact ⟨ha.trans ha', hidle.aged (horig.aged ha) ha'⟩
    · have hrest : ∀ s1, Aged mode own s s1 →
          wp (clearAccessedIn pgdir orig left (i * PGSIZE + PGSIZE)) s1
            (fun _ s' => Aged mode own s s' ∧ Idle s' orig) E := by
        intro s1 ha
        rw [← Nat.succ_mul]
        refine wp_conseq (ih ha.next (horig.aged ha) (by omega) (fun x hx hx' => ?_) (by omega)
          (by omega) ((ha.slot hd).trans hslot)) fun _ s' h' => ⟨ha.trans h'.1, h'.2⟩
        rw [ha.slot hd]
        exact hpages x (by omega) (by omega)
      refine wp_ite (fun heq => ?_) fun _ => hrest s (Aged.refl hinv)
      rw [wp_bind, wp_storePte]
      exact hrest _ (hclear heq)

theorem makeAccesBit0_idle {q z u : Nat} (h : Inv mode own (attachOf s) s)
    (horig : UserEntry own s orig) (hE : Clean s ∨ (E .wild ∧ E (.panic .accesBit)))
    (hatt : attachOf s q = some (d, z)) (hu : u * PGSIZE < z) (hslot : pteSlot s d u = some orig) :
    wp (makeAccesBit0 orig) s (fun _ s' => Aged mode own s s' ∧ Idle s' orig) E := by
  obtain ⟨hq, hlive, rfl, rfl⟩ := attachOf_eq_some.1 hatt
  have hloop : wp (makeAccesBit0 orig) s (fun _ s' => Aged mode own s s' ∧
      (q < 0 + NPROC → Idle s' orig)) E := by
    refine wp_loopFrom (fun p s' => Aged mode own s s' ∧ (q < p → Idle s' orig)) ?_
      ⟨Aged.refl h, fun hlt => absurd hlt (by omega)⟩
    rintro p s1 - hp ⟨ha, hidle⟩
    have hinv1 := ha.next
    have horig1 := horig.aged ha
    have hE1 : Clean s1 ∨ (E .wild ∧ E (.panic .accesBit)) := hE.imp ha.rest.procs.clean.2 id
    have hatt1 : attachOf s1 q = some ((s.proc q).pgdir, (s.proc q).sz) := by
      rw [ha.rest.procs.attach]
      exact hatt
    rw [wp_bind, wp_get]
    by_cases hpq : p = q
    · subst hpq
      obtain ⟨hd, hle, hpages⟩ := hinv1.pages hatt1
      have hpass : wp (clearAccessedIn (s.proc p).pgdir orig (pagesOf (s.proc p).sz) (0 * PGSIZE))
          s1 (fun _ s' => Aged mode own s1 s' ∧ Idle s' orig) E :=
        clearAccessedIn_idle hd hinv1 horig1 hle hpages (Nat.zero_le u)
          (by rw [Nat.zero_add]; exact lt_pagesOf.1 hu) ((ha.slot hd).trans hslot)
      rw [Nat.zero_mul] at hpass
      rw [ha.rest.procs.pgdir, ha.rest.procs.sz]
      exact wp_conseq hpass fun _ s' h' => ⟨ha.trans h'.1, fun _ => h'.2⟩
    · have hkeep : ∀ s', Aged mode own s1 s' → q < p + 1 → Idle s' orig := fun s' ha' hlt =>
        (hidle (by omega)).aged horig1 ha'
      rcases hinv1.scannable (p := p) (by omega) hE1 with hzero | hscan
      · rw [hzero]
        exact ⟨ha, hkeep s1 (Aged.refl hinv1)⟩
      · have hpass := clearAccessedIn_spec (i := 0) hinv1 horig1
          (by rw [Nat.zero_add]; exact hscan)
        rw [Nat.zero_mul] at hpass
        exact wp_conseq hpass fun _ s' ha' => ⟨ha.trans ha', hkeep s' ha'⟩
  exact wp_conseq hloop fun _ s' h' => ⟨h'.1, h'.2 (by omega)⟩

/-! ### `select_a_victim` -/

/-- Page `u` of the directory `d` is in memory and was not accessed. -/
structure Candidate (s : Kernel) (d u : Nat) (ptr : PtePtr) : Prop where
  slot : pteSlot s d u = some ptr
  present : has (pteAt s ptr) PTE_P = true
  idle : has (pteAt s ptr) PTE_A = false

theorem Inv.walk_page {u : Nat} {Q : Option PtePtr → Kernel → Prop}
    (h : Inv mode own (attachOf s) s) (hd : own d = .dir) (hu : u < UPAGES)
    (hslot : pteSlot s d u = some ptr) (hQ : Q (some ptr) s) :
    wp (walkpgdir d (u * PGSIZE)) s Q E := by
  rw [h.walk hd (mul_PGSIZE_lt (upages_lt hu)), mul_PGSIZE_div, hslot]
  exact hQ

/-- Page `u` of the directory is in memory. -/
def PageIn (s : Kernel) (d u : Nat) : Prop :=
  ∃ ptr, pteSlot s d u = some ptr ∧ has (pteAt s ptr) PTE_P = true

/-- The scan for a page finds one that was not accessed, if there is one and the
    process is charged for a page; otherwise it has counted the accessed ones. -/
theorem scanVictim_spec {rss : Nat} (h : Inv mode own (attachOf s) s) (hd : own d = .dir) :
    ∀ {left i total : Nat}, i + left ≤ UPAGES →
      (∀ u, i ≤ u → u < i + left → ∃ q, pteSlot s d u = some q) →
      wp (scanVictim d rss left (i * PGSIZE) total) s (fun r s' => s' = s ∧
        ((∃ ptr u, r.1 = some ptr ∧ PGSIZE ≤ rss ∧ i ≤ u ∧ u < i + left ∧ Candidate s d u ptr) ∨
          (r.1 = none ∧ total ≤ r.2 ∧ (rss < PGSIZE ∨
            ∀ u, i ≤ u → u < i + left → PageIn s d u →
              (∀ ptr, ¬ Candidate s d u ptr) ∧ total < r.2)))) E := by
  intro left
  induction left with
  | zero =>
    exact fun _ _ => ⟨rfl, .inr ⟨rfl, Nat.le_refl _,
      .inr fun u hlo hhi => absurd hhi (by omega)⟩⟩
  | succ left ih =>
    intro i total hle hpages
    obtain ⟨q, hq⟩ := hpages i (Nat.le_refl i) (by omega)
    -- what the pages after this one give
    have hrest : ∀ total', total ≤ total' → (rss < PGSIZE ∨ (PageIn s d i →
          (∀ ptr, ¬ Candidate s d i ptr) ∧ total < total')) →
        wp (scanVictim d rss left (i * PGSIZE + PGSIZE) total') s (fun r s' => s' = s ∧
          ((∃ ptr u, r.1 = some ptr ∧ PGSIZE ≤ rss ∧ i ≤ u ∧ u < i + (left + 1) ∧
              Candidate s d u ptr) ∨
            (r.1 = none ∧ total ≤ r.2 ∧ (rss < PGSIZE ∨
              ∀ u, i ≤ u → u < i + (left + 1) → PageIn s d u →
                (∀ ptr, ¬ Candidate s d u ptr) ∧ total < r.2)))) E := by
      intro total' htotal hthis
      rw [← Nat.succ_mul]
      refine wp_conseq (ih (by omega)
        fun u hlo hhi => hpages u (by omega) (by omega)) ?_
      rintro r s' ⟨rfl, ⟨ptr, u, hr, hrss, hlo, hhi, hcand⟩ | ⟨hr, hmono, hnone⟩⟩
      · exact ⟨rfl, .inl ⟨ptr, u, hr, hrss, by omega, by omega, hcand⟩⟩
      · grind
    rw [scanVictim, wp_bind]
    refine h.walk_page hd (by omega) hq ?_
    simp only [nonNull, pure_bind, wp_bind, wp_loadPte]
    by_cases hp : has (pteAt s q) PTE_P = true
    · rw [if_pos hp]
      by_cases ha : has (pteAt s q) PTE_A = true
      · rw [ha]
        refine hrest _ (by omega) (.inr fun _ => ⟨fun ptr hcand => ?_, Nat.lt_succ_self _⟩)
        have hidle := hcand.idle
        rw [Option.some.inj (hcand.slot.symm.trans hq), ha] at hidle
        cases hidle
      · rw [Bool.not_eq_true] at ha
        rw [ha]
        refine wp_ite (fun _ => wp_ite (fun hlow => ?_) fun hrss => ?_) fun hfalse => absurd rfl hfalse
        · exact hrest _ (Nat.le_refl _) (.inl hlow)
        · exact ⟨rfl, .inl ⟨q, i, rfl, by omega, Nat.le_refl i, by omega, hq, hp, ha⟩⟩
    · rw [if_neg hp]
      refine hrest _ (Nat.le_refl _) (.inr fun hin => ?_)
      obtain ⟨ptr, hptr, hpresent⟩ := hin
      rw [Option.some.inj (hptr.symm.trans hq)] at hpresent
      exact (hp hpresent).elim

theorem clearSome_spec {total : Nat} (hd : own d = .dir) :
    ∀ {left i cnt : Nat} {s : Kernel}, Inv mode own (attachOf s) s →
      (Clean s ∨ (E .wild ∧ E (.panic .accesBit))) → i + left ≤ UPAGES →
      (∀ u, i ≤ u → u < i + left → ∃ q, pteSlot s d u = some q) →
      wp (clearSome d total left (i * PGSIZE) cnt) s (fun _ s' => Aged mode own s s') E := by
  intro left
  induction left with
  | zero => exact fun h _ _ _ => Aged.refl h
  | succ left ih =>
    intro i cnt s h hE hle hpages
    obtain ⟨q, hq⟩ := hpages i (Nat.le_refl i) (by omega)
    have hrest : ∀ s1 cnt', Aged mode own s s1 →
        wp (if total ≤ cnt' then pure ()
          else clearSome d total left (i * PGSIZE + PGSIZE) cnt') s1
          (fun _ s' => Aged mode own s s') E := by
      intro s1 cnt' ha
      refine wp_ite (fun _ => ha) fun _ => ?_
      rw [← Nat.succ_mul]
      refine wp_conseq (ih ha.next (hE.imp ha.rest.procs.clean.2 id) (by omega)
        fun u hlo hhi => ?_) fun _ s' ha' => ha.trans ha'
      rw [ha.slot hd]
      exact hpages u (by omega) (by omega)
    rw [clearSome, wp_bind]
    refine h.walk_page hd (by omega) hq ?_
    simp only [nonNull, pure_bind, wp_bind, wp_loadPte]
    refine wp_ite (fun hpa => ?_) fun _ => hrest s cnt (Aged.refl h)
    rw [Bool.and_eq_true] at hpa
    rw [wp_bind]
    refine wp_conseq (makeAccesBit0_spec h ⟨⟨d, i, hd, by omega, hq⟩, hpa.1⟩ hE) ?_
    exact fun _ s1 ha => hrest s1 (cnt + 1) ha

/-- If a page in memory was accessed and one bit may be given up, the first such page
    becomes a candidate. -/
theorem clearSome_candidate {q z total : Nat} :
    ∀ {left i cnt : Nat} {s : Kernel}, Inv mode own (attachOf s) s →
      (Clean s ∨ (E .wild ∧ E (.panic .accesBit))) → attachOf s q = some (d, z) →
      i + left ≤ pagesOf z → cnt < total →
      (∃ u, i ≤ u ∧ u < i + left ∧ PageIn s d u ∧ ∀ ptr, ¬ Candidate s d u ptr) →
      wp (clearSome d total left (i * PGSIZE) cnt) s (fun _ s' => Aged mode own s s' ∧
        ∃ ptr v, v * PGSIZE < z ∧ Candidate s' d v ptr) E := by
  intro left
  induction left with
  | zero => exact fun _ _ _ _ _ ⟨u, hlo, hhi, _⟩ => absurd hhi (by omega)
  | succ left ih =>
    rintro i cnt s h hE hatt hle hcnt ⟨u, hlo, hhi, ⟨uptr, huslot, hup⟩, hnot⟩
    obtain ⟨hd, hmax, hpages⟩ := h.pages hatt
    obtain ⟨p, hp⟩ := hpages i (Nat.zero_le i) (by omega)
    have hiz : i * PGSIZE < z := lt_pagesOf.2 (by omega)
    rw [clearSome, wp_bind]
    refine h.walk_page hd (by omega) hp ?_
    simp only [nonNull, pure_bind, wp_bind, wp_loadPte]
    refine wp_ite (fun hpa => ?_) fun hpa => ?_
    · -- the first accessed page loses its bit
      rw [Bool.and_eq_true] at hpa
      have horig : UserEntry own s p := ⟨⟨d, i, hd, by omega, hp⟩, hpa.1⟩
      rw [wp_bind]
      refine wp_conseq (makeAccesBit0_idle h horig hE hatt hiz hp) ?_
      rintro - s1 ⟨ha, hidle⟩
      have hcand : ∀ s2, Aged mode own s1 s2 → Candidate s2 d i p := fun s2 ha2 =>
        ⟨(ha2.slot hd).trans ((ha.slot hd).trans hp), ((horig.aged ha).aged ha2).present,
          hidle.aged (horig.aged ha) ha2⟩
      refine wp_ite (fun _ => ?_) fun _ => ?_
      · exact ⟨ha, p, i, hiz, hcand s1 (Aged.refl ha.next)⟩
      · rw [← Nat.succ_mul]
        refine wp_conseq (clearSome_spec hd ha.next (hE.imp ha.rest.procs.clean.2 id) (by omega)
          fun x hlo' hhi' => ?_) fun _ s2 ha2 => ⟨ha.trans ha2, p, i, hiz, hcand s2 ha2⟩
        rw [ha.slot hd]
        exact hpages x (by omega) (by omega)
    · have hui : u ≠ i := by
        rintro rfl
        obtain rfl : p = uptr := Option.some.inj (hp.symm.trans huslot)
        refine hnot p ⟨hp, hup, ?_⟩
        rw [hup, Bool.true_and] at hpa
        exact Bool.not_eq_true _ ▸ hpa
      rw [if_neg (by omega), ← Nat.succ_mul]
      exact ih h hE hatt (by omega) hcnt ⟨u, by omega, by omega, ⟨uptr, huslot, hup⟩, hnot⟩

/-- The victim: a page of the process `q`, in memory and not accessed. -/
structure Victim (s : Kernel) (q v : Nat) (ptr : PtePtr) : Prop where
  lt : q < NPROC
  live : (s.proc q).state.live = true
  below : v * PGSIZE < (s.proc q).sz
  found : Candidate s (s.proc q).pgdir v ptr

omit [KernelImage] in
theorem selectVictimProcess_lt (h : s.cur < NPROC) : selectVictimProcess s < NPROC := by
  have hfold : ∀ (l : List Nat) (best : Nat), best < NPROC → (∀ p ∈ l, p < NPROC) →
      l.foldl (betterVictim s) best < NPROC := by
    intro l
    induction l with
    | nil => exact fun best hbest _ => hbest
    | cons p l ih =>
      intro best hbest hl
      refine ih _ ?_ fun q hq => hl q (List.mem_cons_of_mem _ hq)
      unfold betterVictim
      split
      · exact hl p List.mem_cons_self
      · split
        · exact hl p List.mem_cons_self
        · exact hbest
  exact hfold _ _ h fun p hp => List.mem_range.1 hp

theorem Inv.scan {q z : Nat} (h : Inv mode own (attachOf s) s)
    (hatt : attachOf s q = some (d, z)) (rss total : Nat) :
    wp (scanVictim d rss (pagesOf z) 0 total) s (fun r s' => s' = s ∧
      ((∃ ptr v, r.1 = some ptr ∧ PGSIZE ≤ rss ∧ v * PGSIZE < z ∧ Candidate s d v ptr) ∨
        (r.1 = none ∧ (rss < PGSIZE ∨ ∀ v, v * PGSIZE < z → PageIn s d v →
          (∀ ptr, ¬ Candidate s d v ptr) ∧ total < r.2)))) E := by
  obtain ⟨hd, hle, hpages⟩ := h.pages hatt
  have hscan : wp (scanVictim d rss (pagesOf z) (0 * PGSIZE) total) s _ E :=
    scanVictim_spec h hd hle hpages
  rw [Nat.zero_mul] at hscan
  refine wp_conseq hscan ?_
  rintro r s' ⟨rfl, ⟨ptr, v, hr, hrss, -, hv, hcand⟩ | ⟨hr, -, hnone⟩⟩
  · exact ⟨rfl, .inl ⟨ptr, v, hr, hrss, lt_pagesOf.2 (by omega), hcand⟩⟩
  · refine ⟨rfl, .inr ⟨hr, hnone.imp id fun hall v hv hin => ?_⟩⟩
    exact hall v (Nat.zero_le v) (by rw [Nat.zero_add]; exact lt_pagesOf.1 hv) hin

/-- What giving up accessed bits does: everything ages, and where there was no
    candidate but a page in memory, there is one. -/
theorem Inv.age {q z total : Nat} (h : Inv mode own (attachOf s) s)
    (hatt : attachOf s q = some (d, z)) (hE : Clean s ∨ (E .wild ∧ E (.panic .accesBit)))
    (hnone : ∀ v, v * PGSIZE < z → PageIn s d v → (∀ ptr, ¬ Candidate s d v ptr) ∧ 0 < total) :
    wp (clearSome d total (pagesOf z) 0 0) s (fun _ s' => Aged mode own s s' ∧
      ((∃ v, v * PGSIZE < z ∧ PageIn s d v) → ∃ ptr v, v * PGSIZE < z ∧ Candidate s' d v ptr)) E := by
  by_cases hin : ∃ v, v * PGSIZE < z ∧ PageIn s d v
  · obtain ⟨v, hv, hpage⟩ := hin
    obtain ⟨hnot, hpos⟩ := hnone v hv hpage
    have hclear : wp (clearSome d total (pagesOf z) (0 * PGSIZE) 0) s _ E :=
      clearSome_candidate h hE hatt (by omega) hpos
        ⟨v, Nat.zero_le v, by rw [Nat.zero_add]; exact lt_pagesOf.1 hv, hpage, hnot⟩
    rw [Nat.zero_mul] at hclear
    exact wp_conseq hclear fun _ s' h' => ⟨h'.1, fun _ => h'.2⟩
  · obtain ⟨hd, hle, hpages⟩ := h.pages hatt
    have hclear : wp (clearSome d total (pagesOf z) (0 * PGSIZE) 0) s _ E :=
      clearSome_spec hd h hE hle hpages
    rw [Nat.zero_mul] at hclear
    exact wp_conseq hclear fun _ s' ha => ⟨ha, fun hex => (hin hex).elim⟩

/-- The process chosen by resident size has an address space, or nothing to scan. A page
    of it is found if it is charged for one and has one in memory. -/
theorem selectAVictim_spec (h : Inv mode own (attachOf s) s)
    (hvp : Clean s ∨ (selectVictimProcess s < NPROC ∧
      (s.proc (selectVictimProcess s)).state.live = true))
    (hE : Clean s ∨ (E .wild ∧ E (.panic .accesBit))) :
    wp selectAVictim s (fun r s' => Aged mode own s s' ∧
      (∀ ptr, r = some ptr → PGSIZE ≤ (s.proc (selectVictimProcess s)).rss ∧
        ∃ v, Victim s' (selectVictimProcess s) v ptr) ∧
      (r = none → (s.proc (selectVictimProcess s)).rss < PGSIZE ∨
        ∀ d z v, attachOf s (selectVictimProcess s) = some (d, z) → v * PGSIZE < z →
          ¬ PageIn s d v)) E := by
  unfold selectAVictim
  rw [wp_bind, wp_get]
  generalize hq : selectVictimProcess s = q at hvp ⊢
  dsimp only
  by_cases hlive : q < NPROC ∧ (s.proc q).state.live = true
  · have hatt : attachOf s q = some ((s.proc q).pgdir, (s.proc q).sz) :=
      attachOf_eq_some.2 ⟨hlive.1, hlive.2, rfl, rfl⟩
    rw [wp_bind]
    refine wp_conseq (h.scan hatt _ _) ?_
    rintro ⟨r, total⟩ s1 ⟨rfl, ⟨ptr, v, rfl, hrss, hv, hcand⟩ | ⟨rfl, hnone⟩⟩
    · refine ⟨Aged.refl h, fun ptr' hptr' => ?_, fun hne => (Option.some_ne_none _ hne).elim⟩
      rw [← Option.some.inj hptr']
      exact ⟨hrss, v, hlive.1, hlive.2, hv, hcand⟩
    · dsimp only
      rw [wp_bind]
      -- the second scan, after the bits were given up
      have hsecond : ∀ s2, Aged mode own s1 s2 →
          ((s1.proc q).rss < PGSIZE ∨ ((∃ v, v * PGSIZE < (s1.proc q).sz ∧
            PageIn s1 (s1.proc q).pgdir v) → ∃ ptr v, v * PGSIZE < (s1.proc q).sz ∧
              Candidate s2 (s1.proc q).pgdir v ptr)) →
          wp (scanVictim (s1.proc q).pgdir (s1.proc q).rss (pagesOf (s1.proc q).sz) 0 0) s2
            (fun r s' => Aged mode own s1 s' ∧
              (∀ ptr, r.1 = some ptr → PGSIZE ≤ (s1.proc q).rss ∧ ∃ v, Victim s' q v ptr) ∧
              (r.1 = none → (s1.proc q).rss < PGSIZE ∨
                ∀ d z v, attachOf s1 q = some (d, z) → v * PGSIZE < z → ¬ PageIn s1 d v)) E := by
        intro s2 ha hcase
        have hprocs := ha.rest.procs
        refine wp_conseq (ha.next.scan (by rw [hprocs.attach]; exact hatt) _ _) ?_
        rintro ⟨r2, total2⟩ s3 ⟨rfl, ⟨ptr', v, hr, hrss, hv, hcand⟩ | ⟨hr, hnone2⟩⟩
        · refine ⟨ha, fun ptr hptr => ?_, fun hn => (Option.some_ne_none _ (hr.symm.trans hn)).elim⟩
          obtain rfl : ptr' = ptr := Option.some.inj (hr.symm.trans hptr)
          exact ⟨hrss, v, hlive.1, by rw [hprocs.state, hlive.2], by rw [hprocs.sz]; exact hv,
            by rw [hprocs.pgdir]; exact hcand⟩
        · refine ⟨ha, fun ptr hptr => (Option.some_ne_none _ (hptr.symm.trans hr)).elim, fun _ => ?_⟩
          rcases hcase with hlow | hcand
          · exact .inl hlow
          · refine hnone2.imp id fun hall d z v hatt' hv hin => ?_
            obtain ⟨rfl, rfl⟩ := Prod.mk.inj (Option.some.inj (hatt.symm.trans hatt'))
            obtain ⟨ptr, u, hu, hc⟩ := hcand ⟨v, hv, hin⟩
            exact (hall u hu ⟨ptr, hc.slot, hc.present⟩).1 ptr hc
      rcases hnone with hlow | hnone
      · obtain ⟨hd, hle, hpages⟩ := h.pages hatt
        have hclear : wp (clearSome (s1.proc q).pgdir ((total + 9) / 10) (pagesOf (s1.proc q).sz)
            (0 * PGSIZE) 0) s1 _ E := clearSome_spec hd h hE hle hpages
        rw [Nat.zero_mul] at hclear
        refine wp_conseq hclear fun _ s2 ha => ?_
        rw [wp_bind]
        exact hsecond s2 ha (.inl hlow)
      · refine wp_conseq (h.age hatt hE fun v hv hin => ?_) fun _ s2 h2 => ?_
        · obtain ⟨hnot, hpos⟩ := hnone v hv hin
          exact ⟨hnot, by omega⟩
        · rw [wp_bind]
          exact hsecond s2 h2.1 (.inr h2.2)
  · -- nothing to scan
    have hclean := hvp.resolve_right hlive
    have hlt : q < NPROC := by
      rw [← hq]
      exact selectVictimProcess_lt hclean.1
    have hzero : pagesOf (s.proc q).sz = 0 := by
      have hidle : (s.proc q).state.live = false := by
        rw [← Bool.not_eq_true]
        exact fun hl => hlive ⟨hlt, hl⟩
      rw [hclean.2 q hlt hidle]
      rfl
    rw [hzero]
    refine ⟨Aged.refl h, fun ptr hptr => (Option.some_ne_none _ hptr.symm).elim,
      fun _ => .inr fun d z v hatt => ?_⟩
    obtain ⟨hp, hl, -⟩ := attachOf_eq_some.1 hatt
    exact (hlive ⟨hp, hl⟩).elim

end CowPaging
