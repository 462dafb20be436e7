import CowPaging.Ownership

/-!
# Storing one page-table entry

Every change of a user mapping is one store to one entry together with the
matching change of the reverse map: new flags on a present entry, an entry that
stops mapping its page, an entry that starts to map a page. Each keeps `MapInv`.
-/

namespace CowPaging

open Bytes StateExcept SlotTable

/-- The entry of page `v₀` in directory `d₀` now holds `w₁`; no other entry of a
    live directory and no table changed. -/
structure PteStore (own : Owners) (d₀ v₀ : Nat) (w₁ : Word) (s s' : Kernel) : Prop where
  table : ∀ d i, own d = .dir → tableOf s' d i = tableOf s d i
  pte : ∀ d v, own d = .dir → v < 2 ^ 20 →
    pteOf s' d v = if d = d₀ ∧ v = v₀ then some w₁ else pteOf s d v

variable {own own' : Owners} {s s' : Kernel} {d0 v0 : Nat} {w0 w1 : Word} {ptr : PtePtr}

theorem TableInv.slot_inj (hT : TableInv own s) {d v d' v' : Nat} {ptr : PtePtr}
    (hd : own d = .dir) (hd' : own d' = .dir) (hv : v < 2 ^ 20) (hv' : v' < 2 ^ 20)
    (h : pteSlot s d v = some ptr) (h' : pteSlot s d' v' = some ptr) : d = d' ∧ v = v' := by
  have htab := hT.slot_owner hd hv h
  rw [hT.slot_owner hd' hv' h'] at htab
  injection htab with hdd hdiv
  have hmod : v % 1024 = v' % 1024 :=
    (pteSlot_eq_some.1 h).2.symm.trans (pteSlot_eq_some.1 h').2
  exact ⟨hdd.symm, by omega⟩

theorem pteStore_of_mem (hT : TableInv own s) (hd : own d0 = .dir) (hv : v0 < 2 ^ 20)
    (hslot : pteSlot s d0 v0 = some ptr)
    (hmem : ∀ f, (own f).isMap →
      s'.mem f = (s.storeWord ptr.table ptr.index w1).mem f) :
    PteStore own d0 v0 w1 s s' := by
  have howner := hT.slot_owner hd hv hslot
  have hother : ∀ f, (own f).isMap → f ≠ ptr.table → s'.mem f = s.mem f := by
    intro f hf hne
    rw [hmem f hf]
    exact Function.update_of_ne hne _ _
  have hself : s'.mem ptr.table = stw (s.mem ptr.table) ptr.index w1 := by
    rw [hmem ptr.table (by rw [howner]; trivial)]
    exact Function.update_self _ _ _
  have htable : ∀ d i, own d = .dir → tableOf s' d i = tableOf s d i := by
    intro d i hdir
    have hne : d ≠ ptr.table := by grind
    rw [tableOf, tableOf, hother d (by rw [hdir]; trivial) hne]
  refine ⟨htable, fun d v hdir hvlt => ?_⟩
  have hsame : pteSlot s' d v = pteSlot s d v := pteSlot_congr (htable d _ hdir)
  cases hs : pteSlot s d v with
  | none => grind [pteOf]
  | some q =>
    have hq := hT.slot_owner hdir hvlt hs
    rw [pteOf_of_slot (hsame.trans hs), pteAt]
    by_cases hsame : d = d0 ∧ v = v0
    · simp_all
    · rw [if_neg hsame, pteOf_of_slot hs, pteAt]
      by_cases ht : q.table = ptr.table
      · have hidx : q.index ≠ ptr.index := by
          intro hi
          have hqp : q = ptr := by cases q; cases ptr; simp_all
          subst hqp
          exact hsame (hT.slot_inj hdir hd hvlt hv hs hslot)
        rw [ht, hself, ldw_stw_ne _ _ hidx]
      · rw [hother q.table (by rw [hq]; trivial) ht]

theorem PteStore.slot (hst : PteStore own d0 v0 w1 s s') {d v : Nat} (hd : own d = .dir) :
    pteSlot s' d v = pteSlot s d v :=
  pteSlot_congr (hst.table d _ hd)

/-- The roles of directories and tables are the same. -/
structure SameMapRoles (own own' : Owners) : Prop where
  dir : ∀ f, own' f = .dir ↔ own f = .dir
  tab : ∀ f d i, own' f = .tab d i ↔ own f = .tab d i

theorem SameMapRoles.refl (own : Owners) : SameMapRoles own own :=
  ⟨fun _ => Iff.rfl, fun _ _ _ => Iff.rfl⟩

theorem sameMapRoles_update {f : Nat} {o : Owner} (hf : ¬ (own f).isMap) (ho : ¬ o.isMap) :
    SameMapRoles own (Function.update own f o) := by
  refine ⟨fun g => ?_, fun g d i => ?_⟩ <;>
  · by_cases hg : g = f
    · subst hg
      rw [Function.update_self]
      constructor
      · intro h; rw [h] at ho; exact (ho trivial).elim
      · intro h; rw [h] at hf; exact (hf trivial).elim
    · rw [Function.update_of_ne hg]

theorem TableInv.store (hT : TableInv own s) (hroles : SameMapRoles own own')
    (htable : ∀ d i, own d = .dir → tableOf s' d i = tableOf s d i) : TableInv own' s' where
  tab_iff d i t hd hi := by grind [hroles.dir, hroles.tab, hT.tab_iff]
  tab_dir d i t ht := by
    rw [hroles.tab] at ht
    rw [hroles.dir]
    exact hT.tab_dir d i t ht

theorem PteStore.upte (hst : PteStore own d0 v0 w1 s s') (hroles : SameMapRoles own own')
    {d v : Nat} {w : Word} :
    Upte own' s' d v w ↔
      own d = .dir ∧ v < UPAGES ∧
        (if d = d0 ∧ v = v0 then some w1 else pteOf s d v) = some w := by
  constructor
  · rintro ⟨hd, hv, hw⟩
    have hd' := (hroles.dir d).1 hd
    exact ⟨hd', hv, by rw [← hst.pte d v hd' (upages_lt hv)]; exact hw⟩
  · rintro ⟨hd, hv, hw⟩
    exact ⟨(hroles.dir d).2 hd, hv, by rw [hst.pte d v hd (upages_lt hv)]; exact hw⟩

theorem PteStore.upte_ne (hst : PteStore own d0 v0 w1 s s') (hroles : SameMapRoles own own')
    {d v : Nat} {w : Word} (hne : ¬ (d = d0 ∧ v = v0)) :
    Upte own' s' d v w ↔ Upte own s d v w := by
  rw [hst.upte hroles, if_neg hne, Upte]

theorem PteStore.upte_self (hst : PteStore own d0 v0 w1 s s') (hroles : SameMapRoles own own')
    {w : Word} (h : Upte own' s' d0 v0 w) : w = w1 := by
  have := (hst.upte hroles).1 h
  rw [if_pos ⟨rfl, rfl⟩] at this
  exact (Option.some.inj this.2.2).symm

theorem PteStore.mem_mappers (hst : PteStore own d0 v0 w1 s s')
    (hroles : SameMapRoles own own') (hT : TableInv own s) (hd : own d0 = .dir)
    (hv : v0 < UPAGES) (hslot : pteSlot s d0 v0 = some ptr) {n : Nat} {q : PtePtr} :
    q ∈ mappers own' s' n ↔
      (q ≠ ptr ∧ q ∈ mappers own s n) ∨ (q = ptr ∧ has w1 PTE_P = true ∧ frameOf w1 = n) := by
  constructor
  · rintro ⟨d, v, w, hu, hp, hn, hq⟩
    have hd' := (hroles.dir d).1 hu.1
    rw [hst.slot hd'] at hq
    by_cases hsame : d = d0 ∧ v = v0
    · obtain ⟨rfl, rfl⟩ := hsame
      have hw := hst.upte_self hroles hu
      subst hw
      exact .inr ⟨Option.some.inj (hq.symm.trans hslot), hp, hn⟩
    · refine .inl ⟨?_, d, v, w, (hst.upte_ne hroles hsame).1 hu, hp, hn, hq⟩
      rintro rfl
      exact hsame (hT.slot_inj hd' hd (upages_lt hu.2.1) (upages_lt hv) hq hslot)
  · rintro (⟨hne, d, v, w, hu, hp, hn, hq⟩ | ⟨rfl, hp, hn⟩)
    · have hsame : ¬ (d = d0 ∧ v = v0) := by grind
      exact ⟨d, v, w, (hst.upte_ne hroles hsame).2 hu, hp, hn, by rw [hst.slot hu.1]; exact hq⟩
    · refine ⟨d0, v0, w1, ⟨(hroles.dir d0).2 hd, hv, ?_⟩, hp, hn, by rw [hst.slot hd]; exact hslot⟩
      rw [hst.pte d0 v0 hd (upages_lt hv), if_pos ⟨rfl, rfl⟩]

theorem Upte.mem_mappers {d v : Nat} {w : Word} (hu : Upte own s d v w)
    (hp : has w PTE_P = true) (hslot : pteSlot s d v = some ptr) :
    ptr ∈ mappers own s (frameOf w) :=
  ⟨d, v, w, hu, hp, rfl, hslot⟩

theorem Upte.exists_slot {d v : Nat} {w : Word} (hu : Upte own s d v w) :
    ∃ ptr, pteSlot s d v = some ptr ∧ pteAt s ptr = w :=
  pteOf_eq_some.1 hu.2.2

theorem MapInv.kern_store (h : MapInv own s) (hst : PteStore own d0 v0 w1 s s')
    (hroles : SameMapRoles own own') (hv : v0 < UPAGES) (d v : Nat) (w : Word)
    (hd : own' d = .dir) (hlo : UPAGES ≤ v) (hhi : v < 2 ^ 20) (hw : pteOf s' d v = some w) :
    has w PTE_S = false := by grind [hroles.dir, hst.pte, h.kern]

theorem MapInv.setFlags (h : MapInv own s) (hT : TableInv own s)
    (hst : PteStore own d0 v0 w1 s s') (hrmap : s'.rmap = s.rmap)
    (hu : Upte own s d0 v0 w0) (hp0 : has w0 PTE_P = true) (hp1 : has w1 PTE_P = true)
    (hframe : frameOf w1 = frameOf w0) (hS : has w1 PTE_S = false)
    (hW : has w1 PTE_W = true → (s.rmap (frameOf w0)).refcount = 1) : MapInv own s' := by
  obtain ⟨ptr, hslot, -⟩ := hu.exists_slot
  have hroles := SameMapRoles.refl own
  have hmap : ∀ n, mappers own s' n = mappers own s n := by
    intro n
    ext q
    rw [hst.mem_mappers hroles hT hu.1 hu.2.1 hslot]
    constructor
    · rintro (⟨-, hq⟩ | ⟨rfl, -, hn⟩)
      · exact hq
      · rw [← hn, hframe]
        exact hu.mem_mappers hp0 hslot
    · intro hq
      by_cases hqp : q = ptr
      · subst hqp
        obtain ⟨d, v, w, hu', hp, hn, hq⟩ := hq
        obtain ⟨rfl, rfl⟩ := hT.slot_inj hu'.1 hu.1 (upages_lt hu'.2.1) (upages_lt hu.2.1) hq hslot
        have hw : w = w0 := Option.some.inj (hu'.2.2.symm.trans hu.2.2)
        exact .inr ⟨rfl, hp1, by rw [hframe, ← hw, hn]⟩
      · exact .inl ⟨hqp, hq⟩
  -- an entry after the store stands for an entry with the same page before it
  have hback : ∀ d v w, Upte own s' d v w → has w PTE_P = true →
      ∃ w', Upte own s d v w' ∧ has w' PTE_P = true ∧ frameOf w' = frameOf w := by
    intro d v w hu' hp
    by_cases hsame : d = d0 ∧ v = v0
    · obtain ⟨rfl, rfl⟩ := hsame
      have hw := hst.upte_self hroles hu'
      subst hw
      exact ⟨w0, hu, hp0, hframe.symm⟩
    · exact ⟨w, (hst.upte_ne hroles hsame).1 hu', hp, rfl⟩
  refine ⟨?_, h.kern_store hst hroles hu.2.1, ?_, ?_, ?_, ?_⟩
  · intro d v w hu' hp
    by_cases hsame : d = d0 ∧ v = v0
    · obtain ⟨rfl, rfl⟩ := hsame
      have hw := hst.upte_self hroles hu'
      subst hw
      rw [hframe]
      exact ⟨(h.user _ _ _ hu hp0).1, hS⟩
    · exact h.user d v w ((hst.upte_ne hroles hsame).1 hu') hp
  · intro d v v' w w' hu1 hu2 hp hp' hf
    obtain ⟨x, hx, hpx, hfx⟩ := hback d v w hu1 hp
    obtain ⟨y, hy, hpy, hfy⟩ := hback d v' w' hu2 hp'
    exact h.once d v v' x y hx hy hpx hpy (by rw [hfx, hfy, hf])
  · intro n hn
    rw [hmap, hrmap]
    exact h.exact n hn
  · intro n hn
    rw [hmap]
    exact h.mapped n hn
  · intro d v w hu' hp hw
    rw [hrmap]
    by_cases hsame : d = d0 ∧ v = v0
    · obtain ⟨rfl, rfl⟩ := hsame
      have hww := hst.upte_self hroles hu'
      subst hww
      rw [hframe]
      exact hW hw
    · exact h.writable d v w ((hst.upte_ne hroles hsame).1 hu') hp hw

theorem MapInv.unmap (h : MapInv own s) (hT : TableInv own s)
    (hst : PteStore own d0 v0 w1 s s') (hroles : SameMapRoles own own')
    (hu : Upte own s d0 v0 w0) (hslot : pteSlot s d0 v0 = some ptr)
    (hp0 : has w0 PTE_P = true) (hp1 : has w1 PTE_P = false) (hlt : frameOf w0 < NFRAMES)
    (hlist : (s'.rmap (frameOf w0)).Lists (mappers own s (frameOf w0) \ {ptr}))
    (hother : ∀ n, n ≠ frameOf w0 → s'.rmap n = s.rmap n)
    (hsame : ∀ n, n ≠ frameOf w0 → own' n = own n)
    (hself : own' (frameOf w0) = .user ↔ (mappers own s (frameOf w0) \ {ptr}).Nonempty) :
    MapInv own' s' := by
  have hmap : ∀ n, mappers own' s' n =
      if n = frameOf w0 then mappers own s n \ {ptr} else mappers own s n := by
    intro n
    ext q
    rw [hst.mem_mappers hroles hT hu.1 hu.2.1 hslot]
    split
    · grind
    · next hn =>
      constructor
      · grind
      · intro hq
        refine .inl ⟨?_, hq⟩
        rintro rfl
        obtain ⟨d, v, w, hu', -, hnw, hq⟩ := hq
        obtain ⟨rfl, rfl⟩ := hT.slot_inj hu'.1 hu.1 (upages_lt hu'.2.1) (upages_lt hu.2.1) hq hslot
        have hw : w = w0 := Option.some.inj (hu'.2.2.symm.trans hu.2.2)
        exact hn (by rw [← hnw, hw])
  have hback : ∀ d v w, Upte own' s' d v w → has w PTE_P = true →
      Upte own s d v w ∧ ¬ (d = d0 ∧ v = v0) := by
    intro d v w hu' hp
    have hne : ¬ (d = d0 ∧ v = v0) := by grind [hst.upte_self]
    exact ⟨(hst.upte_ne hroles hne).1 hu', hne⟩
  -- another entry that maps the same page stays in the set of mappers
  have hrest : ∀ d v w, Upte own s d v w → has w PTE_P = true → ¬ (d = d0 ∧ v = v0) →
      frameOf w = frameOf w0 → ∃ q, q ∈ mappers own s (frameOf w0) \ {ptr} := by
    intro d v w hu' hp hne hf
    obtain ⟨q, hq, -⟩ := hu'.exists_slot
    refine ⟨q, by rw [← hf]; exact hu'.mem_mappers hp hq, ?_⟩
    rintro rfl
    exact hne (hT.slot_inj hu'.1 hu.1 (upages_lt hu'.2.1) (upages_lt hu.2.1) hq hslot)
  refine ⟨?_, h.kern_store hst hroles hu.2.1, ?_, ?_, ?_, ?_⟩
  · intro d v w hu' hp
    obtain ⟨hold, hne⟩ := hback d v w hu' hp
    have huser := h.user d v w hold hp
    refine ⟨?_, huser.2⟩
    by_cases hf : frameOf w = frameOf w0
    · rw [hf]
      exact hself.2 (hrest d v w hold hp hne hf)
    · rw [hsame _ hf]
      exact huser.1
  · intro d v v' w w' hu1 hu2 hp hp'
    exact h.once d v v' w w' (hback _ _ _ hu1 hp).1 (hback _ _ _ hu2 hp').1 hp hp'
  · intro n hn
    rw [hmap]
    split
    · next heq => subst heq; exact hlist
    · next hne => rw [hother n hne]; exact h.exact n hn
  · intro n hn
    rw [hmap]
    split
    · next heq => subst heq; exact hself.1 hn
    · next hne => exact h.mapped n (by rw [← hsame n hne]; exact hn)
  · intro d v w hu' hp hw
    obtain ⟨hold, hne⟩ := hback d v w hu' hp
    have hone := h.writable d v w hold hp hw
    by_cases hf : frameOf w = frameOf w0
    · -- a writable entry is the only mapper, so it cannot be another one
      exfalso
      obtain ⟨q, hq, hqne⟩ := hrest d v w hold hp hne hf
      rw [hf] at hone
      exact hqne ((h.exact _ hlt).eq_of_count_one hone hq (hu.mem_mappers hp0 hslot))
    · rw [hother _ hf]
      exact hone

/-- An entry that mapped nothing starts to map a page, and the reverse map
    records it. The page is fresh, or every entry that maps it is read-only. -/
theorem MapInv.map (h : MapInv own s) (hT : TableInv own s)
    (hst : PteStore own d0 v0 w1 s s') (hroles : SameMapRoles own own')
    (hu : Upte own s d0 v0 w0) (hslot : pteSlot s d0 v0 = some ptr)
    (hp0 : has w0 PTE_P = false) (hp1 : has w1 PTE_P = true) (hS : has w1 PTE_S = false)
    (hlist : (s'.rmap (frameOf w1)).Lists (insert ptr (mappers own s (frameOf w1))))
    (hother : ∀ n, n ≠ frameOf w1 → s'.rmap n = s.rmap n)
    (hsame : ∀ n, n ≠ frameOf w1 → own' n = own n)
    (hself : own' (frameOf w1) = .user)
    (honce : ∀ v w, Upte own s d0 v w → has w PTE_P = true → frameOf w ≠ frameOf w1)
    (hro : ∀ d v w, Upte own s d v w → has w PTE_P = true → frameOf w = frameOf w1 →
      has w PTE_W = false)
    (hW : has w1 PTE_W = true → mappers own s (frameOf w1) = ∅) :
    MapInv own' s' := by
  have hnot : ∀ n, ptr ∉ mappers own s n := by
    rintro n ⟨d, v, w, hu', hp, -, hq⟩
    obtain ⟨rfl, rfl⟩ := hT.slot_inj hu'.1 hu.1 (upages_lt hu'.2.1) (upages_lt hu.2.1) hq hslot
    have hw : w = w0 := Option.some.inj (hu'.2.2.symm.trans hu.2.2)
    rw [hw, hp0] at hp
    cases hp
  have hmap : ∀ n, mappers own' s' n =
      if n = frameOf w1 then insert ptr (mappers own s n) else mappers own s n := by
    intro n
    ext q
    rw [hst.mem_mappers hroles hT hu.1 hu.2.1 hslot]
    split
    · next hn =>
      simp only [hp1, hn, and_true, Set.mem_insert_iff]
      constructor
      · rintro (⟨-, hq⟩ | hq)
        · exact .inr hq
        · exact .inl hq
      · rintro (rfl | hq)
        · exact .inr rfl
        · exact .inl ⟨by rintro rfl; exact hnot _ hq, hq⟩
    · next hn =>
      constructor
      · rintro (⟨-, hq⟩ | ⟨-, -, hf⟩)
        · exact hq
        · exact (hn hf.symm).elim
      · intro hq
        exact .inl ⟨by rintro rfl; exact hnot _ hq, hq⟩
  refine ⟨?_, h.kern_store hst hroles hu.2.1, ?_, ?_, ?_, ?_⟩
  · intro d v w hu' hp
    by_cases heq : d = d0 ∧ v = v0
    · obtain ⟨rfl, rfl⟩ := heq
      have hw := hst.upte_self hroles hu'
      subst hw
      exact ⟨hself, hS⟩
    · have huser := h.user d v w ((hst.upte_ne hroles heq).1 hu') hp
      refine ⟨?_, huser.2⟩
      by_cases hf : frameOf w = frameOf w1
      · rw [hf]; exact hself
      · rw [hsame _ hf]; exact huser.1
  · intro d v v' w w' hu1 hu2 hp hp' hf
    by_cases h1 : d = d0 ∧ v = v0 <;> by_cases h2 : d = d0 ∧ v' = v0
    · rw [h1.2, h2.2]
    · obtain ⟨rfl, rfl⟩ := h1
      have hw := hst.upte_self hroles hu1
      subst hw
      exact (honce v' w' ((hst.upte_ne hroles h2).1 hu2) hp' hf.symm).elim
    · obtain ⟨rfl, rfl⟩ := h2
      have hw := hst.upte_self hroles hu2
      subst hw
      exact (honce v w ((hst.upte_ne hroles h1).1 hu1) hp hf).elim
    · exact h.once d v v' w w' ((hst.upte_ne hroles h1).1 hu1)
        ((hst.upte_ne hroles h2).1 hu2) hp hp' hf
  · intro n hn
    rw [hmap]
    split
    · next heq => subst heq; exact hlist
    · next hne => rw [hother n hne]; exact h.exact n hn
  · intro n hn
    rw [hmap]
    split
    · exact ⟨ptr, Set.mem_insert _ _⟩
    · next hne => exact h.mapped n (by rw [← hsame n hne]; exact hn)
  · intro d v w hu' hp hw
    by_cases heq : d = d0 ∧ v = v0
    · obtain ⟨rfl, rfl⟩ := heq
      have hww := hst.upte_self hroles hu'
      subst hww
      refine hlist.count_one_of_subsingleton (Set.mem_insert _ _) fun b hb => ?_
      rw [hW hw] at hb
      rcases hb with rfl | hb
      · rfl
      · exact hb.elim
    · have hold := (hst.upte_ne hroles heq).1 hu'
      by_cases hf : frameOf w = frameOf w1
      · have := hro d v w hold hp hf
        rw [hw] at this
        cases this
      · rw [hother _ hf]
        exact h.writable d v w hold hp hw

end CowPaging
