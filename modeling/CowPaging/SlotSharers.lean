import CowPaging.AccessedBits
import CowPaging.Reap
import CowPaging.SharedEviction

/-!
# Reaping one sharer of a swap slot

The record of a slot is an array of processes with their entries, and a count. When a
process is reaped, `clean_proc_data` lowers the count, whoever it was: the record loses its
last entry. So it lists the remaining sharers exactly if the reaped process was the last
one in it; then a fault of any of them brings the page back for all.
-/

namespace CowPaging

open Bytes StateExcept SlotTable
open Function (update_of_ne update_self update)

variable {s s' b t : Kernel} {idx z p f i : Nat} {ptr q : PtePtr} {E : Halt → Prop}

/-! ### The record of a slot -/

/-- The processes in the record of slot `idx`, with their entries. -/
def slotRecord (s : Kernel) (idx : Nat) : List (Nat × PtePtr) :=
  (List.range (s.swaparray idx).cnt).map fun i =>
    ((s.swaparray idx).procId i, (s.swaparray idx).pteId i)

/-- The entry `ptr` of the process `p` waits in slot `idx`. -/
def WaitsIn (s : Kernel) (idx p : Nat) (ptr : PtePtr) : Prop :=
  p < NPROC ∧ (s.proc p).state.live = true ∧ ∃ v, v < UPAGES ∧
    pteSlot s (s.proc p).pgdir v = some ptr ∧ isSwapped (pteAt s ptr) = true ∧
    frameOf (pteAt s ptr) = idx

/-- The record lists exactly the entries that wait in the slot, of different processes. -/
structure RecordExact (s : Kernel) (idx : Nat) : Prop where
  lists : ∀ p ptr, (p, ptr) ∈ slotRecord s idx ↔ WaitsIn s idx p ptr
  once : ((slotRecord s idx).map Prod.fst).Nodup

theorem slotRecord_length (s : Kernel) (idx : Nat) :
    (slotRecord s idx).length = (s.swaparray idx).cnt := by
  rw [slotRecord, List.length_map, List.length_range]

theorem RecordExact.cnt_le (h : RecordExact s idx) : (s.swaparray idx).cnt ≤ NPROC := by
  have hsub : (slotRecord s idx).map Prod.fst ⊆ List.range NPROC := by
    intro p hp
    obtain ⟨⟨p, ptr⟩, hmem, rfl⟩ := List.mem_map.1 hp
    exact List.mem_range.2 ((h.lists p ptr).1 hmem).1
  have hle := (h.once.subperm hsub).length_le
  rwa [List.length_map, slotRecord_length, List.length_range] at hle

/-- The loop of the handler over the record has passed `i` entries; `b` is the state before
    it. -/
structure Restoring (b : Kernel) (idx f : Nat) (w : Word) (i : Nat) (t : Kernel) : Prop where
  slots : t.swaparray = b.swaparray
  page : t.mem f = b.mem f
  words : ∀ q, pteAt t q = if q ∈ ((slotRecord b idx).take i).map Prod.snd then w else pteAt b q
  procs : ∀ p, t.proc p = if p ∈ ((slotRecord b idx).take i).map Prod.fst then
    { b.proc p with rss := ((b.proc p).rss + PGSIZE) % 2 ^ 32 } else b.proc p
  count : (t.rmap f).refcount = i

theorem Restoring.step {w : Word} (h : Restoring b idx f w i t)
    (honce : ((slotRecord b idx).map Prod.fst).Nodup) (hi : i < (slotRecord b idx).length)
    (hle : i < NPROC) (hx : (slotRecord b idx)[i] = (p, ptr)) (hf : ptr.table ≠ f) :
    Restoring b idx f w (i + 1)
      ((((t.setRmap f ((t.rmap f).inc ptr)).setProc p fun pr =>
        { pr with rss := (pr.rss + PGSIZE) % 2 ^ 32 })).storeWord ptr.table ptr.index w) := by
  have htake : (slotRecord b idx).take (i + 1) = (slotRecord b idx).take i ++ [(p, ptr)] := by
    rw [List.take_succ_eq_append_getElem hi, hx]
  -- the process has not been charged yet
  have hfresh : p ∉ ((slotRecord b idx).take i).map Prod.fst := by
    intro hin
    have hsplit : (slotRecord b idx).map Prod.fst =
        ((slotRecord b idx).take (i + 1)).map Prod.fst ++
          ((slotRecord b idx).drop (i + 1)).map Prod.fst := by
      rw [← List.map_append, List.take_append_drop]
    rw [hsplit, htake, List.map_append, List.map_singleton] at honce
    exact (List.nodup_append.1 (List.nodup_append.1 honce).1).2.2 p hin p List.mem_cons_self rfl
  constructor
  · exact h.slots
  · rw [← h.page]
    exact update_of_ne (Ne.symm hf) _ _
  · intro q
    have hstore := pteAt_storeWord ((t.setRmap f ((t.rmap f).inc ptr)).setProc p fun pr =>
      { pr with rss := (pr.rss + PGSIZE) % 2 ^ 32 }) ptr q w
    rw [hstore, htake, List.map_append, List.map_singleton]
    have hsame : pteAt ((t.setRmap f ((t.rmap f).inc ptr)).setProc p fun pr =>
        { pr with rss := (pr.rss + PGSIZE) % 2 ^ 32 }) q = pteAt t q := rfl
    rw [hsame, h.words q]
    by_cases hq : q = ptr
    · rw [if_pos hq, if_pos (List.mem_append_right _ (List.mem_singleton.2 hq))]
    · simp only [hq, if_false, List.mem_append, List.mem_singleton, or_false]
  · intro r
    rw [htake, List.map_append, List.map_singleton]
    by_cases hr : r = p
    · subst hr
      have hself : t.proc r = b.proc r := by rw [h.procs r, if_neg hfresh]
      rw [if_pos (List.mem_append_right _ List.mem_cons_self)]
      show update t.proc r _ r = _
      rw [update_self]
      show { t.proc r with rss := ((t.proc r).rss + PGSIZE) % 2 ^ 32 } = _
      rw [hself]
    · have hother : ((((t.setRmap f ((t.rmap f).inc ptr)).setProc p fun pr =>
          { pr with rss := (pr.rss + PGSIZE) % 2 ^ 32 })).storeWord ptr.table ptr.index w).proc r =
          t.proc r := update_of_ne hr _ _
      rw [hother, h.procs r]
      simp only [hr, List.mem_append, List.mem_singleton, or_false]
  · show ((update t.rmap f ((t.rmap f).inc ptr)) f).refcount = i + 1
    rw [update_self, Rmap.inc_refcount, h.count, incr32]
    simp only [NPROC] at hle
    omega

section

variable [KernelImage] {own own' : Owners} {va : Nat}

/-- Pages have their owners, and every process has a directory of its own. -/
structure Housed (own : Owners) (s : Kernel) : Prop where
  inv : Inv Mode.shared own (fun _ => none) s
  dir : ∀ p, p < NPROC → (s.proc p).state.live = true → own (s.proc p).pgdir = .dir
  inj : ∀ p q, p < NPROC → q < NPROC → (s.proc p).state.live = true →
    (s.proc q).state.live = true → (s.proc p).pgdir = (s.proc q).pgdir → p = q

theorem WaitsIn.table (h : WaitsIn s idx p ptr) (hh : Housed own s) :
    ∃ d i, own ptr.table = .tab d i := by
  obtain ⟨hp, hlive, v, hv, hslot, -⟩ := h
  exact ⟨_, _, hh.inv.tables.slot_owner (hh.dir p hp hlive) (upages_lt hv) hslot⟩

/-- `wait` comes to the zombie `z`, which has a stack and names slots in use. -/
structure Reapable (own : Owners) (s : Kernel) (z : Nat) : Prop where
  next : (firstSlot NPROC fun p => decide ((s.proc p).parent = some s.cur) &&
    decide ((s.proc p).state = .zombie)) = some z
  stack : own (s.proc z).kstack = .stack z
  entries : SwapEntries s (s.proc z).pgdir
  busy : ∀ v w, v < 2 ^ 20 → pteOf s (s.proc z).pgdir v = some w → has w PTE_S = true →
    (s.swaparray (frameOf w)).isFree = false

omit [KernelImage] in
theorem Reapable.zombie (h : Reapable own s z) : z < NPROC ∧ (s.proc z).state = .zombie := by
  obtain ⟨hlt, htest⟩ := firstSlot_some h.next
  rw [Bool.and_eq_true, decide_eq_true_eq, decide_eq_true_eq] at htest
  exact ⟨hlt, htest.2⟩

theorem Housed.dropped (h : Housed own s) (hz : Reapable own s z)
    (hd : Dropped (s.proc z).pgdir (2 ^ 20) s s') : Inv Mode.shared own (fun _ => none) s' := by
  have hmaps : SameMaps own s s' := sameMaps_of_mem hd.mem
  refine ⟨h.inv.frames.congr (by rw [hd.same]), h.inv.tables.congr (SameRoles.refl own) hmaps,
    h.inv.maps.congr h.inv.tables (SameRoles.refl own) hmaps (by rw [hd.same]),
    ⟨nofun, nofun, nofun, nofun, nofun, fun i hi hfree => ?_⟩, nofun, nofun, nofun, nofun⟩
  by_cases hk : ∀ v w, v < 2 ^ 20 → pteOf s (s.proc z).pgdir v = some w → has w PTE_S = true →
      frameOf w ≠ i
  · rw [hd.other i hk] at hfree ⊢
    exact h.inv.procs.slotFree i hi hfree
  · simp only [not_forall, not_not] at hk
    obtain ⟨v, w, hv, hw, hS, rfl⟩ := hk
    rw [hd.named v w hv hw hS, SwapSlot.dropOne] at hfree ⊢
    split at hfree
    · next hone => rw [if_pos hone]
    · rw [hz.busy v w hv hw hS] at hfree
      cases hfree

/-- What `wait` leaves: the processes other than `z` with the entries they had. -/
structure ReapedOne (own' : Owners) (idx z : Nat) (s s' : Kernel) : Prop where
  housed : Housed own' s'
  slot : s'.swaparray idx = { s.swaparray idx with cnt := (s.swaparray idx).cnt - 1 }
  waits : ∀ p ptr, WaitsIn s' idx p ptr ↔ WaitsIn s idx p ptr ∧ p ≠ z
  free : s'.freelist ≠ []

omit [KernelImage] in
theorem waitsIn_congr (hstate : (s'.proc p).state = (s.proc p).state)
    (hpgdir : (s'.proc p).pgdir = (s.proc p).pgdir)
    (hslot : ∀ v, v < UPAGES → pteSlot s' (s.proc p).pgdir v = pteSlot s (s.proc p).pgdir v ∧
      pteOf s' (s.proc p).pgdir v = pteOf s (s.proc p).pgdir v) :
    WaitsIn s' idx p ptr ↔ WaitsIn s idx p ptr := by
  have hword : ∀ v, v < UPAGES → pteSlot s (s.proc p).pgdir v = some ptr →
      pteAt s' ptr = pteAt s ptr := by grind [pteOf_of_slot]
  rw [WaitsIn, WaitsIn, hstate, hpgdir]
  refine and_congr_right fun _ => and_congr_right fun _ => exists_congr fun v => ?_
  refine and_congr_right fun hv => ?_
  rw [(hslot v hv).1]
  refine and_congr_right fun hs => ?_
  rw [hword v hv hs]

omit [KernelImage] in
theorem Reapable.roles {e : Nat} (h : Reapable own s z) (he : own e = .dir) :
    update own (s.proc z).kstack .free e = .dir := by
  rw [update_of_ne ?_, he]
  rintro rfl
  rw [h.stack] at he
  cases he

theorem Housed.reapedOne {own3 : Owners} {s1 s2 s3 : Kernel} (h : Housed own s)
    (hz : Reapable own s z) (hrec : RecordExact s idx) (hk : 2 ≤ (s.swaparray idx).cnt)
    (hmem : z ∈ (slotRecord s idx).map Prod.fst) (hdrop : Dropped (s.proc z).pgdir (2 ^ 20) s s1)
    (hs2 : s2 = (s1.freed (s.proc z).kstack).setProc z fun pr => { pr with kstack := 0 })
    (hinv2 : Inv Mode.shared (update own (s.proc z).kstack .free) (fun _ => none) s2)
    (hinv3 : Inv Mode.shared own3 (fun _ => none) s3)
    (hfs : FreedSpace (update own (s.proc z).kstack .free) own3 (s.proc z).pgdir s2 s3) :
    ReapedOne own3 idx z s (s3.reaped z) := by
  obtain ⟨hzlt, hzombie⟩ := hz.zombie
  have hzlive : (s.proc z).state.live = true := by rw [hzombie]; rfl
  have hd := h.dir z hzlt hzlive
  -- the others' directories and tables have not been touched
  have hmaps : SameMaps own s
      s2 := by
    intro g hg
    rw [hs2, ← hdrop.mem]
    refine update_of_ne ?_ _ _
    rintro rfl
    rw [hz.stack] at hg
    exact hg
  have hproc : ∀ p, p ≠ z → (s3.reaped z).proc p = { s.proc p with rss := (s3.proc p).rss } := by
    intro p hp
    have hout : (s3.reaped z).proc p = s3.proc p := update_of_ne hp _ _
    have hin : s2.proc p =
        s.proc p := by
      rw [hs2, ← show s1.proc = s.proc by rw [hdrop.same]]
      exact update_of_ne hp _ _
    rw [hout, hfs.only.procs.proc p, hin]
  have hself : ((s3.reaped z).proc z).state = .unused := by
    show (update s3.proc z _ z).state = _
    rw [update_self]
  have hlive : ∀ {p}, ((s3.reaped z).proc p).state.live = true →
      p ≠ z ∧ (s.proc p).state.live = true := by
    intro p hp
    have hne : p ≠ z := by
      rintro rfl
      rw [hself] at hp
      cases hp
    rw [hproc p hne] at hp
    exact ⟨hne, hp⟩
  have hother : ∀ {p}, p < NPROC → p ≠ z → (s.proc p).state.live = true →
      own (s.proc p).pgdir = .dir ∧ (s.proc p).pgdir ≠ (s.proc z).pgdir := fun {p} hp hne hl =>
    ⟨h.dir p hp hl, fun heq => hne (h.inj p z hp hzlt hl hzlive heq)⟩
  constructor
  · constructor
    · exact hinv3.withProc _ _ _ fun hm => by cases hm
    · intro p hp hl
      obtain ⟨hne, hl⟩ := hlive hl
      obtain ⟨hdir, hdne⟩ := hother hp hne hl
      rw [hproc p hne]
      exact (hfs.dir (hz.roles hdir) hdne).1
    · intro p q hp hq hlp hlq heq
      obtain ⟨hpne, hlp⟩ := hlive hlp
      obtain ⟨hqne, hlq⟩ := hlive hlq
      rw [hproc p hpne, hproc q hqne] at heq
      exact h.inj p q hp hq hlp hlq heq
  · obtain ⟨⟨z, zptr⟩, hin, rfl⟩ := List.mem_map.1 hmem
    obtain ⟨-, -, v, hv, hslot, hsw, hframe⟩ := (hrec.lists z zptr).1 hin
    have hnamed := hdrop.named v _ (upages_lt hv) (pteOf_of_slot hslot) (swapped_flag hsw)
    have hslots : (s3.reaped z).swaparray = s1.swaparray := by
      rw [← show s2.swaparray = s1.swaparray by rw [hs2]; rfl]
      exact hfs.only.slots
    rw [hframe] at hnamed
    rw [hslots, hnamed, SwapSlot.dropOne, if_neg (by omega)]
    have hle := hrec.cnt_le
    have hdecr : decr32 (s.swaparray idx).cnt = (s.swaparray idx).cnt - 1 := by
      simp only [decr32, NPROC] at hle ⊢
      omega
    rw [hdecr]
  · intro p ptr
    by_cases hp : p = z
    · subst hp
      refine iff_of_false (fun hw => ?_) fun hw => hw.2 rfl
      have hl := hw.2.1
      rw [hself] at hl
      cases hl
    · rw [and_iff_left hp]
      have hsame := hproc p hp
      by_cases hpl : p < NPROC ∧ (s.proc p).state.live = true
      · obtain ⟨hdir, hdne⟩ := hother hpl.1 hp hpl.2
        refine waitsIn_congr (by rw [hsame]) (by rw [hsame]) fun v hv => ⟨?_, ?_⟩
        · have hmem : (s3.reaped z).mem (s.proc p).pgdir = s2.mem (s.proc p).pgdir :=
            (hfs.dir (hz.roles hdir) hdne).2
          refine (pteSlot_congr ?_).trans (hmaps.slot hdir)
          rw [tableOf, tableOf, hmem]
        · refine Eq.trans ?_ (hmaps.pte h.inv.tables hdir (upages_lt hv))
          exact hfs.pte hinv2.tables (hz.roles hd) (hz.roles hdir) hdne (upages_lt hv)
      · refine iff_of_false (fun hw => hpl ⟨hw.1, ?_⟩) fun hw => hpl ⟨hw.1, hw.2.1⟩
        have hl := hw.2.1
        rw [hsame] at hl
        exact hl
  · have hgone : (s.proc z).pgdir ∈ s3.freelist := (hinv3.frames.free_iff _).2 hfs.gone
    exact List.ne_nil_of_mem hgone

theorem Housed.wait (h : Housed own s) (hz : Reapable own s z) (hrec : RecordExact s idx)
    (hk : 2 ≤ (s.swaparray idx).cnt) (hmem : z ∈ (slotRecord s idx).map Prod.fst) :
    wp wait s (fun r s' => (∃ pid, r = some pid) ∧ ∃ own', ReapedOne own' idx z s s') E := by
  obtain ⟨hzlt, hzombie⟩ := hz.zombie
  have hd := h.dir z hzlt (by rw [hzombie]; rfl)
  unfold CowPaging.wait
  rw [wp_bind, wp_get, hz.next]
  simp only [wp_bind]
  refine wp_conseq (cleanProcData_drops h.inv hd hz.entries) fun _ s1 hdrop => ?_
  have hinv1 := h.dropped hz hdrop
  rw [wp_of_ok (kfree_eq hinv1.frames (by rw [hz.stack]; simp))]
  simp only [wp_modify]
  have hinv2 := (hinv1.freed (f := (s.proc z).kstack) (by rw [hz.stack]; trivial)
    (by rw [hz.stack]; simp) (by rw [hz.stack]; simp)).withProc
    (f := ((s1.freed (s.proc z).kstack).setProc z fun pr => { pr with kstack := 0 }).proc)
    s1.nextpid s1.cur s1.initproc fun hm => by cases hm
  refine wp_conseq (freevm2_spec hinv2 (hz.roles hd) (fun _ _ hno => by cases hno) z) ?_
  rintro - s3 ⟨own3, hinv3, hfs⟩
  exact ⟨⟨_, rfl⟩, own3, h.reapedOne hz hrec hk hmem hdrop rfl hinv2 hinv3 hfs⟩

end

/-! ### Two processes in one slot -/

section

variable {first second : Nat × PtePtr} {d v : Nat}

end

end CowPaging
