import CowPaging.VictimSpec

/-!
# Which accessed bits an eviction clears

`make_acces_bit_0` compares every page-table entry below every size with the word at its
argument, and rewrites that very word when it comes to it. `Swept` says what this does
to the page tables, for every process table: an entry with the word of the argument loses
its accessed bit if the scan reaches it before the argument. On this rest the exact
results about the sharers of a page and about `select_a_victim`.
-/

namespace CowPaging

open Bytes StateExcept SlotTable

variable {E : Halt → Prop} {s s' s₁ : Kernel} {d i p v : Nat} {orig q : PtePtr}
  {done : List PtePtr}

/-! ### The entries that a scan visits -/

/-- The entries of process `p` below its size, by address. -/
def procEntries (s : Kernel) (p : Nat) : List PtePtr :=
  (List.range (pagesOf (s.proc p).sz)).filterMap (pteSlot s (s.proc p).pgdir)

/-- The entries that `make_acces_bit_0` visits, in its order. -/
def scanned (s : Kernel) : List PtePtr := (List.range NPROC).flatMap (procEntries s)

/-- Every page below the size of every entry of the process table has a page-table entry. -/
structure Walkable (s : Kernel) : Prop where
  size : ∀ p, p < NPROC → (s.proc p).sz ≤ KERNBASE
  page : ∀ p v, p < NPROC → v * PGSIZE < (s.proc p).sz →
    ∃ ptr, pteSlot s (s.proc p).pgdir v = some ptr ∧ ptr.table < NFRAMES

theorem mem_procEntries : q ∈ procEntries s p ↔
    ∃ v, v * PGSIZE < (s.proc p).sz ∧ pteSlot s (s.proc p).pgdir v = some q := by
  simp only [procEntries, List.mem_filterMap, List.mem_range, pagesOf, mul_lt_iff_lt_roundup]

theorem mem_scanned : q ∈ scanned s ↔ ∃ p, p < NPROC ∧ q ∈ procEntries s p := by
  simp only [scanned, List.mem_flatMap, List.mem_range]

/-- The list comes to `q` before it has passed `orig`. -/
def Reached (orig : PtePtr) : List PtePtr → PtePtr → Prop
  | [], _ => False
  | x :: l, q => q = x ∨ (x ≠ orig ∧ Reached orig l q)

instance Reached.decidable (orig : PtePtr) : ∀ l q, Decidable (Reached orig l q)
  | [], _ => inferInstanceAs (Decidable False)
  | _ :: l, q => @instDecidableOr _ _ _ (@instDecidableAnd _ _ _ (Reached.decidable orig l q))

theorem Reached.mem {l : List PtePtr} (h : Reached orig l q) : q ∈ l := by
  induction l with
  | nil => exact h.elim
  | cons x l ih =>
    rcases h with rfl | ⟨-, h⟩
    · exact List.mem_cons_self
    · exact List.mem_cons_of_mem x (ih h)

theorem reached_self {l : List PtePtr} (h : orig ∈ l) : Reached orig l orig := by
  induction l with
  | nil => cases h
  | cons x l ih =>
    by_cases hx : orig = x
    · exact .inl hx
    · exact .inr ⟨Ne.symm hx, ih ((List.mem_cons.1 h).resolve_left hx)⟩

theorem reached_snoc {l : List PtePtr} {x : PtePtr} :
    Reached orig (l ++ [x]) q ↔ Reached orig l q ∨ (q = x ∧ orig ∉ l) := by
  induction l with
  | nil => simp [Reached]
  | cons y l ih => grind [Reached]

/-! ### `make_acces_bit_0` -/

/-- The state after the scan of the entries `done`. -/
structure Swept (orig : PtePtr) (s : Kernel) (done : List PtePtr) (s' : Kernel) : Prop where
  rest : s' = { s with mem := s'.mem }
  words : ∀ q, pteAt s' q = if pteAt s q = pteAt s orig ∧ Reached orig done q then
    pteAt s q &&& ~~~PTE_A else pteAt s q

theorem pteAt_storeWord (s : Kernel) (ptr q : PtePtr) (w : Word) :
    pteAt (s.storeWord ptr.table ptr.index w) q = if q = ptr then w else pteAt s q := by
  by_cases htable : q.table = ptr.table
  · have hmem : (s.storeWord ptr.table ptr.index w).mem q.table =
        stw (s.mem ptr.table) ptr.index w := by
      rw [htable]
      exact Function.update_self _ _ _
    rw [pteAt, hmem, ldw_stw]
    by_cases hindex : q.index = ptr.index
    · have hq : q = ptr := by
        cases q
        cases ptr
        rw [PtePtr.mk.injEq]
        exact ⟨htable, hindex⟩
      rw [if_pos hindex, if_pos hq]
    · rw [if_neg hindex, if_neg fun hq => hindex (by rw [hq]), pteAt, htable]
  · have hmem : (s.storeWord ptr.table ptr.index w).mem q.table = s.mem q.table :=
      Function.update_of_ne htable _ _
    rw [pteAt, hmem, if_neg fun hq => htable (by rw [hq]), pteAt]

theorem has_P_clearA (w : Word) : has (w &&& ~~~PTE_A) PTE_P = has w PTE_P := by
  rw [has_P, has_P, clearA_bit w (by decide)]

theorem clearA_clearA (w : Word) : w &&& ~~~PTE_A &&& ~~~PTE_A = w &&& ~~~PTE_A := by
  rw [BitVec.and_assoc, BitVec.and_self]

/-- Words that differ in the accessed bit only. -/
def SameButA (w' w : Word) : Prop := w' = w ∨ w' = w &&& ~~~PTE_A

theorem tableOf_congr (h : ∀ q, SameButA (pteAt s' q) (pteAt s q)) (d i : Nat) :
    tableOf s' d i = tableOf s d i := by
  have hword : SameButA (ldw (s'.mem d) i) (ldw (s.mem d) i) := h ⟨d, i⟩
  rcases hword with heq | heq
  · rw [tableOf, tableOf, heq]
  · rw [tableOf, tableOf, heq, has_P_clearA, frameOf_clearA]

theorem Swept.nil : Swept orig s [] s :=
  ⟨rfl, fun _ => by rw [if_neg fun h => h.2.elim]⟩

theorem Swept.sameButA (h : Swept orig s done s') (q : PtePtr) :
    SameButA (pteAt s' q) (pteAt s q) := by
  rw [h.words q]
  split
  · exact .inr rfl
  · exact .inl rfl

theorem Swept.slot (h : Swept orig s done s') (d v : Nat) : pteSlot s' d v = pteSlot s d v :=
  pteSlot_congr (tableOf_congr h.sameButA d _)

theorem Swept.proc (h : Swept orig s done s') : s'.proc = s.proc := by rw [h.rest]

/-- The scan comes to the entry `x`. -/
theorem Swept.visit (h : Swept orig s done s₁) (x : PtePtr) :
    Swept orig s (done ++ [x])
      (if pteAt s₁ x = pteAt s₁ orig then
        s₁.storeWord x.table x.index (pteAt s₁ x &&& ~~~PTE_A) else s₁) := by
  -- what the scan now finds at its argument
  have horig : pteAt s₁ orig = if orig ∈ done then pteAt s orig &&& ~~~PTE_A else pteAt s orig := by
    rw [h.words orig]
    by_cases hdone : orig ∈ done
    · rw [if_pos ⟨rfl, reached_self hdone⟩, if_pos hdone]
    · rw [if_neg fun hc => hdone hc.2.mem, if_neg hdone]
  by_cases heq : pteAt s₁ x = pteAt s₁ orig
  · rw [if_pos heq]
    refine ⟨by rw [Kernel.storeWord, Kernel.setPage, h.rest], fun q => ?_⟩
    rw [pteAt_storeWord]
    simp only [reached_snoc]
    by_cases hq : q = x
    · grind [h.words]
    · grind [h.words]
  · rw [if_neg heq]
    refine ⟨h.rest, fun q => ?_⟩
    rw [h.words q]
    simp only [reached_snoc]
    by_cases hq : q = x ∧ orig ∉ done
    · obtain ⟨rfl, hdone⟩ := hq
      by_cases hr : Reached orig done q
      · simp only [hr, true_or]
      · grind [pteAt, h.words]
    · simp only [hq, or_false]

theorem wp_walk_slot {Q : Option PtePtr → Kernel → Prop} (hv : v < UPAGES)
    (hslot : pteSlot s d v = some q) (ht : q.table < NFRAMES) (hQ : Q (some q) s) :
    wp (walkpgdir d (v * PGSIZE)) s Q E := by
  have hva : v * PGSIZE < 2 ^ 32 := mul_PGSIZE_lt (upages_lt hv)
  obtain ⟨htable, hindex⟩ := pteSlot_eq_some.1 hslot
  rw [tableOf] at htable
  split at htable
  · next hp =>
      have hframe := Option.some.inj htable
      rw [walkpgdir, wp_bind, wp_get, PDX_eq hva, PTX_eq, mul_PGSIZE_div]
      simp only [hp, if_true, hframe, ht, ← hindex]
      exact hQ
  · cases htable

theorem clearAccessedIn_words : ∀ {left i : Nat} {done : List PtePtr} {s₁ : Kernel},
    i + left ≤ UPAGES →
    (∀ u, i ≤ u → u < i + left → ∃ ptr, pteSlot s d u = some ptr ∧ ptr.table < NFRAMES) →
    Swept orig s done s₁ →
    wp (clearAccessedIn d orig left (i * PGSIZE)) s₁ (fun _ s' =>
      Swept orig s (done ++ (List.range' i left).filterMap (pteSlot s d)) s') E := by
  intro left
  induction left with
  | zero =>
    intro i done s₁ _ _ h
    rw [List.range'_zero, List.filterMap_nil, List.append_nil]
    exact h
  | succ left ih =>
    intro i done s₁ hle hpages h
    obtain ⟨q, hslot, ht⟩ := hpages i (Nat.le_refl i) (by omega)
    rw [clearAccessedIn, wp_bind]
    apply wp_walk_slot (by omega) ((h.slot d i).trans hslot) ht
    simp only [wp_bind, wp_loadPte]
    have hnext := ih (i := i + 1) (by omega) (fun u hlo hu => hpages u (by omega) (by omega))
      (h.visit q)
    rw [Nat.succ_mul, List.append_assoc] at hnext
    rw [List.range'_succ, List.filterMap_cons_some hslot]
    by_cases heq : pteAt s₁ q = pteAt s₁ orig
    · rw [if_pos heq] at hnext ⊢
      exact hnext
    · rw [if_neg heq] at hnext ⊢
      exact hnext

/-- What `make_acces_bit_0` does to the page tables. -/
theorem makeAccesBit0_words (h : Walkable s) (orig : PtePtr) :
    wp (makeAccesBit0 orig) s (fun _ s' => Swept orig s (scanned s) s') E := by
  rw [makeAccesBit0, scanned, ← Nat.zero_add NPROC]
  refine wp_loopFrom (fun p s' => Swept orig s ((List.range p).flatMap (procEntries s)) s') ?_ .nil
  intro p s₁ _ hp hswept
  rw [Nat.zero_add] at hp
  rw [wp_bind, wp_get, hswept.proc, List.range_succ, List.flatMap_append, List.flatMap_singleton,
    procEntries, List.range_eq_range' (n := pagesOf _)]
  have hpages : 0 + pagesOf (s.proc p).sz ≤ UPAGES := by
    have hsize := h.size p hp
    simp only [pagesOf, PGROUNDUP, UPAGES, KERNBASE, PGSIZE] at hsize ⊢
    omega
  have hspec := clearAccessedIn_words (E := E) hpages (fun u _ hu => h.page p u hp ?_) hswept
  · rwa [Nat.zero_mul] at hspec
  · rw [mul_lt_iff_lt_roundup]
    rw [Nat.zero_add] at hu
    exact hu

/-! ### The sharers of a page -/

/-- The entry `q`, below the size of a process, maps page `n`. -/
def Sharer (s : Kernel) (n : Nat) (q : PtePtr) : Prop :=
  q ∈ scanned s ∧ has (pteAt s q) PTE_P = true ∧ frameOf (pteAt s q) = n

instance (s : Kernel) (n : Nat) (q : PtePtr) : Decidable (Sharer s n q) :=
  inferInstanceAs (Decidable (_ ∧ _))

/-- Page `n` is mapped by equal entries with the accessed bit set, and one of them is the
    argument. All of them lose the bit, and no other entry changes, exactly if the scan
    comes to none of them only after it has passed the argument. -/
theorem accessed_bit_of_sharers {n : Nat} (h : Walkable s) (horig : Sharer s n orig)
    (hequal : ∀ q, Sharer s n q → pteAt s q = pteAt s orig)
    (hset : has (pteAt s orig) PTE_A = true) :
    ∃ s', makeAccesBit0 orig s = .ok ((), s') ∧
      (((∀ q, Sharer s n q → has (pteAt s' q) PTE_A = false) ∧
          ∀ q, ¬ Sharer s n q → pteAt s' q = pteAt s q) ↔
        ∀ q, Sharer s n q → Reached orig (scanned s) q) := by
  obtain ⟨_, s', hok, hswept⟩ := exists_ok_of_wp (makeAccesBit0_words h orig)
  refine ⟨s', hok, fun hclear q hq => ?_, fun hreach => ⟨fun q hq => ?_, fun q hq => ?_⟩⟩
  · grind [hswept.words]
  · grind [hswept.words, has_clearA]
  · rw [hswept.words q]
    split
    · next hc =>
        -- an entry with the word of the argument maps the same page
        have hshares : Sharer s n q := ⟨hc.2.mem, by rw [hc.1]; exact horig.2⟩
        exact (hq hshares).elim
    · rfl

/-- Two processes with one page each, which they share. -/
def sharingPair : Kernel :=
  let dir (t : Nat) : Page := stw (fun _ => 0) 0 (frameAddr t ||| PTE_P ||| PTE_W ||| PTE_U)
  let table : Page := stw (fun _ => 0) 0 (frameAddr 320 ||| PTE_P ||| PTE_U ||| PTE_A)
  { Kernel.zero with
    mem := fun f => if f = 310 then dir 311 else if f = 312 then dir 313
      else if f = 311 ∨ f = 313 then table else fun _ => 0
    proc := fun p =>
      if p = 0 then ⟨PGSIZE, PGSIZE, 310, 314, .running, 1, none, false⟩
      else if p = 1 then ⟨PGSIZE, PGSIZE, 312, 315, .runnable, 2, some 0, false⟩
      else Kernel.zero.proc p }

theorem sharingPair_walkable : Walkable sharingPair := by
  have hsize : ∀ p, 2 ≤ p → (sharingPair.proc p).sz = 0 := by
    intro p hp
    simp only [sharingPair, if_neg (by omega : ¬ p = 0), if_neg (by omega : ¬ p = 1)]
    rfl
  have hone : ∀ v, v * PGSIZE < PGSIZE → v = 0 := by
    intro v hv
    simp only [PGSIZE] at hv
    omega
  constructor
  · intro p _
    by_cases hp : 2 ≤ p
    · rw [hsize p hp]
      exact Nat.zero_le _
    · rcases (by omega : p = 0 ∨ p = 1) with rfl | rfl <;> decide
  · intro p v _ hv
    by_cases hp : 2 ≤ p
    · grind
    · rcases (by omega : p = 0 ∨ p = 1) with rfl | rfl
      · rw [hone v hv]
        exact ⟨⟨311, 0⟩, by decide +kernel, by decide⟩
      · rw [hone v hv]
        exact ⟨⟨313, 0⟩, by decide +kernel, by decide⟩

theorem sharingPair_scanned : scanned sharingPair = [⟨311, 0⟩, ⟨313, 0⟩] := by decide +kernel

theorem sharingPair_sharer : ∀ q, Sharer sharingPair 320 q ↔ q = ⟨311, 0⟩ ∨ q = ⟨313, 0⟩ := by
  intro q
  rw [Sharer, sharingPair_scanned, List.mem_cons, List.mem_singleton]
  constructor
  · exact fun hq => hq.1
  · intro hq
    refine ⟨hq, ?_⟩
    rcases hq with rfl | rfl <;> decide +kernel

/-- The argument belongs to the second of two processes: both entries lose the bit. -/
theorem accessed_bit_of_sharers_last : ∃ s', makeAccesBit0 ⟨313, 0⟩ sharingPair = .ok ((), s') ∧
    ∀ q, Sharer sharingPair 320 q → has (pteAt s' q) PTE_A = false := by
  have hequal : ∀ q, Sharer sharingPair 320 q → pteAt sharingPair q = pteAt sharingPair ⟨313, 0⟩ := by
    intro q hq
    rcases (sharingPair_sharer q).1 hq with rfl | rfl <;> decide +kernel
  obtain ⟨s', hok, hiff⟩ := accessed_bit_of_sharers sharingPair_walkable
    ((sharingPair_sharer _).2 (.inr rfl)) hequal (by decide +kernel)
  refine ⟨s', hok, (hiff.2 fun q hq => ?_).1⟩
  rw [sharingPair_scanned]
  rcases (sharingPair_sharer q).1 hq with rfl | rfl <;> decide

/-- The argument belongs to the first of two processes: the entry of the second one keeps
    the bit. -/
theorem accessed_bit_kept : Walkable sharingPair ∧
    (∀ q, Sharer sharingPair 320 q ↔ q = ⟨311, 0⟩ ∨ q = ⟨313, 0⟩) ∧
    pteAt sharingPair ⟨313, 0⟩ = pteAt sharingPair ⟨311, 0⟩ ∧
    has (pteAt sharingPair ⟨311, 0⟩) PTE_A = true ∧
    ∃ s', makeAccesBit0 ⟨311, 0⟩ sharingPair = .ok ((), s') ∧
      has (pteAt s' ⟨313, 0⟩) PTE_A = true := by
  refine ⟨sharingPair_walkable, sharingPair_sharer, by decide +kernel, by decide +kernel, ?_⟩
  obtain ⟨_, s', hok, hswept⟩ :=
    exists_ok_of_wp (makeAccesBit0_words sharingPair_walkable ⟨311, 0⟩)
  refine ⟨s', hok, ?_⟩
  rw [hswept.words, sharingPair_scanned, if_neg (by decide)]
  decide +kernel

/-! ### The victim process -/

/-- Process `a` is at least as good a victim as `b`. -/
def Outranks (s : Kernel) (a b : Nat) : Prop :=
  (s.proc b).rss < (s.proc a).rss ∨
    ((s.proc b).rss = (s.proc a).rss ∧ (s.proc a).pid ≤ (s.proc b).pid)

theorem Outranks.refl (s : Kernel) (a : Nat) : Outranks s a a := .inr ⟨rfl, Nat.le_refl _⟩

theorem Outranks.trans {a b c : Nat} (h : Outranks s a b) (h' : Outranks s b c) :
    Outranks s a c := by
  unfold Outranks at *
  omega

theorem betterVictim_outranks (s : Kernel) (best p : Nat) :
    Outranks s (betterVictim s best p) best ∧ Outranks s (betterVictim s best p) p := by
  unfold betterVictim
  split
  · next hlt => exact ⟨.inl hlt, .refl s p⟩
  · next hge => grind [Outranks]

theorem foldl_betterVictim_outranks (s : Kernel) (l : List Nat) (best : Nat) :
    Outranks s (l.foldl (betterVictim s) best) best ∧
      ∀ p ∈ l, Outranks s (l.foldl (betterVictim s) best) p := by
  induction l generalizing best with
  | nil => exact ⟨.refl s best, fun _ hp => by cases hp⟩
  | cons x l ih =>
    obtain ⟨hstart, hall⟩ := ih (betterVictim s best x)
    obtain ⟨hbest, hx⟩ := betterVictim_outranks s best x
    refine ⟨hstart.trans hbest, fun p hp => ?_⟩
    rcases List.mem_cons.1 hp with rfl | hp
    · exact hstart.trans hx
    · exact hall p hp

theorem selectVictimProcess_outranks (hp : p < NPROC) : Outranks s (selectVictimProcess s) p :=
  (foldl_betterVictim_outranks s _ s.cur).2 p (List.mem_range.2 hp)

/-! ### The victim page -/

/-- Page `v` of the directory is in memory. -/
def presentAt (s : Kernel) (d v : Nat) : Bool := has (entry s d v) PTE_P

/-- It is in memory and was not accessed. -/
def idleAt (s : Kernel) (d v : Nat) : Bool := presentAt s d v && !has (entry s d v) PTE_A

/-- The pages of process `p` that are in memory, by address. -/
def residentPages (s : Kernel) (p : Nat) : List Nat :=
  (List.range (pagesOf (s.proc p).sz)).filter (presentAt s (s.proc p).pgdir)

/-- Those of them that were not accessed. -/
def idlePages (s : Kernel) (p : Nat) : List Nat :=
  (List.range (pagesOf (s.proc p).sz)).filter (idleAt s (s.proc p).pgdir)

/-- No page of physical memory is mapped twice. -/
def MappedOnce (s : Kernel) : Prop :=
  ∀ p p' v v', p < NPROC → p' < NPROC → v ∈ residentPages s p → v' ∈ residentPages s p' →
    frameOf (entry s (s.proc p).pgdir v) = frameOf (entry s (s.proc p').pgdir v') →
    p = p' ∧ v = v'

theorem entry_of_slot (h : pteSlot s d v = some q) : entry s d v = pteAt s q :=
  entry_of_pte (pteOf_of_slot h)

theorem mem_residentPages : v ∈ residentPages s p ↔
    v * PGSIZE < (s.proc p).sz ∧ presentAt s (s.proc p).pgdir v = true := by
  rw [residentPages, List.mem_filter, List.mem_range, pagesOf, mul_lt_iff_lt_roundup]

/-- Only accessed bits are gone. -/
structure Faded (s s' : Kernel) : Prop where
  rest : s' = { s with mem := s'.mem }
  words : ∀ q, SameButA (pteAt s' q) (pteAt s q)

theorem Faded.slot (h : Faded s s') (d v : Nat) : pteSlot s' d v = pteSlot s d v :=
  pteSlot_congr (tableOf_congr h.words d _)

theorem Faded.proc (h : Faded s s') : s'.proc = s.proc := by rw [h.rest]

theorem Faded.walkable (h : Faded s s') (hw : Walkable s) : Walkable s' := by
  constructor
  · intro p hp
    rw [h.proc]
    exact hw.size p hp
  · intro p v hp hv
    rw [h.proc] at hv ⊢
    rw [h.slot]
    exact hw.page p v hp hv

theorem Faded.scanned (h : Faded s s') : scanned s' = scanned s := by
  have hslot : ∀ d, pteSlot s' d = pteSlot s d := fun d => funext (h.slot d)
  have hentries : procEntries s' = procEntries s := by
    funext p
    rw [procEntries, procEntries, h.proc, hslot]
  rw [CowPaging.scanned, CowPaging.scanned, hentries]

theorem SameButA.frame {w w' : Word} (h : SameButA w' w) : frameOf w' = frameOf w := by
  rcases h with rfl | rfl
  · rfl
  · exact frameOf_clearA w

theorem SameButA.present {w w' : Word} (h : SameButA w' w) : has w' PTE_P = has w PTE_P := by
  rcases h with rfl | rfl
  · rfl
  · exact has_P_clearA w

/-- The entries `l` lost the accessed bit, and nothing else changed. -/
structure Dimmed (s : Kernel) (l : List PtePtr) (s' : Kernel) : Prop where
  rest : s' = { s with mem := s'.mem }
  words : ∀ q, pteAt s' q = if q ∈ l then pteAt s q &&& ~~~PTE_A else pteAt s q

theorem Dimmed.faded {l : List PtePtr} (h : Dimmed s l s') : Faded s s' := by
  refine ⟨h.rest, fun q => ?_⟩
  rw [h.words q]
  split
  · exact .inr rfl
  · exact .inl rfl

theorem makeAccesBit0_alone {l : List PtePtr} (h : Walkable s) (hu : MappedOnce s) (hp : p < NPROC)
    (hv : v ∈ residentPages s p) (hq : pteSlot s (s.proc p).pgdir v = some q)
    (hdim : Dimmed s l s₁) :
    wp (makeAccesBit0 q) s₁ (fun _ s' => Dimmed s (l ++ [q]) s') E := by
  have hfade := hdim.faded
  refine wp_conseq (makeAccesBit0_words (hfade.walkable h) q) fun _ s' hswept => ?_
  obtain ⟨hbelow, hpresent⟩ := mem_residentPages.1 hv
  rw [presentAt, entry_of_slot hq] at hpresent
  have hmem : q ∈ scanned s := mem_scanned.2 ⟨p, hp, mem_procEntries.2 ⟨v, hbelow, hq⟩⟩
  -- another entry with the same word would map the same page
  have honly : ∀ x, x ∈ scanned s → pteAt s₁ x = pteAt s₁ q → x = q := by
    intro x hx heq
    obtain ⟨p', hp', hx⟩ := mem_scanned.1 hx
    obtain ⟨v', hbelow', hslot'⟩ := mem_procEntries.1 hx
    have hpresent' : has (pteAt s x) PTE_P = true := by
      rw [← (hfade.words x).present, heq, (hfade.words q).present]
      exact hpresent
    have hv' : v' ∈ residentPages s p' :=
      mem_residentPages.2 ⟨hbelow', by rw [presentAt, entry_of_slot hslot']; exact hpresent'⟩
    have hframe : frameOf (pteAt s q) = frameOf (pteAt s x) := by
      rw [← (hfade.words x).frame, heq, (hfade.words q).frame]
    obtain ⟨rfl, rfl⟩ := hu p p' v v' hp hp' hv hv' (by
      rw [entry_of_slot hq, entry_of_slot hslot']
      exact hframe)
    exact Option.some.inj (hslot'.symm.trans hq)
  refine ⟨by rw [hswept.rest, hdim.rest], fun x => ?_⟩
  rw [hswept.words x, hfade.scanned]
  by_cases hx : x = q
  · subst hx
    rw [if_pos ⟨rfl, reached_self hmem⟩, if_pos (List.mem_append_right l List.mem_cons_self),
      hdim.words x]
    split
    · exact clearA_clearA _
    · rfl
  · rw [if_neg fun hc => hx (honly x hc.2.mem hc.1), hdim.words x]
    simp only [List.mem_append, List.mem_singleton, hx, or_false]

theorem scanVictim_finds {rss : Nat} (hrss : PGSIZE ≤ rss) : ∀ {left i : Nat} (total : Nat),
    i + left ≤ UPAGES →
    (∀ u, i ≤ u → u < i + left → ∃ ptr, pteSlot s d u = some ptr ∧ ptr.table < NFRAMES) →
    wp (scanVictim d rss left (i * PGSIZE) total) s (fun r s' => s' = s ∧
      ((∃ v, ((List.range' i left).filter (idleAt s d)).head? = some v ∧ r.1 = pteSlot s d v) ∨
        ((List.range' i left).filter (idleAt s d) = [] ∧ r.1 = none ∧
          r.2 = total + ((List.range' i left).filter (presentAt s d)).length))) E := by
  intro left
  induction left with
  | zero => exact fun _ _ _ => ⟨rfl, .inr ⟨rfl, rfl, rfl⟩⟩
  | succ left ih =>
    intro i total hle hpages
    obtain ⟨q, hslot, ht⟩ := hpages i (Nat.le_refl i) (by omega)
    have hentry := entry_of_slot hslot
    rw [scanVictim, wp_bind]
    apply wp_walk_slot (by omega) hslot ht
    simp only [nonNull, wp_bind, wp_pure, wp_loadPte, List.range'_succ]
    rw [← Nat.succ_mul]
    have hrest := fun total => ih (i := i + 1) total (by omega)
      fun u hlo hu => hpages u (by omega) (by omega)
    by_cases hp : has (pteAt s q) PTE_P = true
    · rw [if_pos hp]
      by_cases ha : has (pteAt s q) PTE_A = true
      · have hidle : idleAt s d i = false := by rw [idleAt, presentAt, hentry, hp, ha]; rfl
        rw [if_neg (by rw [ha]; decide), List.filter_cons_of_neg (by rw [hidle]; decide),
          List.filter_cons_of_pos (by rw [presentAt, hentry]; exact hp), List.length_cons,
          ← Nat.add_assoc, Nat.add_right_comm]
        exact hrest (total + 1)
      · have hidle : idleAt s d i = true := by
          rw [idleAt, presentAt, hentry, hp, Bool.not_eq_true] at *
          rw [ha]
          rfl
        rw [if_pos (by rw [Bool.not_eq_true] at ha; rw [ha]; rfl), if_neg (by omega),
          List.filter_cons_of_pos hidle]
        exact ⟨rfl, .inl ⟨i, rfl, hslot.symm⟩⟩
    · have hpresent : ¬ presentAt s d i = true := by rw [presentAt, hentry]; exact hp
      have hidle : ¬ idleAt s d i = true := by grind [idleAt]
      rw [if_neg hp, List.filter_cons_of_neg hidle, List.filter_cons_of_neg hpresent]
      exact hrest total

/-- Where every page in memory was accessed and none is shared, giving up `total` accessed
    bits takes them from the lowest pages. -/
theorem clearSome_dims {total : Nat} (h : Walkable s) (hu : MappedOnce s) (hp : p < NPROC)
    (hnone : ∀ v ∈ residentPages s p, has (entry s (s.proc p).pgdir v) PTE_A = true) :
    ∀ {left i cnt : Nat} {l : List PtePtr} {s₁ : Kernel},
      i + left = pagesOf (s.proc p).sz → cnt < total →
      (∀ v ∈ residentPages s p, i ≤ v → ∀ q, pteSlot s (s.proc p).pgdir v = some q → q ∉ l) →
      Dimmed s l s₁ →
      wp (clearSome (s.proc p).pgdir total left (i * PGSIZE) cnt) s₁ (fun _ s' =>
        Dimmed s (l ++ (((List.range' i left).filter (presentAt s (s.proc p).pgdir)).take
          (total - cnt)).filterMap (pteSlot s (s.proc p).pgdir)) s') E := by
  intro left
  induction left with
  | zero =>
    intro i cnt l s₁ _ _ _ hdim
    rw [List.range'_zero, List.filter_nil, List.take_nil, List.filterMap_nil, List.append_nil]
    exact hdim
  | succ left ih =>
    intro i cnt l s₁ hleft hcnt hfresh hdim
    have hi : i * PGSIZE < (s.proc p).sz := by
      rw [mul_lt_iff_lt_roundup, ← pagesOf]
      omega
    have hupages : i < UPAGES := by
      have hsize := h.size p hp
      simp only [UPAGES, KERNBASE, PGSIZE] at hsize hi ⊢
      omega
    obtain ⟨q, hslot, ht⟩ := h.page p i hp hi
    have hentry := entry_of_slot hslot
    rw [clearSome, wp_bind]
    apply wp_walk_slot hupages ((hdim.faded.slot _ i).trans hslot) ht
    simp only [nonNull, wp_bind, wp_pure, wp_loadPte, List.range'_succ]
    rw [← Nat.succ_mul]
    by_cases hpresent : presentAt s (s.proc p).pgdir i = true
    · have hmem : i ∈ residentPages s p := mem_residentPages.2 ⟨hi, hpresent⟩
      have hword : pteAt s₁ q = pteAt s q := by
        rw [hdim.words q, if_neg (hfresh i hmem (Nat.le_refl i) q hslot)]
      have hset := hnone i hmem
      rw [List.filter_cons_of_pos hpresent]
      rw [presentAt, hentry] at hpresent
      rw [hentry] at hset
      rw [if_pos (by rw [hword, hpresent, hset]; rfl), wp_bind]
      refine wp_conseq (makeAccesBit0_alone h hu hp hmem hslot hdim) fun _ s2 hdim2 => ?_
      have htake : total - cnt = total - (cnt + 1) + 1 := by omega
      rw [htake, List.take_succ_cons, List.filterMap_cons_some hslot, List.append_cons]
      by_cases hlast : total ≤ cnt + 1
      · rw [if_pos hlast, show total - (cnt + 1) = 0 by omega, List.take_zero,
          List.filterMap_nil, List.append_nil]
        exact hdim2
      · rw [if_neg hlast]
        refine ih (by omega) (by omega) (fun v hv hlo x hx hin => ?_) hdim2
        rcases List.mem_append.1 hin with hin | hin
        · exact hfresh v hv (by omega) x hx hin
        · -- the pages `v` and `i` would have one entry
          rw [List.mem_singleton.1 hin] at hx
          have heq := hu p p v i hp hp hv hmem (by rw [entry_of_slot hx, hentry])
          omega
    · have habsent : ¬ (has (pteAt s₁ q) PTE_P && has (pteAt s₁ q) PTE_A) = true := by
        rw [Bool.and_eq_true, (hdim.faded.words q).present]
        intro hc
        rw [presentAt, hentry] at hpresent
        exact hpresent hc.1
      rw [if_neg habsent, if_neg (by omega), List.filter_cons_of_neg hpresent]
      exact ih (by omega) hcnt (fun v hv hlo => hfresh v hv (by omega)) hdim

theorem presentAt_faded (h : Faded s s') (d v : Nat) : presentAt s' d v = presentAt s d v := by
  rw [presentAt, presentAt, entry, entry, pteOf, pteOf, h.slot]
  cases pteSlot s d v with
  | none => rfl
  | some q => exact (h.words q).present

theorem head_idle {l : List Nat} {rest : List Nat} {ptrs : List PtePtr}
    (hdim : Dimmed s ptrs s') (hpres : l.filter (presentAt s d) = v :: rest)
    (hslot : pteSlot s d v = some q) (hq : q ∈ ptrs) :
    (l.filter (idleAt s' d)).head? = some v := by
  have hfade := hdim.faded
  have hidle : idleAt s' d v = true := by
    have hv : presentAt s d v = true := (List.mem_filter.1 (hpres ▸ List.mem_cons_self)).2
    rw [idleAt, presentAt_faded hfade, hv, entry_of_slot ((hfade.slot d v).trans hslot),
      hdim.words q, if_pos hq, has_clearA]
    rfl
  have hboth : l.filter (idleAt s' d) = (l.filter (presentAt s d)).filter (idleAt s' d) := by
    rw [List.filter_filter]
    refine List.filter_congr fun u _ => ?_
    rw [idleAt, presentAt_faded hfade]
    cases presentAt s d u <;> simp
  rw [hboth, hpres, List.filter_cons_of_pos hidle]
  rfl

/-- What `select_a_victim` makes of process `p`: its lowest page that was not accessed, and
    nothing changes; or, if all its pages in memory were accessed, the lowest one, and a tenth
    of them, rounded up, lose their accessed bits, the lowest ones. -/
def Picked (s : Kernel) (p : Nat) (ptr : PtePtr) (s' : Kernel) : Prop :=
  (∃ v, (idlePages s p).head? = some v ∧ pteSlot s (s.proc p).pgdir v = some ptr ∧ s' = s) ∨
    (idlePages s p = [] ∧
      (∃ v, (residentPages s p).head? = some v ∧ pteSlot s (s.proc p).pgdir v = some ptr) ∧
      Dimmed s (((residentPages s p).take (((residentPages s p).length + 9) / 10)).filterMap
        (pteSlot s (s.proc p).pgdir)) s')

theorem idle_present {ptr : PtePtr} (hv : idleAt s d v = true) (hslot : pteSlot s d v = some ptr) :
    has (pteAt s ptr) PTE_P = true := by
  rw [idleAt, presentAt, entry_of_slot hslot, Bool.and_eq_true] at hv
  exact hv.1

theorem selectAVictim_picks {vp : Nat} (h : Walkable s) (hu : MappedOnce s)
    (hvp : vp = selectVictimProcess s) (hlt : vp < NPROC) (hrss : PGSIZE ≤ (s.proc vp).rss)
    (hpresent : residentPages s vp ≠ []) :
    wp selectAVictim s (fun r s' => ∃ ptr, r = some ptr ∧ has (pteAt s' ptr) PTE_P = true ∧
      Picked s vp ptr s') E := by
  have hupages : 0 + pagesOf (s.proc vp).sz ≤ UPAGES := by
    have hsize := h.size vp hlt
    simp only [pagesOf, PGROUNDUP, UPAGES, KERNBASE, PGSIZE] at hsize ⊢
    omega
  have hpages : ∀ u, 0 ≤ u → u < 0 + pagesOf (s.proc vp).sz →
      ∃ ptr, pteSlot s (s.proc vp).pgdir u = some ptr ∧ ptr.table < NFRAMES := fun u _ hu' =>
    h.page vp u hlt (mul_lt_iff_lt_roundup.2 (by rw [← pagesOf]; omega))
  have hrange : ∀ {test : Nat → Bool} {v : Nat},
      ((List.range' 0 (pagesOf (s.proc vp).sz)).filter test).head? = some v →
      test v = true ∧ v < 0 + pagesOf (s.proc vp).sz := by grind
  have hpres : residentPages s vp = (List.range' 0 (pagesOf (s.proc vp).sz)).filter
      (presentAt s (s.proc vp).pgdir) := by rw [residentPages, List.range_eq_range']
  have hidle : idlePages s vp = (List.range' 0 (pagesOf (s.proc vp).sz)).filter
      (idleAt s (s.proc vp).pgdir) := by rw [idlePages, List.range_eq_range']
  simp only [selectAVictim, wp_bind, wp_get, ← hvp]
  have hscan := scanVictim_finds (E := E) hrss 0 hupages hpages
  rw [Nat.zero_mul] at hscan
  refine wp_conseq hscan ?_
  rintro ⟨o, total⟩ s₁ ⟨rfl, ⟨v, hhead, hfound⟩ | ⟨hempty, hnone, htotal⟩⟩
  · obtain ⟨hv, hin⟩ := hrange hhead
    obtain ⟨ptr, hslot, -⟩ := hpages v (Nat.zero_le v) hin
    simp only at hfound
    rw [hfound, hslot]
    exact ⟨ptr, rfl, idle_present hv hslot, .inl ⟨v, by rw [hidle]; exact hhead, hslot, rfl⟩⟩
  · simp only at hnone htotal
    subst hnone
    rw [Nat.zero_add, ← hpres] at htotal
    subst htotal
    rw [← hidle] at hempty
    obtain ⟨v, rest, hcons⟩ := List.exists_cons_of_ne_nil hpresent
    have haccessed : ∀ u ∈ residentPages s₁ vp, has (entry s₁ (s₁.proc vp).pgdir u) PTE_A = true := by
      intro u hmem
      by_contra ha
      have hin : u ∈ idlePages s₁ vp := by
        rw [idlePages, List.mem_filter, idleAt]
        rw [residentPages, List.mem_filter] at hmem
        refine ⟨hmem.1, ?_⟩
        rw [hmem.2, Bool.eq_false_of_not_eq_true ha]
        rfl
      rw [hempty] at hin
      cases hin
    have hpos : 0 < ((residentPages s₁ vp).length + 9) / 10 := by grind
    have hdim1 : Dimmed s₁ [] s₁ := ⟨rfl, fun _ => rfl⟩
    have hclear := clearSome_dims (E := E) h hu hlt haccessed
      (Nat.zero_add (pagesOf (s₁.proc vp).sz)) hpos (fun _ _ _ _ _ => List.not_mem_nil) hdim1
    rw [Nat.zero_mul, ← hpres, Nat.sub_zero, List.nil_append] at hclear
    rw [wp_bind]
    refine wp_conseq hclear fun _ s2 hdim => ?_
    -- the second scan runs into the lowest page
    have hv : v ∈ residentPages s₁ vp := by rw [hcons]; exact List.mem_cons_self
    obtain ⟨ptr, hslot, -⟩ := h.page vp v hlt (mem_residentPages.1 hv).1
    have htaken : ptr ∈ ((residentPages s₁ vp).take (((residentPages s₁ vp).length + 9) / 10)).filterMap
        (pteSlot s₁ (s₁.proc vp).pgdir) := by
      rw [List.mem_filterMap]
      refine ⟨v, ?_, hslot⟩
      rw [hcons, List.length_cons, show (rest.length + 1 + 9) / 10 = rest.length / 10 + 1 by omega,
        List.take_succ_cons]
      exact List.mem_cons_self
    have hhead := head_idle hdim (hpres.symm.trans hcons) hslot htaken
    have hslot2 := hdim.faded.slot (s₁.proc vp).pgdir
    have hscan2 := scanVictim_finds (E := E) (s := s2) hrss 0 hupages
      fun u hlo hlt => by rw [hslot2]; exact hpages u hlo hlt
    rw [Nat.zero_mul] at hscan2
    rw [wp_bind]
    refine wp_conseq hscan2 ?_
    rintro ⟨o, total⟩ s3 ⟨rfl, ⟨u, hu', hfound⟩ | ⟨hno, -⟩⟩
    · obtain rfl := Option.some.inj (hu'.symm.trans hhead)
      simp only at hfound
      rw [hfound, hslot2, hslot]
      refine ⟨ptr, rfl, idle_present (hrange hu').1 ((hslot2 u).trans hslot), .inr ⟨hempty, ?_, hdim⟩⟩
      exact ⟨u, by rw [hcons]; rfl, hslot⟩
    · rw [hno] at hhead
      cases hhead

/-- For every process table and page tables in which no page is shared: the victim process
    has the largest resident size and, among those, the smallest pid; and if it is charged for
    a page and has one in memory, a page of it is picked. -/
theorem victim_selected (h : Walkable s) (hu : MappedOnce s) (hcur : s.cur < NPROC) :
    selectVictimProcess s < NPROC ∧
    (∀ p, p < NPROC → (s.proc p).rss ≤ (s.proc (selectVictimProcess s)).rss ∧
      ((s.proc p).rss = (s.proc (selectVictimProcess s)).rss →
        (s.proc (selectVictimProcess s)).pid ≤ (s.proc p).pid)) ∧
    (PGSIZE ≤ (s.proc (selectVictimProcess s)).rss → residentPages s (selectVictimProcess s) ≠ [] →
      ∃ ptr s', selectAVictim s = .ok (some ptr, s') ∧ has (pteAt s' ptr) PTE_P = true ∧
        Picked s (selectVictimProcess s) ptr s') := by
  have hlt := selectVictimProcess_lt hcur
  refine ⟨hlt, fun p hp => ?_, fun hrss hpresent => ?_⟩
  · have hrank := selectVictimProcess_outranks (s := s) hp
    unfold Outranks at hrank
    omega
  · obtain ⟨r, s', hok, ptr, rfl, hpost⟩ :=
      exists_ok_of_wp (selectAVictim_picks h hu rfl hlt hrss hpresent)
    exact ⟨ptr, s', hok, hpost⟩

/-- The first of the two processes alone: its one page was accessed. -/
def oneProcess : Kernel :=
  { sharingPair with proc := fun p => if p = 0 then sharingPair.proc 0 else Kernel.zero.proc p }

theorem oneProcess_sz {p : Nat} (hp : p ≠ 0) : (oneProcess.proc p).sz = 0 := by
  simp only [oneProcess, if_neg hp]
  rfl

theorem oneProcess_page {p v : Nat} (hv : v * PGSIZE < (oneProcess.proc p).sz) : p = 0 ∧ v = 0 := by
  by_cases hp : p = 0
  · subst hp
    have hsz : (oneProcess.proc 0).sz = PGSIZE := rfl
    rw [hsz] at hv
    simp only [PGSIZE] at hv
    exact ⟨rfl, by omega⟩
  · rw [oneProcess_sz hp] at hv
    exact (Nat.not_lt_zero _ hv).elim

theorem oneProcess_walkable : Walkable oneProcess := by
  constructor
  · intro p _
    by_cases hp : p = 0
    · subst hp
      decide
    · rw [oneProcess_sz hp]
      exact Nat.zero_le _
  · intro p v _ hv
    obtain ⟨rfl, rfl⟩ := oneProcess_page hv
    exact ⟨⟨311, 0⟩, by decide +kernel, by decide⟩

theorem oneProcess_mappedOnce : MappedOnce oneProcess := by
  intro p p' v v' _ _ hv hv' _
  obtain ⟨rfl, rfl⟩ := oneProcess_page (mem_residentPages.1 hv).1
  obtain ⟨rfl, rfl⟩ := oneProcess_page (mem_residentPages.1 hv').1
  exact ⟨rfl, rfl⟩

theorem victim_selected_one : ∃ ptr s', selectAVictim oneProcess = .ok (some ptr, s') ∧
    Picked oneProcess 0 ptr s' := by
  have hvp : selectVictimProcess oneProcess = 0 := by decide +kernel
  have hsel := (victim_selected oneProcess_walkable oneProcess_mappedOnce (by decide)).2.2
  rw [hvp] at hsel
  obtain ⟨ptr, s', hok, -, hpicked⟩ := hsel (by decide) (by decide +kernel)
  exact ⟨ptr, s', hok, hpicked⟩

end CowPaging
