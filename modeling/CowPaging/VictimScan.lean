import CowPaging.FaultTransparency

/-!
# The scans of the victim search

`make_acces_bit_0` scans every entry of the process table and `find_pte_swap_out` every
entry in use; both trust the `sz` and `pgdir` they find there. That is right as long as an
entry with a size has an address space of its own. `wait` breaks it: a reaped entry keeps
its size and the number of the directory that was freed.

In a run in which no child is reaped and no shared page is evicted, every entry with a size
is live, also at the evictions inside a call. The routine `scanning` tests this before each
eviction; with it, every call does what it does without the test.
-/

namespace CowPaging

open Bytes StateExcept SlotTable
open Function (update_of_ne update_self update)

/-! ### Live address spaces -/

/-- Page `v` of the directory is in memory or swapped out. -/
def mapsPage (s : Kernel) (d v : Nat) : Bool :=
  (pteOf s d v).any fun w => has w PTE_P || isSwapped w

/-- The page of memory behind page `v` of the directory. -/
def frameAt (s : Kernel) (d v : Nat) : Option Nat :=
  ((pteOf s d v).filter fun w => has w PTE_P).map frameOf

/-- Entry `p` is a process; its directory is allocated, is no other entry's and no page of
    a process, and maps every page below the size. -/
def LiveSpace (s : Kernel) (p : Nat) : Prop :=
  (s.proc p).state.live = true ∧ (s.proc p).pgdir ∉ s.freelist ∧
    (∀ q, q < NPROC → (s.proc q).sz ≠ 0 → (s.proc q).pgdir = (s.proc p).pgdir → q = p) ∧
    (∀ q, q < NPROC → ∀ v, v < pagesOf (s.proc q).sz →
      frameAt s (s.proc q).pgdir v ≠ some (s.proc p).pgdir) ∧
    ∀ v, v < pagesOf (s.proc p).sz → mapsPage s (s.proc p).pgdir v = true

/-- What the scans rely on. -/
def ScanSafe (s : Kernel) : Prop :=
  ∀ p, p < NPROC → (s.proc p).sz ≠ 0 → LiveSpace s p

instance (s : Kernel) (p : Nat) : Decidable (LiveSpace s p) :=
  inferInstanceAs (Decidable (_ ∧ _ ∧ _ ∧ _ ∧ _))

instance (s : Kernel) : Decidable (ScanSafe s) :=
  inferInstanceAs (Decidable (∀ p, p < NPROC → _))

/-! ### The eviction routine -/

/-- `e` where `P` holds. -/
def guarded (P : Kernel → Prop) [DecidablePred P] (x : Halt) (e : K Unit) : K Unit := fun s =>
  if P s then e s else .error x

section

variable [KernelImage]

/-- The victim page has one sharer, which with `keep` is not the caller. -/
def Lone (keep : Bool) (s : Kernel) : Prop :=
  victimUnshared s = true ∧
    (keep = true → (s.proc (selectVictimProcess s)).pgdir ≠ (s.proc s.cur).pgdir)

instance (keep : Bool) : DecidablePred (Lone keep) := fun _ => inferInstanceAs (Decidable (_ ∧ _))

/-- The kernel's eviction routine, where no other process maps the page. -/
def lone (keep : Bool) : K Unit := guarded (Lone keep) .noEvict findNewPageAfterSwapping

/-- The same, and the kernel stops at an eviction whose scans are not safe. -/
def scanning (keep : Bool) : K Unit :=
  guarded (Lone keep) .noEvict (guarded ScanSafe .wild findNewPageAfterSwapping)

variable {mode : Mode} {keep : Bool} {own : Owners} {s s₀ s₁ s' : Kernel} {m : Flat} {p : Nat}
  {op : Op} {ops : List (Nat × Op)} {otherCpus : Nat} {initcode : List Byte} {I : Kernel → Prop}
  {x : Halt} {e e' : K Unit}

theorem Inv.scanSafe (h : Inv mode own (attachOf s) s) (hclean : Clean s) : ScanSafe s := by
  have hlive : ∀ q, q < NPROC → (s.proc q).sz ≠ 0 →
      attachOf s q = some ((s.proc q).pgdir, (s.proc q).sz) := by
    intro q hq hsz
    refine attachOf_eq_some.2 ⟨hq, ?_, rfl, rfl⟩
    cases hst : (s.proc q).state.live with
    | true => rfl
    | false => exact absurd (hclean.2 q hq hst) hsz
  intro p hp hsz
  have hatt := hlive p hp hsz
  have hdir := h.procs.dir _ _ _ hatt
  refine ⟨(attachOf_eq_some.1 hatt).2.1, ?_, ?_, ?_, ?_⟩
  · intro hmem
    have hfree := (h.frames.free_iff _).1 hmem
    rw [hdir] at hfree
    cases hfree
  · intro q hq hsz' heq
    have hatt' := hlive q hq hsz'
    rw [heq] at hatt'
    exact h.procs.inj _ _ _ _ _ hatt' hatt
  · intro q hq v hv heq
    have hlt := lt_pagesOf.2 hv
    have hatt' := hlive q hq (by omega)
    obtain ⟨w, hw, hpres, hf⟩ : ∃ w, pteOf s (s.proc q).pgdir v = some w ∧ has w PTE_P = true ∧
        frameOf w = (s.proc p).pgdir := by
      simpa only [frameAt, Option.map_eq_some_iff, Option.filter_eq_some_iff, and_assoc] using heq
    obtain ⟨-, hup, -⟩ := h.visible hatt' hlt
    have huser := (h.maps.user _ v w ⟨h.procs.dir _ _ _ hatt', hup, hw⟩ hpres).1
    rw [hf, hdir] at huser
    cases huser
  · intro v hv
    obtain ⟨w, hw, hmapped⟩ := h.procs.page _ _ _ v hatt (lt_pagesOf.2 hv)
    rw [mapsPage, hw, Option.any_some, Bool.or_eq_true]
    exact hmapped

/-! ### Sizes of entries that are not processes -/

/-- The caller is a process, and entries that are none have no size. -/
structure NoStale (s : Kernel) : Prop where
  cur : s.cur < NPROC
  live : (s.proc s.cur).state.live = true
  size : ∀ p, p < NPROC → (s.proc p).state.live = false → (s.proc p).sz = 0

omit [KernelImage] in
theorem NoStale.clean (h : NoStale s) : Clean s := ⟨h.cur, h.size⟩

omit [KernelImage] in
theorem NoStale.setProc {f : Proc → Proc} (h : NoStale s)
    (hlive : p = s.cur → (f (s.proc p)).state.live = true)
    (hsize : (f (s.proc p)).state.live = false → (f (s.proc p)).sz = 0) :
    NoStale (s.setProc p f) := by
  refine ⟨h.cur, ?_, ?_⟩
  · change (update s.proc p (f (s.proc p)) s.cur).state.live = true
    by_cases hp : s.cur = p
    · rw [hp, update_self]
      exact hlive hp.symm
    · rw [update_of_ne hp]
      exact h.live
  · intro q hq
    change (update s.proc p (f (s.proc p)) q).state.live = false →
      (update s.proc p (f (s.proc p)) q).sz = 0
    by_cases hp : q = p
    · rw [hp, update_self]
      exact hsize
    · rw [update_of_ne hp]
      exact h.size q hq

omit [KernelImage] in
theorem NoStale.setCur {f : Proc → Proc} (h : NoStale s)
    (hstate : (f (s.proc s.cur)).state.live = true) : NoStale (s.setProc s.cur f) :=
  h.setProc (fun _ => hstate) fun hdead => by grind

omit [KernelImage] in
theorem proc_setRss (s : Kernel) (p q r : Nat) :
    ∃ r', (s.setProc p fun pr => { pr with rss := r }).proc q = { s.proc q with rss := r' } := by
  by_cases hq : q = p
  · subst hq
    exact ⟨r, update_self _ _ _⟩
  · exact ⟨(s.proc q).rss, update_of_ne hq _ _⟩

omit [KernelImage] in
theorem resilient_noStale : Resilient NoStale where
  mem _ h := ⟨h.cur, h.live, h.size⟩
  rmap _ h := ⟨h.cur, h.live, h.size⟩
  slots _ h := ⟨h.cur, h.live, h.size⟩
  disk _ h := ⟨h.cur, h.live, h.size⟩
  pop _ h := ⟨h.cur, h.live, h.size⟩
  push _ h := ⟨h.cur, h.live, h.size⟩
  rss {s} p r h := by
    refine ⟨h.cur, ?_, fun q hq => ?_⟩
    · obtain ⟨r', hr⟩ := proc_setRss s p s.cur r
      exact hr ▸ h.live
    · obtain ⟨r', hr⟩ := proc_setRss s p q r
      rw [hr]
      exact h.size q hq

/-- The entry that `allocproc` took for a new process. -/
structure Newborn (np : Nat) (s : Kernel) : Prop extends NoStale s where
  other : np ≠ s.cur
  none : (s.proc np).sz = 0

omit [KernelImage] in
theorem resilient_newborn (np : Nat) : Resilient (Newborn np) where
  mem _ h := ⟨resilient_noStale.mem _ h.toNoStale, h.other, h.none⟩
  rmap _ h := ⟨resilient_noStale.rmap _ h.toNoStale, h.other, h.none⟩
  slots _ h := ⟨resilient_noStale.slots _ h.toNoStale, h.other, h.none⟩
  disk _ h := ⟨resilient_noStale.disk _ h.toNoStale, h.other, h.none⟩
  pop hl h := ⟨resilient_noStale.pop hl h.toNoStale, h.other, h.none⟩
  push _ h := ⟨resilient_noStale.push _ h.toNoStale, h.other, h.none⟩
  rss {s} p r h := by
    obtain ⟨r', hr⟩ := proc_setRss s p np r
    exact ⟨resilient_noStale.rss p r h.toNoStale, h.other, by rw [hr]; exact h.none⟩

omit [KernelImage] in
theorem Newborn.setProc {np : Nat} {f : Proc → Proc} (h : Newborn np s)
    (hsz : (f (s.proc np)).sz = (s.proc np).sz) : Newborn np (s.setProc np f) where
  toNoStale := h.toNoStale.setProc (fun heq => absurd heq h.other) fun _ => hsz.trans h.none
  other := h.other
  none := by
    change (update s.proc np (f (s.proc np)) np).sz = 0
    rw [update_self]
    exact hsz.trans h.none

/-! ### Calls -/

/-- What `allocproc` leaves. -/
def Taken : Option Nat → Kernel → Prop
  | none, s => NoStale s
  | some np, s => Newborn np s

section

variable (he : ∀ I, Resilient I → (∀ s, I s → NoStale s) → Follows x I e e' fun _ => I)
include he

omit [KernelImage] in
theorem follows_allocproc : Follows x NoStale (allocproc e) (allocproc e') Taken := by
  have hget : Follows x NoStale get get fun s t => t = s ∧ NoStale t :=
    follows_self fun s hs => ⟨rfl, hs⟩
  refine hget.bind fun s => ?_
  cases hslot : firstSlot NPROC fun p => decide ((s.proc p).state = .unused) with
  | none => exact follows_self fun _ hs => hs.2
  | some p =>
    obtain ⟨hp, htest⟩ := firstSlot_some hslot
    have hunused := of_decide_eq_true htest
    have hI := resilient_newborn p
    refine (follows_self (J := fun _ => Newborn p) ?_).bind fun _ =>
      (hI.kalloc (he _ hI fun _ h => h.toNoStale)).bind fun r => ?_
    · rintro t ⟨heq, hs⟩
      rw [heq] at hs
      have hne : p ≠ s.cur := by
        intro heq
        have hlive := hs.live
        rw [← heq, hunused] at hlive
        cases hlive
      have hsz : (s.proc p).sz = 0 := hs.size p hp (by rw [hunused]; rfl)
      have hborn : Newborn p s := ⟨hs, hne, hsz⟩
      have h := hborn.setProc (f := fun pr => { pr with state := .embryo, pid := s.nextpid }) rfl
      exact ⟨⟨h.cur, h.live, h.size⟩, h.other, h.none⟩
    · cases r with
      | none => exact follows_self fun s h => (h.setProc rfl).toNoStale
      | some f => exact follows_self fun s h => h.setProc rfl

theorem follows_fork : Follows x NoStale (fork e) (fork e') fun _ => NoStale := by
  refine (follows_allocproc he).bind fun r => ?_
  cases r with
  | none => exact follows_self fun _ h => h
  | some np =>
    have hI := resilient_newborn np
    have hev := he _ hI fun _ h => h.toNoStale
    refine Follows.bind (J := fun _ => Newborn np) (follows_self fun _ h => h) fun s => ?_
    refine (hI.copyuvm hev _ _ _).bind fun r => ?_
    cases r with
    | none =>
      refine Follows.bind (J := fun _ => Newborn np) (follows_self fun _ h => h) fun s => ?_
      refine (hI.kfree _).follows.bind fun _ => follows_self fun s h => ?_
      exact (h.setProc rfl).toNoStale
    | some c =>
      refine follows_self fun s h => ?_
      simp only [wp_bind, wp_modify, wp_get, wp_pure]
      exact h.toNoStale.setProc (fun _ => rfl) fun hdead => by cases hdead

theorem follows_growproc (n : Int) :
    Follows x NoStale (growproc e n) (growproc e' n) fun _ => NoStale := by
  have hI := resilient_noStale
  have hsize : ∀ sz, Stable NoStale (do
      modify fun s => s.setProc s.cur fun pr => { pr with sz := sz }
      pure 0 : K Int) := fun sz =>
    Stable.bind (stable_modify fun _ hs => hs.setCur hs.live) fun _ => stable_pure
  refine stable_get.follows.bind fun s => Follows.ite ?_ (Stable.follows ?_)
  · refine (hI.allocuvm (he _ hI fun _ h => h) _ _ _).bind fun sz => ?_
    exact (Stable.ite stable_pure (hsize sz)).follows
  · refine Stable.ite ?_ stable_pure
    exact (hI.deallocuvm _ _ _).bind fun sz => Stable.ite stable_pure (hsize sz)

theorem follows_exec (ip : Option File) (argv : List (List Byte)) :
    Follows x NoStale (exec e ip argv) (exec e' ip argv) fun _ => NoStale := by
  have hI := resilient_noStale
  have hev := he _ hI fun _ h => h
  cases ip with
  | none => exact stable_pure.follows
  | some ip =>
    refine stable_pure.follows.ite (stable_pure.follows.ite ((hI.setupkvm hev).bind fun r => ?_))
    cases r with
    | none => exact stable_pure.follows
    | some d =>
      refine (hI.execImage hev d ip argv).bind fun r => Stable.follows ?_
      cases r with
      | none => exact (hI.freevm d).bind fun _ => stable_pure
      | some sz =>
        refine stable_get.bind fun s => ?_
        refine Stable.bind (stable_modify fun _ hs => hs.setCur hs.live) fun _ => ?_
        exact (hI.freevm _).bind fun _ => stable_pure

end

omit [KernelImage] in
theorem stable_exit : Stable NoStale exit := by
  refine stable_read fun s hs => wp_ite (fun _ => trivial) fun _ => ?_
  have hset : NoStale { s with proc := fun p =>
      if p < NPROC ∧ (s.proc p).parent = some s.cur then
        { s.proc p with parent := s.initproc } else s.proc p } := by
    refine ⟨hs.cur, ?_, fun q hq => ?_⟩ <;> dsimp only <;> split
    · exact hs.live
    · exact hs.live
    · exact hs.size q hq
    · exact hs.size q hq
  exact hset.setCur rfl

/-- No child of `p` waits to be reaped. -/
def Unreaped (s : Kernel) (p : Nat) : Prop :=
  ∀ q, q < NPROC → (s.proc q).parent = some p → (s.proc q).state ≠ .zombie

theorem follows_wait :
    Follows x (fun s => NoStale s ∧ Unreaped s s.cur) wait wait fun _ => NoStale := by
  refine follows_self fun s hs => ?_
  unfold wait
  rw [wp_bind, wp_get]
  cases hslot : firstSlot NPROC fun p =>
      decide ((s.proc p).parent = some s.cur) && decide ((s.proc p).state = .zombie) with
  | none => exact wp_ite (fun _ => hs.1) fun _ => hs.1
  | some p =>
    obtain ⟨hp, htest⟩ := firstSlot_some hslot
    simp only [Bool.and_eq_true, decide_eq_true_eq] at htest
    exact absurd htest.2 (hs.2 p hp htest.1)

/-- The calls of the runs below. -/
def Lasting (s : Kernel) (p : Nat) (op : Op) : Prop :=
  Orderly s p op ∧ (op = .wait → Unreaped s p)

theorem follows_perform (he : ∀ I, Resilient I → (∀ s, I s → NoStale s) → Follows x I e e' fun _ => I)
    (p : Nat) (op : Op) :
    Follows x (fun s => Clean s ∧ Lasting s p op) (perform e p op) (perform e' p op)
      fun _ => NoStale := by
  have hI := resilient_noStale
  have hev := he _ hI fun _ h => h
  have hcur : Follows x (fun s => Clean s ∧ Lasting s p op)
      (modify fun s => { s with cur := p } : K Unit) (modify fun s => { s with cur := p })
      fun _ s => NoStale s ∧ (op = .wait → Unreaped s s.cur) := by
    refine follows_self ?_
    rintro s ⟨hs, ⟨hrun, -⟩, hwait⟩
    exact ⟨⟨hrun.1, (attachOf_eq_some.1 hrun.live).2.1, hs.2⟩, hwait⟩
  refine hcur.bind fun _ => ?_
  cases op with
  | wait =>
    refine Follows.bind (follows_wait.weaken fun s hs => ⟨hs.1, hs.2 rfl⟩) fun r => ?_
    cases r with
    | none => exact stable_pure.follows
    | some r => exact stable_pure.follows
  | fork => exact ((follows_fork he).weaken fun s hs => hs.1).bind fun _ => stable_pure.follows
  | exec ip argv =>
    exact ((follows_exec he ip argv).weaken fun s hs => hs.1).bind fun _ => stable_pure.follows
  | sbrk n =>
    exact ((follows_growproc he n).weaken fun s hs => hs.1).bind fun _ => stable_pure.follows
  | exit =>
    exact (stable_exit.follows.weaken fun s hs => hs.1).bind fun _ => stable_pure.follows
  | read va =>
    exact ((hI.userRead hev va).weaken fun s hs => hs.1).bind fun _ => stable_pure.follows
  | write va b =>
    exact ((hI.userWrite hev va b).weaken fun s hs => hs.1).bind fun _ => stable_pure.follows
  | fault va =>
    exact ((hI.handleFageFault hev va).weaken fun s hs => hs.1).bind fun _ =>
      stable_pure.follows
  | touch va =>
    exact ((hI.touch va).follows.weaken fun s hs => hs.1).bind fun _ => stable_pure.follows

/-! ### Evictions that test the scans -/

omit [KernelImage] in
theorem stable_guarded {P : Kernel → Prop} [DecidablePred P] (h : Stable I e) :
    Stable I (guarded P x e) := by
  refine ⟨fun s hs => ?_⟩
  have hkeep := h.keeps s hs
  unfold wp guarded at *
  by_cases hP : P s
  · rw [if_pos hP]
    exact hkeep
  · rw [if_neg hP]
    exact trivial

instance (keep : Bool) : DecidablePred (Spares keep) := fun s => inferInstanceAs (Decidable (Spares keep s))

/-- `spare` with the test of `scanning`. -/
def spareScanning (keep : Bool) : K Unit :=
  guarded (Spares keep) .noEvict (guarded ScanSafe .wild findNewPageAfterSwapping)

theorem follows_scanning (keep : Bool) (I : Kernel → Prop) (hI : Resilient I)
    (hstale : ∀ s, I s → NoStale s) :
    Follows .noEvict I (scanning keep) (spareScanning keep) fun _ => I := by
  refine ⟨fun s hs => .inr ?_, ?_⟩
  swap
  · exact (stable_guarded (stable_guarded hI.findNewPageAfterSwapping)).keeps
  unfold scanning spareScanning guarded
  by_cases hl : Lone keep s
  · have hsp : Spares keep s := ⟨(hstale s hs).clean, hl⟩
    rw [if_pos hl, if_pos hsp]
  · have hsp : ¬ Spares keep s := fun hsp => hl hsp.2
    rw [if_neg hl, if_neg hsp]

theorem evictOk_spareScanning : EvictOk Mode.shared keep (spareScanning keep) Stuck := by
  intro own s h hempty
  have hev : EvictOk Mode.shared keep (spare keep) Stuck := evictOk_spare rfl
  have hspare := hev own s h hempty
  unfold wp at hspare ⊢
  unfold spareScanning guarded
  by_cases hsp : Spares keep s
  · rw [if_pos hsp, if_pos (h.scanSafe hsp.1)]
    rw [spare, if_pos hsp] at hspare
    exact hspare
  · rw [if_neg hsp]
    exact .inl rfl

theorem scanning_stops (keep : Bool) :
    Follows .wild (fun _ => True) (scanning keep) (lone keep) fun _ _ => True := by
  refine ⟨fun s _ => ?_, fun _ _ => wp_trivial _⟩
  unfold scanning lone guarded
  by_cases hl : Lone keep s
  · grind
  · grind

theorem Refines.wp_lasting (h : Refines Mode.shared own s m) (hclean : Clean s)
    (hcall : Lasting s p op) :
    perform (scanning op.isFork) p op s = perform (lone op.isFork) p op s ∧
      wp (perform (lone op.isFork) p op) s
        (fun _ s' => Clean s' ∧ ∃ own' m', Refines Mode.shared own' s' m') Stuck := by
  obtain ⟨hrun, hadm⟩ := hcall.1.admits
  have hfollow := follows_perform (follows_scanning op.isFork) p op
  have hspec := perform_spec evictOk_spareScanning h hrun hadm
  have hends := hfollow.ends s ⟨hclean, hcall⟩
  have hscan : wp (perform (scanning op.isFork) p op) s
      (fun _ s' => Clean s' ∧ ∃ own' m', Refines Mode.shared own' s' m') Stuck := by
    rcases hfollow.same s ⟨hclean, hcall⟩ with hstop | hsame
    · unfold wp
      rw [hstop]
      exact .inl rfl
    · refine wp_conseq_and (Q := fun _ s' => ∃ own' m', Refines Mode.shared own' s' m') ?_ hends
        fun _ _ href hs => ⟨hs.clean, href⟩
      unfold wp at hspec ⊢
      rw [hsame]
      revert hspec
      cases perform (spareScanning op.isFork) p op s with
      | ok r => exact fun ⟨own', href, _⟩ => ⟨own', _, href⟩
      | error e => exact id
  have hsame : perform (scanning op.isFork) p op s = perform (lone op.isFork) p op s := by
    rcases (ofFreeList_true.perform (scanning_stops op.isFork) p op).same s trivial with
      hstop | hsame
    · have hstuck : Stuck .wild := wp_error (E := Stuck) hscan hstop
      rcases hstuck with h | h | h <;> cases h
    · exact hsame
  refine ⟨hsame, ?_⟩
  unfold wp at hscan ⊢
  rw [← hsame]
  exact hscan

/-! ### Runs -/

/-- A run in which no child is reaped and every page evicted had one sharer. -/
inductive LastingRun : Kernel → List (Nat × Op) → Kernel → Prop where
  | nil (s : Kernel) : LastingRun s [] s
  | cons {s s₁ s₂ : Kernel} {p : Nat} {op : Op} {r : Reply} {ops : List (Nat × Op)} :
      Lasting s p op → perform (lone op.isFork) p op s = .ok (r, s₁) →
      LastingRun s₁ ops s₂ → LastingRun s ((p, op) :: ops) s₂

theorem cautious_lone : Cautious (lone keep) findNewPageAfterSwapping := by
  intro s
  unfold lone guarded
  split
  · exact .inr rfl
  · exact .inl rfl

theorem LastingRun.steps (h : LastingRun s ops s') :
    ∃ rs, Steps findNewPageAfterSwapping Lasting s ops rs s' := by
  induction h with
  | nil s => exact ⟨[], .nil s⟩
  | cons hcall hperf _ ih =>
    obtain ⟨rs, hrest⟩ := ih
    exact ⟨_, .cons hcall ((cautious_lone.perform _ _).ok hperf) hrest⟩

theorem LastingRun.refines (hs : LastingRun s ops s') (h : Refines Mode.shared own s m)
    (hclean : Clean s) : Clean s' ∧ ∃ own' m', Refines Mode.shared own' s' m' := by
  induction hs generalizing own m with
  | nil s => exact ⟨hclean, own, m, h⟩
  | cons hcall hperf _ ih =>
    obtain ⟨hclean1, own1, m1, h1⟩ := wp_ok (h.wp_lasting hclean hcall).2 hperf
    exact ih h1 hclean1

theorem boot_cur (hboot : boot otherCpus initcode Kernel.zero = .ok ((), s₀)) : s₀.cur = 0 := by
  have hI : Resilient fun s => s.cur = 0 := ⟨fun _ h => h, fun _ h => h, fun _ h => h,
    fun _ h => h, fun _ _ h => h, fun _ h => h, fun _ h => h⟩
  have hev : Follows Halt.noEvict (fun s : Kernel => s.cur = 0) noEvict noEvict
    fun _ s => s.cur = 0 := stable_throw.follows
  have hproc : ∀ p f, Stable (fun s : Kernel => s.cur = 0) (modify fun s => s.setProc p f : K Unit) :=
    fun p f => stable_modify fun _ h => h
  have halloc : Stable (fun s : Kernel => s.cur = 0) (allocproc noEvict) := by
    refine stable_read fun s hs => ?_
    cases firstSlot NPROC fun p => decide ((s.proc p).state = .unused) with
    | none => exact hs
    | some p =>
      dsimp only
      rw [wp_bind, wp_set]
      refine ((hI.kalloc hev).stable.bind fun r => ?_).keeps _ hs
      cases r with
      | none => exact (hproc p _).bind fun _ => stable_pure
      | some f => exact (hproc p _).bind fun _ => stable_pure
  have hkvm := (hI.setupkvm hev).stable
  have huser : Stable (fun s : Kernel => s.cur = 0) (userinit noEvict initcode) := by
    refine halloc.bind fun r => ?_
    cases r with
    | none => exact stable_throw
    | some p =>
      refine Stable.bind (stable_modify fun _ h => h) fun _ => hkvm.bind fun r => ?_
      cases r with
      | none => exact stable_throw
      | some d =>
        refine (hproc p _).bind fun _ => (hI.inituvm hev d initcode).stable.bind fun _ => ?_
        exact hproc p _
  have hstable : Stable (fun s : Kernel => s.cur = 0) (boot otherCpus initcode) := by
    refine (stable_loopFrom (fun f => hI.kfree f) _ _).bind fun _ => hkvm.bind fun _ => ?_
    refine Stable.bind (stable_loopFrom (fun _ => ?_) _ _) fun _ => huser.bind fun _ => ?_
    · exact (hI.kalloc hev).stable.bind fun _ => stable_pure
    · exact stable_modify fun _ h => hI.slots _ h
  exact (wp_of_ok hboot).1 (hstable.keeps _ rfl)

theorem clean_of_boot (hboot : boot otherCpus initcode Kernel.zero = .ok ((), s₀)) : Clean s₀ := by
  refine ⟨by rw [boot_cur hboot]; decide, fun p _ hdead => ?_⟩
  by_cases hp : p = 0
  · subst hp
    rw [(first_page_present hboot).1] at hdead
    cases hdead
  · rw [(boot_first hboot).others p hp]
    rfl

/-- In `s`, and at every eviction of a call from `s`, an entry with a size has a live
    address space, and the scans find every page they look for. -/
structure ScansLive (s : Kernel) : Prop where
  now : ScanSafe s
  inside : ∀ p op, Lasting s p op →
    perform (scanning op.isFork) p op s = perform (lone op.isFork) p op s
  found : ∀ p op, Lasting s p op →
    perform (lone op.isFork) p op s ≠ .error (.panic .accesBit) ∧
      perform (lone op.isFork) p op s ≠ .error (.panic .findPteSwapOut)

theorem scans_live_without_reaping (hboot : boot otherCpus initcode Kernel.zero = .ok ((), s₀))
    (hrun : LastingRun s₀ ops s) : ScansLive s := by
  obtain ⟨own₀, h₀⟩ := refines_of_boot hboot
  obtain ⟨hclean, own, m, h⟩ :=
    hrun.refines ⟨h₀.kinv.shared, h₀.table, h₀.memory⟩ (clean_of_boot hboot)
  refine ⟨h.kinv.inv.scanSafe hclean, fun p op hcall => (h.wp_lasting hclean hcall).1, ?_⟩
  intro p op hcall
  have hspec := (h.wp_lasting hclean hcall).2
  constructor
  · intro hstop
    have hstuck : Stuck (.panic .accesBit) := wp_error (E := Stuck) hspec hstop
    rcases hstuck with h | h | h <;> cases h
  · intro hstop
    have hstuck : Stuck (.panic .findPteSwapOut) := wp_error (E := Stuck) hspec hstop
    rcases hstuck with h | h | h <;> cases h

theorem Steps.lasting {rs : List Reply} (hs : Steps noEvict Enabled s ops rs s')
    (h : Refines Mode.plenty own s m) (hops : ∀ x ∈ ops, x.2 ≠ .wait) : LastingRun s ops s' := by
  induction hs generalizing own m with
  | nil s => exact .nil s
  | @cons s s₁ s2 p op r ops rs hcall hperf _ ih =>
    have hsuff : Suffices Mode.plenty true Enabled := suffices_enabled rfl rfl rfl
    obtain ⟨hrun, hadm⟩ := hsuff _ _ _ _ _ h hcall
    have hres := h.kinv.resident rfl hrun
    have horder : Orderly s p op := by
      refine ⟨hrun, ?_⟩
      cases op with
      | fork => exact hres
      | exec ip argv => exact hadm.1
      | sbrk n => exact hadm.1
      | exit => exact hadm
      | wait => exact trivial
      | read va => exact hadm
      | write va b => exact hadm
      | fault va => exact hadm
      | touch va => exact hadm
    have hwait : op ≠ .wait := hops (p, op) List.mem_cons_self
    obtain ⟨own1, h1, -⟩ := wp_ok (perform_spec evictOk_plenty h hrun hadm) hperf
    refine .cons ⟨horder, fun heq => absurd heq hwait⟩
      (((cautious_noEvict _).perform _ _).ok hperf) (ih h1 ?_)
    exact fun x hx => hops x (List.mem_cons_of_mem _ hx)

/-! ### A reaped entry -/

theorem Steps.snoc {ok : Kernel → Nat → Op → Prop} {rs : List Reply} {r : Reply}
    (h : Steps e ok s ops rs s₁) (hcall : ok s₁ p op) (hperf : perform e p op s₁ = .ok (r, s')) :
    Steps e ok s (ops ++ [(p, op)]) (rs ++ [r]) s' := by
  induction h with
  | nil s => exact .cons hcall hperf (.nil s')
  | cons hcall1 hperf1 _ ih => exact .cons hcall1 hperf1 (ih hcall hperf)

/-- `wait` leaves the size and the directory of the child it reaps in the table, and the
    directory on the free list. -/
theorem wait_leaves_stale {c : Nat} (hslot : firstSlot NPROC (fun p =>
      decide ((s.proc p).parent = some s.cur) && decide ((s.proc p).state = .zombie)) = some c) :
    wp wait s (fun _ s' => (s'.proc c).state = .unused ∧ (s'.proc c).sz = (s.proc c).sz ∧
      (s'.proc c).pgdir = (s.proc c).pgdir ∧ (s.proc c).pgdir ∈ s'.freelist) fun _ => True := by
  obtain ⟨z, hz⟩ : ∃ z, z = (s.proc c).sz := ⟨_, rfl⟩
  obtain ⟨d, hd⟩ : ∃ d, d = (s.proc c).pgdir := ⟨_, rfl⟩
  have hI : Resilient fun t => (t.proc c).sz = z ∧ (t.proc c).pgdir = d := by
    refine ⟨fun _ h => h, fun _ h => h, fun _ h => h, fun _ h => h, ?_, fun _ h => h,
      fun _ h => h⟩
    intro t p r h
    obtain ⟨r', hr⟩ := proc_setRss t p c r
    rw [hr]
    exact h
  have hset : ∀ {t : Kernel} {f : Proc → Proc}, (t.proc c).sz = z ∧ (t.proc c).pgdir = d →
      (f (t.proc c)).sz = (t.proc c).sz → (f (t.proc c)).pgdir = (t.proc c).pgdir →
      ((t.setProc c f).proc c).sz = z ∧ ((t.setProc c f).proc c).pgdir = d := by
    intro t f h hsz hpg
    simp only [Kernel.setProc, update_self]
    exact ⟨hsz.trans h.1, hpg.trans h.2⟩
  unfold wait
  rw [wp_bind, wp_get, hslot, ← hz, ← hd]
  simp only [wp_bind]
  rw [← hd]
  refine wp_conseq ((hI.cleanProcData d).keeps s ⟨hz.symm, hd.symm⟩) fun _ s₁ h1 => ?_
  refine wp_conseq ((hI.kfree _).keeps s₁ h1) fun _ s2 h2 => ?_
  simp only [wp_modify]
  unfold freevm2
  simp only [wp_bind]
  refine wp_conseq ((hI.deallocuvm2 _ _ _ _).keeps _ (hset h2 rfl rfl)) fun _ s3 h3 => ?_
  have htables : Stable (fun t => (t.proc c).sz = z ∧ (t.proc c).pgdir = d) (freeTables d) :=
    stable_loopFrom (fun i => stable_get.bind fun _ => (hI.kfree _).ite stable_pure) _ _
  refine wp_conseq (htables.keeps s3 h3) fun _ s4 h4 => ?_
  unfold kfree
  refine wp_ite (fun _ => trivial) fun _ => ?_
  simp only [wp_modify, wp_pure]
  obtain ⟨hsz, hpg⟩ := hset (f := fun pr =>
    { pr with pid := 0, parent := none, killed := false, state := .unused }) h4 rfl rfl
  refine ⟨?_, hsz, hpg, List.mem_cons_self⟩
  simp only [Kernel.setProc, update_self]

end

/-- The first process forks and its child reads a byte. -/
theorem scans_live_sample : letI := KernelImage.sample
    ∃ s₀ s, boot 1 [7] Kernel.zero = .ok ((), s₀) ∧
      LastingRun s₀ [(0, .fork), (1, .read 0)] s ∧ ScansLive s := by
  let _ := KernelImage.sample
  obtain ⟨s₀, s, hboot, hsteps⟩ := sample_run (by decide)
  obtain ⟨own, h⟩ := refines_of_boot hboot
  have hrun := hsteps.lasting h (by simp)
  exact ⟨s₀, s, hboot, hrun, scans_live_without_reaping hboot hrun⟩

/-- The child exits and is reaped: its entry is scanned from then on, with a directory that
    is on the free list. -/
theorem stale_entry_after_wait : letI := KernelImage.sample
    ∃ s₀ rs s, boot 1 [7] Kernel.zero = .ok ((), s₀) ∧
      Steps findNewPageAfterSwapping Enabled s₀
        [(0, .fork), (1, .read 0), (1, .exit), (0, .wait)] rs s ∧
      (s.proc 1).state = .unused ∧ (s.proc 1).sz = PGSIZE ∧ (s.proc 1).pgdir ∈ s.freelist ∧
      ¬ ScanSafe s := by
  let _ := KernelImage.sample
  obtain ⟨s₀, s₂, hboot, hsteps⟩ := sample_run (by decide)
  obtain ⟨own₂, h₂, -⟩ := refines_of_steps hboot hsteps
  have hstate₂ : (s₂.proc 1).state = .runnable := by rw [← h₂.table.state]; rfl
  have hrun₂ : Runs s₂ 1 := ⟨by decide, .inr (.inl hstate₂)⟩
  have hinit₂ : s₂.initproc ≠ some 1 := by
    rw [← h₂.table.initproc]
    exact fun heq => by cases heq
  have hexit : wp (perform noEvict 1 .exit) s₂ (fun r s₃ => ∃ own₃, Refines Mode.plenty own₃ s₃
      (((Flat.boot [7]).run [(0, .fork), (1, .read 0)]).2.exit 1).2) fun _ => False := by
    unfold perform
    simp only [wp_bind, wp_modify]
    exact wp_conseq ((h₂.withCur hrun₂.1).wp_exit hrun₂ hinit₂) fun _ s₃ h => ⟨_, h⟩
  obtain ⟨r₃, s₃, hperf₃, own₃, h₃⟩ := exists_ok_of_wp hexit
  have hsteps₃ := hsteps.snoc ⟨hrun₂, hinit₂⟩ hperf₃
  have hstate₃ : (s₃.proc 0).state = .runnable := by rw [← h₃.table.state]; rfl
  have hrun₃ : Runs s₃ 0 := ⟨by decide, .inr (.inl hstate₃)⟩
  have hzombie : (s₃.proc 1).state = .zombie := by rw [← h₃.table.state]; rfl
  have hsize : (s₃.proc 1).sz = PGSIZE := by
    rw [← h₃.seesAs.size 1 (by decide) (by rw [hzombie]; rfl)]
    rfl
  -- the child is the one found by the scan of `wait`
  have hslot : firstSlot NPROC (fun p => decide ((s₃.proc p).parent = some 0) &&
      decide ((s₃.proc p).state = .zombie)) = some 1 := by
    simp only [← h₃.table.parent, ← h₃.table.state]
    rfl
  have hwait : wp (perform noEvict 0 .wait) s₃ (fun _ s => (s.proc 1).state = .unused ∧
      (s.proc 1).sz = (s₃.proc 1).sz ∧ (s.proc 1).pgdir ∈ s.freelist) fun _ => False := by
    unfold perform
    simp only [wp_bind, wp_modify]
    refine wp_conseq_and ((h₃.withCur hrun₃.1).wp_wait rfl) (wait_leaves_stale hslot) ?_
    rintro r s - ⟨hunused, hsz, hpg, hfree⟩
    cases r with
    | none => exact ⟨hunused, hsz, hpg ▸ hfree⟩
    | some r => exact ⟨hunused, hsz, hpg ▸ hfree⟩
  obtain ⟨r₄, s, hperf₄, hunused, hsz, hfree⟩ := exists_ok_of_wp hwait
  have hsteps₄ := (hsteps₃.snoc ⟨hrun₃, trivial⟩ hperf₄).evicting
  refine ⟨s₀, _, s, hboot, hsteps₄, hunused, hsz.trans hsize, hfree, fun hsafe => ?_⟩
  exact (hsafe 1 (by decide) (by rw [hsz, hsize]; decide)).2.1 hfree

end CowPaging
