import CowPaging.Reap

/-!
# Runs

One call by one process keeps `Refines`, with the reply of the reference machine;
so does every run. What a call must satisfy depends on the study: `Admits` lists
it call by call.
-/

namespace CowPaging

open Bytes StateExcept SlotTable

variable [KernelImage] {mode : Mode} {keep : Bool} {evict : K Unit} {E : Halt → Prop}
  {own own' : Owners} {att : Attach} {s s' : Kernel} {d z v p : Nat} {m m' : Flat} {op : Op}

/-! ### Pages in memory -/

/-- Every page of the process is in memory. -/
def Resident (s : Kernel) (p : Nat) : Prop :=
  ∀ v, v * PGSIZE < (s.proc p).sz → has (entry s (s.proc p).pgdir v) PTE_P = true

/-- Mapped pages of a directory are on different pages of memory, so there are at most
    `NFRAMES`. -/
theorem Inv.mapped_le {lo hi : Nat} (h : Inv mode own att s) (hd : own d = .dir)
    (hhi : hi ≤ UPAGES)
    (hres : ∀ v, lo ≤ v → v < hi → has (entry s d v) PTE_P = true) : hi - lo ≤ NFRAMES := by
  have hu : ∀ i, i < hi - lo → Upte own s d (lo + i) (entry s d (lo + i)) ∧
      has (entry s d (lo + i)) PTE_P = true := by
    intro i hi
    have hp := hres (lo + i) (by omega) (by omega)
    exact ⟨⟨hd, by omega, pteOf_of_entry hp⟩, hp⟩
  have hcard := Finset.card_le_card_of_injOn (s := Finset.range (hi - lo))
    (t := Finset.range NFRAMES) (fun i => frameOf (entry s d (lo + i))) ?_ ?_
  · simpa using hcard
  · intro i hi
    obtain ⟨hup, hp⟩ := hu i (Finset.mem_range.1 hi)
    exact Finset.mem_coe.2 (Finset.mem_range.2 (h.frame_lt hup hp))
  · intro i hi j hj heq
    obtain ⟨hup, hp⟩ := hu i (Finset.mem_range.1 (Finset.mem_coe.1 hi))
    obtain ⟨hup', hp'⟩ := hu j (Finset.mem_range.1 (Finset.mem_coe.1 hj))
    have := h.maps.once d _ _ _ _ hup hup' hp hp' heq
    omega

theorem Inv.pages_le (h : Inv mode own att s) (hatt : att p = some (d, z))
    (hres : ∀ v, v * PGSIZE < z → has (entry s d v) PTE_P = true) : pagesOf z ≤ NFRAMES := by
  have hz := h.procs.size p d z hatt
  have hle : pagesOf z ≤ UPAGES := by
    simp only [pagesOf, PGROUNDUP, PGSIZE, UPAGES, KERNBASE] at hz ⊢
    omega
  exact h.mapped_le (h.procs.dir p d z hatt) hle
    fun v (_ : 0 ≤ v) hv => hres v (lt_pagesOf.2 hv)

theorem KInv.resident (h : KInv mode own s) (hmode : mode.resident = true) (hrun : Runs s p) :
    Resident s p := by
  intro v hv
  have hlive := hrun.live
  obtain ⟨w, hw, hp | hsw⟩ := h.inv.procs.page _ _ _ v hlive hv
  · rw [entry_of_pte hw]
    exact hp
  · obtain ⟨-, hlt, -⟩ := h.inv.visible hlive hv
    have hrec := h.inv.procs.slot _ _ _ v w hlive hlt hw hsw
    have hbusy := hrec.busy
    rw [h.inv.resident hmode _ hrec.slot] at hbusy
    cases hbusy

theorem KInv.argsFit {argv : List (List Byte)} (h : KInv mode own s) (hrun : Runs s p)
    (hres : Resident s p) (hargs : ∀ arg ∈ argv, arg.length < (s.proc p).sz) :
    ArgsFit argv := by
  intro arg harg
  have hlen := hargs arg harg
  have hpages := h.inv.pages_le hrun.live hres
  simp only [pagesOf, PGROUNDUP, NFRAMES, PHYSTOP, PGSIZE] at hpages
  omega

/-! ### One call -/

/-- User code may use the page at `va`. -/
def Accessible (s : Kernel) (p va : Nat) : Prop :=
  va < (s.proc p).sz ∧ ∃ page, view s (s.proc p).pgdir (va / PGSIZE) = some (page, true)

/-- What the study asks of a call by `p`. -/
def Admits (mode : Mode) (keep : Bool) (s : Kernel) (p : Nat) : Op → Prop
  | .fork => mode.single = false ∧ keep = true ∧ Resident s p
  | .exec _ argv => ArgsFit argv ∧
      (mode.strict = true → keep = true ∧ Unswapped s (s.proc p).pgdir 0)
  | .sbrk n => (n < 0 → addSigned (s.proc p).sz n ≠ 0) ∧
      (mode.strict = true → n < 0 →
        Unswapped s (s.proc p).pgdir (addSigned (s.proc p).sz n))
  | .exit => s.initproc ≠ some p
  | .wait => mode.single = false
  | .read va => Accessible s p va
  | .write va _ => Accessible s p va
  | .fault va => va < (s.proc p).sz
  | .touch va => va < (s.proc p).sz

theorem Refines.withCur (h : Refines mode own s m) (hp : p < NPROC) :
    Refines mode own { s with cur := p } m where
  kinv := ⟨h.kinv.inv.withProc s.nextpid p s.initproc
    fun hm => ⟨hp, (h.kinv.inv.idle hm).2⟩, h.kinv.kstack,
    h.kinv.attached, h.kinv.above, h.kinv.settled,
    fun K hK => (h.kinv.ledger K hK).step (fun _ _ => rfl) (fun _ _ => rfl)
      fun _ _ hused => ⟨hused, rfl⟩⟩
  table := ⟨h.table.state, h.table.pid, h.table.parent, h.table.killed, h.table.nextpid,
    h.table.initproc⟩
  memory q d z hq := ⟨(h.memory q d z hq).size, (h.memory q d z hq).seen⟩

theorem Refines.user {va : Nat} (h : Refines mode own s m) (hrun : Runs s p)
    (ha : Accessible s p va) : (m.proc p).memory.user (va / PGSIZE) = true := by
  obtain ⟨hlt, page, hview⟩ := ha
  have hseen := (h.memory _ _ _ hrun.live).seen (va / PGSIZE) (page_lt hlt)
  obtain ⟨_, _, user, h1, h2, -⟩ := hseen
  rw [hview] at h2
  rw [(Prod.mk.inj (Option.some.inj h1)).2, ← (Prod.mk.inj (Option.some.inj h2)).2]

theorem Refines.wp_fault {va : Nat} (hev : EvictOk mode keep evict E) (h : Refines mode own s m)
    (hrun : Runs s s.cur) (hva : va < (s.proc s.cur).sz) :
    wp (handleFageFault evict va) s (fun _ s' => ∃ own', Refines mode own' s' m) E := by
  refine wp_conseq (handleFageFault_spec hev h.kinv.inv hrun.live (page_lt hva)) ?_
  rintro - s' ⟨own', hf⟩
  refine ⟨own', h.step hf.keeps hf.inv hf.pres hf.quiet ?_⟩
  rintro e u ⟨rfl, rfl⟩
  exact ⟨_, _, hrun.live, page_lt hva⟩

omit [KernelImage] in
theorem setA_bits (w : Word) :
    SameTarget (w ||| PTE_A) w ∧ has (w ||| PTE_A) PTE_W = has w PTE_W :=
  translated_bits false w

theorem Refines.wp_touch {va : Nat} (h : Refines mode own s m) (hrun : Runs s s.cur)
    (hva : va < (s.proc s.cur).sz) :
    wp (touch va) s (fun _ s' => Refines mode own s' m) E := by
  have ha : Addressed s (s.proc s.cur).pgdir (s.proc s.cur).sz va := ⟨hrun.live, page_lt hva⟩
  have hd := ha.dir h.kinv.inv
  have hv := ha.upages h.kinv.inv
  unfold touch
  rw [wp_bind, wp_get, wp_bind, h.kinv.inv.walk hd (ha.va_lt h.kinv.inv)]
  cases hslot : pteSlot s (s.proc s.cur).pgdir (va / PGSIZE) with
  | none => exact h
  | some ptr =>
    simp only [wp_bind, wp_loadPte]
    refine wp_ite (fun hp => ?_) fun _ => h
    rw [wp_storePte]
    obtain ⟨htarget, hW⟩ := setA_bits (pteAt s ptr)
    obtain ⟨hinv, hpres, hquiet, -⟩ := flags_step h.kinv.inv hd hv hslot hp htarget fun hw =>
      h.kinv.inv.maps.writable _ _ _ ⟨hd, hv, pteOf_of_slot hslot⟩ hp (by rw [← hW]; exact hw)
    refine h.step (Keeps.refl own) hinv hpres hquiet ?_
    rintro e u ⟨rfl, rfl⟩
    exact ⟨_, _, hrun.live, page_lt hva⟩

theorem perform_spec (hev : EvictOk mode keep evict E) (h : Refines mode own s m)
    (hrun : Runs s p) (hadm : Admits mode keep s p op) :
    wp (perform evict p op) s (fun r s' => ∃ own', Refines mode own' s' (m.perform p op).2 ∧
      r = (m.perform p op).1) E := by
  have hc := h.withCur hrun.1
  have hruns : Runs { s with cur := p } ({ s with cur := p } : Kernel).cur := hrun
  unfold perform
  rw [wp_bind, wp_modify]
  cases op with
  | fork =>
    obtain ⟨hmode, rfl, hres⟩ := hadm
    simp only [wp_bind]
    refine wp_conseq (hc.wp_fork (k := 0) (.inr hev) hmode hruns hres) ?_
    rintro r s' ⟨⟨own', href⟩, hreply, -⟩
    exact ⟨own', href, hreply⟩
  | exec ip argv =>
    simp only [wp_bind]
    exact wp_conseq (hc.wp_exec hev hruns hadm.1 hadm.2) fun r s' hr => hr
  | sbrk n =>
    simp only [wp_bind]
    refine wp_conseq (hc.wp_growproc hev hruns hadm.1 hadm.2) ?_
    rintro r s' ⟨own', href, rfl⟩
    exact ⟨own', href, rfl⟩
  | exit =>
    simp only [wp_bind]
    exact wp_conseq (hc.wp_exit hruns hadm) fun _ s' hr => ⟨own, hr, rfl⟩
  | wait =>
    simp only [wp_bind]
    refine wp_conseq (hc.wp_wait hadm) ?_
    rintro r s' ⟨own', href, hreply⟩
    cases r with
    | none => exact ⟨own', href, hreply⟩
    | some r => exact ⟨own', href, hreply⟩
  | read va =>
    simp only [wp_bind]
    refine wp_conseq (hc.wp_userRead hev hruns hadm.1 (h.user hrun hadm)) ?_
    rintro b s' ⟨own', href, rfl⟩
    exact ⟨own', href, rfl⟩
  | write va b =>
    simp only [wp_bind]
    refine wp_conseq (hc.wp_userWrite hev hruns hadm.1 (h.user hrun hadm)) ?_
    rintro - s' ⟨own', href⟩
    exact ⟨own', href, rfl⟩
  | fault va =>
    simp only [wp_bind]
    refine wp_conseq (hc.wp_fault hev hruns hadm) ?_
    rintro - s' ⟨own', href⟩
    exact ⟨own', href, rfl⟩
  | touch va =>
    simp only [wp_bind]
    exact wp_conseq (hc.wp_touch hruns hadm) fun _ s' href => ⟨own, href, rfl⟩

/-! ### Runs -/

/-- A run from one state to another: the calls made, each by the process named with
    it and each meeting `ok` in the state it is made in, and the replies. -/
inductive Steps (evict : K Unit) (ok : Kernel → Nat → Op → Prop) :
    Kernel → List (Nat × Op) → List Reply → Kernel → Prop where
  | nil (s : Kernel) : Steps evict ok s [] [] s
  | cons {s s₁ s₂ : Kernel} {p : Nat} {op : Op} {r : Reply} {ops : List (Nat × Op)}
      {rs : List Reply} : ok s p op → perform evict p op s = .ok (r, s₁) →
      Steps evict ok s₁ ops rs s₂ → Steps evict ok s ((p, op) :: ops) (r :: rs) s₂

/-- What `ok` promises is enough for the study. -/
def Suffices (mode : Mode) (keep : Bool) (ok : Kernel → Nat → Op → Prop) : Prop :=
  ∀ own s m p op, Refines mode own s m → ok s p op → Runs s p ∧ Admits mode keep s p op

theorem Steps.refines {ok : Kernel → Nat → Op → Prop} {ops : List (Nat × Op)}
    {rs : List Reply} (hev : EvictOk mode keep evict E) (hok : Suffices mode keep ok)
    (hs : Steps evict ok s ops rs s') (h : Refines mode own s m) :
    ∃ own', Refines mode own' s' (m.run ops).2 ∧ rs = (m.run ops).1 := by
  induction hs generalizing own m with
  | nil s => exact ⟨own, h, rfl⟩
  | cons hcall hperf _ ih =>
    obtain ⟨hrun, hadm⟩ := hok _ _ _ _ _ h hcall
    obtain ⟨own1, h1, hreply⟩ := wp_ok (perform_spec hev h hrun hadm) hperf
    obtain ⟨own2, h2, hreplies⟩ := ih h1
    exact ⟨own2, h2, by rw [hreply, hreplies]; rfl⟩

theorem Refines.halts {ok : Kernel → Nat → Op → Prop} {e : Halt}
    (hev : EvictOk mode keep evict E) (hok : Suffices mode keep ok) (h : Refines mode own s m)
    (hcall : ok s p op) (hperf : perform evict p op s = .error e) : E e := by
  obtain ⟨hrun, hadm⟩ := hok _ _ _ _ _ h hcall
  exact wp_error (perform_spec hev h hrun hadm) hperf

/-! ### What a process sees -/

/-- The byte a process finds at `va`. -/
def byteAt (s : Kernel) (p va : Nat) : Option Byte :=
  (view s (s.proc p).pgdir (va / PGSIZE)).map fun x => x.1 (va % PGSIZE)

/-- Every process has the size and the bytes it has on the reference machine. -/
structure SeesAs (s : Kernel) (m : Flat) : Prop where
  size : ∀ p, p < NPROC → (s.proc p).state.live = true → (m.proc p).memory.sz = (s.proc p).sz
  bytes : ∀ p va, p < NPROC → (s.proc p).state.live = true → va < (s.proc p).sz →
    byteAt s p va = some ((m.proc p).memory.page (va / PGSIZE) (va % PGSIZE))

theorem Refines.seesAs (h : Refines mode own s m) : SeesAs s m := by
  refine ⟨fun p hp hlive => (h.memory p _ _ (attachOf_eq_some.2 ⟨hp, hlive, rfl, rfl⟩)).size, ?_⟩
  intro p va hp hlive hva
  obtain ⟨_, page, _, h1, h2, hbytes⟩ :=
    (h.memory p _ _ (attachOf_eq_some.2 ⟨hp, hlive, rfl, rfl⟩)).seen _ (page_lt hva)
  rw [byteAt, h2, Option.map_some, (Prod.mk.inj (Option.some.inj h1)).1]
  exact congrArg some (hbytes _ (Nat.mod_lt _ (by decide)))

/-! ### The reference machine in a given state -/

/-- The machine with unlimited memory that shows what the processes see now. -/
def flatOf (s : Kernel) : Flat where
  proc p :=
    { state := (s.proc p).state
      pid := (s.proc p).pid
      parent := (s.proc p).parent
      killed := (s.proc p).killed
      memory :=
        { sz := (s.proc p).sz
          page := fun v => ((view s (s.proc p).pgdir v).map Prod.fst).getD fun _ => 0
          user := fun v => ((view s (s.proc p).pgdir v).map Prod.snd).getD false } }
  nextpid := s.nextpid
  initproc := s.initproc

theorem KInv.refines_flatOf (h : KInv mode own s) : Refines mode own s (flatOf s) where
  kinv := h
  table := ⟨fun _ => rfl, fun _ => rfl, fun _ => rfl, fun _ => rfl, rfl, rfl⟩
  memory p d z hatt := by
    obtain ⟨-, -, hd, hz⟩ := attachOf_eq_some.1 hatt
    refine ⟨hz, fun v hv => ?_⟩
    obtain ⟨x, hx⟩ := h.inv.view_some (h.inv.visible hatt hv).2.2
    refine ⟨x.1, x.1, x.2, ?_, hx, fun _ _ => rfl⟩
    simp only [flatOf, hd, hx, Option.map_some, Option.getD_some]

end CowPaging
