import CowPaging.Calls

/-!
# `exit`, `fork` and `wait` against the reference machine

`exit` only relabels the process table. `fork` takes a free process slot, gives it
a stack and a copy-on-write copy of the caller's memory, and attaches it. `wait`
releases the swap slots, the stack and the address space of a zombie.
-/

namespace CowPaging

open Bytes StateExcept SlotTable
open Function (update_of_ne update_self update_idem update)

variable [KernelImage] {mode : Mode} {keep : Bool} {evict : K Unit} {E : Halt → Prop}
  {own own' : Owners} {att : Attach} {s s' : Kernel} {d z v : Nat} {m m' : Flat}

/-! ### `exit` -/

/-- A change of the process table that leaves the address spaces alone. -/
structure Relabels (s : Kernel) (g : Nat → Proc) : Prop where
  pgdir : ∀ p, (g p).pgdir = (s.proc p).pgdir
  sz : ∀ p, (g p).sz = (s.proc p).sz
  kstack : ∀ p, (g p).kstack = (s.proc p).kstack
  live : ∀ p, (g p).state.live = (s.proc p).state.live
  unused : ∀ p, (g p).state = .unused → (s.proc p).state = .unused
  settled : ∀ p, (g p).state = .embryo → (s.proc p).state = .embryo

omit [KernelImage] in
theorem Relabels.attach {g : Nat → Proc} (h : Relabels s g) :
    attachOf { s with proc := g } = attachOf s := by
  funext p
  simp only [attachOf, h.live, h.pgdir, h.sz]

theorem Refines.relabel {g : Nat → Proc} (h : Refines mode own s m) (hg : Relabels s g)
    (htable : SameTable { s with proc := g } m')
    (hmem : ∀ p, (m'.proc p).memory = (m.proc p).memory) :
    Refines mode own { s with proc := g } m' := by
  have hentry : ∀ e u, entry { s with proc := g } e u = entry s e u := fun e u =>
    congrArg (fun x => x.getD 0) (pteOf_of_mem_eq rfl e u)
  have hview : ∀ e u, view { s with proc := g } e u = view s e u := fun e u =>
    view_congr (pteOf_of_mem_eq rfl e u) (fun _ _ _ => rfl) (fun _ => rfl) rfl
  refine ⟨⟨?_, ?_, ?_, ?_, ?_, ?_⟩, htable, ?_⟩
  · rw [hg.attach]
    refine h.kinv.inv.withProc s.nextpid s.cur s.initproc
      fun hm => ⟨(h.kinv.inv.idle hm).1, fun p hp hlive => ?_⟩
    rw [hg.live] at hlive
    rw [hg.sz]
    exact (h.kinv.inv.idle hm).2 p hp hlive
  · intro p hp hstate
    rw [show ({ s with proc := g } : Kernel).proc p = g p from rfl] at hstate ⊢
    rw [hg.kstack]
    refine h.kinv.kstack p hp fun hun => hstate ?_
    have hl := hg.live p
    rw [hun] at hl
    cases hgs : (g p).state with
    | unused => rfl
    | embryo => exact absurd (hg.settled p hgs) (by rw [hun]; decide)
    | sleeping => rw [hgs] at hl; cases hl
    | runnable => rw [hgs] at hl; cases hl
    | running => rw [hgs] at hl; cases hl
    | zombie => rw [hgs] at hl; cases hl
  · intro e he
    rw [hg.attach]
    exact h.kinv.attached e he
  · intro p e y u hp hz hu
    rw [hg.attach] at hp
    rw [hentry]
    exact h.kinv.above p e y u hp hz hu
  · exact fun p hp hemb => h.kinv.settled p hp (hg.settled p hemb)
  · intro K hK
    exact (h.kinv.ledger K hK).step (fun _ _ => rfl) (fun _ _ => rfl) fun p _ hused =>
      ⟨fun hun => hused (hg.unused p hun), hg.kstack p⟩
  · intro p e y hp
    rw [hg.attach] at hp
    rw [hmem]
    refine (h.memory p e y hp).congr fun u hu => ?_
    rw [hview]
    exact SameView.refl_of (h.kinv.inv.view_some (h.kinv.inv.visible hp hu).2.2)

/-- The process table after `exit`. -/
def exited (s : Kernel) (p : Nat) : Proc :=
  { s.proc p with
    parent := if p < NPROC ∧ (s.proc p).parent = some s.cur then s.initproc
      else (s.proc p).parent
    state := if p = s.cur then .zombie else (s.proc p).state }

omit [KernelImage] in
theorem exited_relabels (hrun : Runs s s.cur) : Relabels s (exited s) := by
  have hlive := (attachOf_eq_some.1 hrun.live).2.1
  refine ⟨fun _ => rfl, fun _ => rfl, fun _ => rfl, fun p => ?_, fun p => ?_, fun p => ?_⟩ <;>
    by_cases hc : p = s.cur <;> simp only [exited, hc, if_true, if_false]
  · rw [hlive]; rfl
  · exact fun hz => ProcState.noConfusion hz
  · exact id
  · exact fun hz => ProcState.noConfusion hz
  · exact id

omit [KernelImage] in
theorem exit_spec {Q : Unit → Kernel → Prop} (hinit : s.initproc ≠ some s.cur)
    (hQ : Q () { s with proc := exited s }) : wp exit s Q E := by
  obtain ⟨g, hg⟩ : ∃ g : Nat → Proc, g = fun p =>
      if p < NPROC ∧ (s.proc p).parent = some s.cur then
        { s.proc p with parent := s.initproc } else s.proc p := ⟨_, rfl⟩
  have hproc : update g s.cur { g s.cur with state := .zombie } = exited s := by
    funext p
    by_cases hc : p = s.cur
    · grind [Function.update_apply, exited]
    · rw [update_of_ne hc, hg]
      simp only [exited, hc, if_false]
      split <;> rfl
  unfold exit
  simp only [wp_bind, wp_get, if_neg hinit, wp_set, wp_modify, Kernel.setProc, ← hg]
  rw [hproc]
  exact hQ

theorem Refines.wp_exit (h : Refines mode own s m) (hrun : Runs s s.cur)
    (hinit : s.initproc ≠ some s.cur) :
    wp exit s (fun _ s' => Refines mode own s' (m.exit s.cur).2) E := by
  refine exit_spec hinit ?_
  have hproc : ∀ p, ((m.exit s.cur).2.proc p) =
      { m.proc p with
        parent := (exited s p).parent
        state := (exited s p).state } := by
    intro p
    have hpar := h.table.parent p
    have hst := h.table.state p
    simp only [Flat.exit, Flat.setProc, exited]
    by_cases hc : p = s.cur
    · subst hc
      rw [update_self, hpar, h.table.initproc, if_pos rfl]
      split
      · rfl
      · rw [← hpar]
    · rw [update_of_ne hc, hpar, h.table.initproc, if_neg hc, ← hst]
      split
      · rfl
      · rw [← hpar]
  refine h.relabel (exited_relabels hrun) ?_ ?_
  · refine ⟨fun p => ?_, fun p => ?_, fun p => ?_, fun p => ?_, h.table.nextpid,
      h.table.initproc⟩ <;> rw [hproc]
    · exact h.table.pid p
    · exact h.table.killed p
  · intro p
    rw [hproc]

/-! ### `allocproc` -/

/-- Process slot `np` was taken and has the stack page `f`. -/
structure Prepared (mode : Mode) (own own' : Owners) (np f : Nat) (s s' : Kernel) : Prop where
  lt : np < NPROC
  unused : (s.proc np).state = .unused
  attach : attachOf s' = attachOf s
  fresh : own f = .free ∨ own f = .user
  owners : own' = update own f (.stack np)
  inv : Inv mode own' (attachOf s') s'
  seen : ∀ e u, own e = .dir → u < UPAGES → Visible (attachOf s) s e u →
    Visible (attachOf s) s' e u ∧ SameView (view s e u) (view s' e u)
  held : ∀ g, own g = .held → s'.mem g = s.mem g
  quiet : Quiet own (attachOf s) (fun _ _ => False) s s'
  stays : own (s.proc s.cur).pgdir = .dir → ∀ v, v < 2 ^ 20 →
    PteSim (entry s' (s.proc s.cur).pgdir v) (entry s (s.proc s.cur).pgdir v)
  others : ∀ p, p ≠ np → s'.proc p = { s.proc p with rss := (s'.proc p).rss }
  self : s'.proc np = { s.proc np with
    state := .embryo, pid := s.nextpid, kstack := f, rss := (s'.proc np).rss }
  cur : s'.cur = s.cur
  nextpid : s'.nextpid = s.nextpid + 1
  initproc : s'.initproc = s.initproc

omit [KernelImage] in
theorem attachOf_setProc_idle {p : Nat} {f : Proc → Proc}
    (hold : (s.proc p).state.live = false) (hnew : (f (s.proc p)).state.live = false) :
    attachOf (s.setProc p f) = attachOf s := by
  rw [attachOf_setProc, if_neg (by rw [hnew]; simp)]
  refine Function.update_eq_iff.2 ⟨?_, fun _ _ => rfl⟩
  rw [attachOf, if_neg (by rw [hold]; simp)]

theorem allocproc_spec {c : Nat} (h : Inv mode own (attachOf s) s) (hmode : mode.single = false)
    (hsup : Supply mode true evict E (c + 1) s) :
    wp (allocproc evict) s (fun r s' =>
      (r = none ∧ s' = s ∧
        firstSlot NPROC (fun p => decide ((s.proc p).state = .unused)) = none) ∨
      ∃ np f own', r = some np ∧
        firstSlot NPROC (fun p => decide ((s.proc p).state = .unused)) = some np ∧
        Prepared mode own own' np f s s' ∧ Supply mode true evict E c s') E := by
  unfold allocproc
  rw [wp_bind, wp_get]
  cases hslot : firstSlot NPROC fun p => decide ((s.proc p).state = .unused) with
  | none => exact .inl ⟨rfl, rfl, rfl⟩
  | some np =>
    obtain ⟨hlt, hun⟩ := firstSlot_some hslot
    have hunused : (s.proc np).state = .unused := of_decide_eq_true hun
    simp only [wp_bind, wp_set]
    obtain ⟨s1, hs1⟩ : ∃ s1 : Kernel, s1 =
        { s.setProc np (fun pr => { pr with state := .embryo, pid := s.nextpid }) with
          nextpid := s.nextpid + 1 } := ⟨_, rfl⟩
    rw [← hs1]
    have hmem : s1.mem = s.mem := by rw [hs1]; rfl
    have hatt : attachOf s1 = attachOf s := by
      have := attachOf_setProc_idle (s := s) (p := np)
        (f := fun pr => { pr with state := .embryo, pid := s.nextpid })
        (by rw [hunused]; rfl) rfl
      rw [← this, hs1]
      rfl
    have hinv1 : Inv mode own (attachOf s1) s1 := by
      rw [hatt, hs1]
      refine h.withProc _ _ _ fun hm => ?_
      rw [hmode] at hm
      cases hm
    have hnp : s1.proc np = { s.proc np with state := .embryo, pid := s.nextpid } := by
      rw [hs1]
      exact update_self _ _ _
    have hother : ∀ p, p ≠ np → s1.proc p = s.proc p := by
      intro p hp
      rw [hs1]
      exact update_of_ne hp _ _
    have hcur : s1.cur = s.cur := by rw [hs1]; rfl
    have hnext : s1.nextpid = s.nextpid + 1 := by rw [hs1]
    have hinit : s1.initproc = s.initproc := by rw [hs1]; rfl
    have hview1 : ∀ e u, view s1 e u = view s e u := fun e u =>
      view_congr (pteOf_of_mem_eq hmem e u) (fun _ _ _ => by rw [hmem])
        (fun _ => by rw [hs1]; rfl) (by rw [hs1]; rfl)
    have hentry1 : ∀ e u, entry s1 e u = entry s e u := fun e u =>
      congrArg (fun x => x.getD 0) (pteOf_of_mem_eq hmem e u)
    have hsup1 : Supply mode true evict E (c + 1) s1 := hsup.congr (by rw [hs1]; rfl)
    refine wp_conseq (kalloc_spec hinv1 hsup1) ?_
    rintro r s2 ⟨f, rfl, hf, hinv2, hdrift, -, hsup2⟩
    simp only [wp_bind, wp_modify]
    have hheld : update own f .held f = .held := update_self _ _ _
    have hown : update (update own f .held) f (.stack np) =
        update own f (.stack np) := update_idem _ _ _
    have hrecast := hinv2.recast (o := .stack np) (by rw [hheld]; trivial)
      (by rw [hheld]; simp) (by rw [hheld]; simp) trivial (by simp)
    rw [hown] at hrecast
    have hnp2 : (s2.proc np).state = .embryo := by rw [hdrift.procs.state, hnp]
    have hatt3 : attachOf (s2.setProc np fun pr => { pr with kstack := f }) = attachOf s := by
      rw [attachOf_setProc_idle (by rw [hnp2]; rfl) (by simp only [hnp2]; rfl),
        hdrift.procs.attach, hatt]
    have hview3 : ∀ e u, view (s2.setProc np fun pr => { pr with kstack := f }) e u =
        view s2 e u := fun e u =>
      view_congr (pteOf_of_mem_eq rfl e u) (fun _ _ _ => rfl) (fun _ => rfl) rfl
    have hentry3 : ∀ e u, entry (s2.setProc np fun pr => { pr with kstack := f }) e u =
        entry s2 e u := fun e u => congrArg (fun x => x.getD 0) (pteOf_of_mem_eq rfl e u)
    have hV : ∀ d v, Victims true s1 d v → Tracked (attachOf s) d v := fun d v hV => by
      rw [← hatt]; exact hV.1
    rw [hatt] at hdrift
    have hquiet : Quiet own (attachOf s) (fun _ _ => False) s1 s2 := hdrift.quiet hV
    refine .inr ⟨np, f, _, rfl, rfl, ⟨hlt, hunused, hatt3, hf, rfl, ?_, ?_, ?_, ?_, ?_, ?_, ?_, ?_,
      ?_, ?_⟩, hsup2.congr rfl⟩
    · rw [hatt3, ← hatt]
      refine hrecast.withProc _ _ _ fun hm => ?_
      rw [hmode] at hm
      cases hm
    · rintro e u he hu ⟨w, hw, hcase⟩
      have hvis : Visible (attachOf s) s1 e u := ⟨w, by rw [pteOf_of_mem_eq hmem, hw], hcase⟩
      obtain ⟨w', hw', hcase'⟩ := hdrift.visible hV he hu hvis
      refine ⟨⟨w', (pteOf_of_mem_eq rfl e u).trans hw', hcase'⟩, ?_⟩
      rw [hview3, ← hview1]
      exact hdrift.view e u he hu hvis
    · intro g hg
      rw [← hmem]
      exact hdrift.held g (.inl hg)
    · intro e u he hu hnt hX habs
      rw [hentry3]
      exact hquiet e u he hu hnt hX (by rw [hentry1]; exact habs)
    · intro hdir v hv
      have hpg : (s1.proc s1.cur).pgdir = (s.proc s.cur).pgdir := by grind
      rw [hentry3, ← hentry1]
      exact hdrift.entry_sim hdir hv fun he => he.2.2.1.2 rfl hpg.symm
    · intro p hp
      have hproc : (s2.setProc np fun pr => { pr with kstack := f }).proc p = s2.proc p :=
        update_of_ne hp _ _
      rw [hproc, hdrift.procs.proc p, hother p hp]
    · have hproc : (s2.setProc np fun pr => { pr with kstack := f }).proc np =
          { s2.proc np with kstack := f } := update_self _ _ _
      rw [hproc, hdrift.procs.proc np, hnp]
    · exact hdrift.procs.cur.trans hcur
    · exact hdrift.procs.nextpid.trans hnext
    · exact hdrift.procs.initproc.trans hinit

theorem Prepared.of_stack {np f g p : Nat} (h : Prepared mode own own' np f s s')
    (hg : own g = .stack p) : own' g = .stack p := by
  have hne : g ≠ f := by grind [h.fresh]
  rw [h.owners, update_of_ne hne, hg]

theorem Prepared.dir {np f e : Nat} (h : Prepared mode own own' np f s s') :
    own' e = .dir ↔ own e = .dir := by
  rw [h.owners]
  by_cases he : e = f
  · grind [Function.update_apply, h.fresh]
  · rw [update_of_ne he]

theorem Prepared.ledger {K : Kept} {np f : Nat} (h : Prepared mode own own' np f s s')
    (hl : Ledger K own s) : Ledger K own' s' := by
  rw [h.owners]
  refine hl.addStack h.fresh h.held ⟨h.lt, ?_, ?_⟩ h.unused fun p hp => ?_
  · rw [h.self]
    exact fun hst => ProcState.noConfusion hst
  · rw [h.self]
  · rw [h.others p hp]
    exact ⟨rfl, rfl⟩

/-! ### `fork` -/

theorem Copied.notSwapped {own0 : Owners} {s0 : Kernel} {c pages : Nat} {w : Word}
    (h : Copied mode own0 own d c pages pages s0 s) (hv : v < UPAGES)
    (hw : pteOf s c v = some w) : isSwapped w = false := by
  by_cases hlt : v < pages
  · have hp := (h.shared v hlt).child
    rw [entry_of_pte hw] at hp
    exact isSwapped_of_present hp
  · have hzero := h.empty v (Nat.le_of_not_lt hlt) hv
    rw [entry_of_pte hw] at hzero
    rw [hzero]
    decide

/-- The copy is attached to the process slot `np`. -/
theorem Copied.attach {own0 : Owners} {s0 : Kernel} {c np : Nat}
    (h : Copied mode own0 own d c (pagesOf z) (pagesOf z) s0 s)
    (hdet : ∀ p y, attachOf s p ≠ some (c, y)) (hnp : attachOf s np = none)
    (hsize : z ≤ KERNBASE) :
    Inv mode own (update (attachOf s) np (some (c, z))) s := by
  refine h.inv.relax.attach h.child (fun q y _ => hdet q y) hsize ?_ ?_ ?_
  · intro v hv
    have hsh := h.shared v (lt_pagesOf.1 hv)
    exact ⟨_, pteOf_of_entry hsh.child, .inl hsh.child⟩
  · intro v w hv hw hsw
    rw [h.notSwapped hv hw] at hsw
    cases hsw
  · intro hm
    have hexact := h.inv.slots hm
    refine ⟨?_, ?_⟩
    · intro q e y v w hq hv hw hsw
      by_cases hqn : q = np
      · grind [Function.update_apply, h.notSwapped]
      · rw [update_of_ne hqn] at hq
        exact hexact.tracked q e y v w hq hv hw hsw
    · intro i hi hbusy
      obtain ⟨q, e, y, v, w, hq, hv, hw, hsw, hf⟩ := hexact.used i hi hbusy
      refine ⟨q, e, y, v, w, ?_, hv, hw, hsw, hf⟩
      rw [update_of_ne ?_, hq]
      rintro rfl
      rw [hnp] at hq
      cases hq

/-- The process table entry of the child. -/
def Kernel.born (s : Kernel) (np c : Nat) : Kernel :=
  s.setProc np fun pr =>
    { pr with pgdir := c, sz := (s.proc s.cur).sz, parent := some s.cur, state := .runnable }

theorem Refines.forked {own2 : Owners} {np f c : Nat} {s2 s3 : Kernel}
    (h : Refines mode own s m) (hrun : Runs s s.cur) (hmode : mode.single = false)
    (hslot : firstSlot NPROC (fun p => decide ((s.proc p).state = .unused)) = some np)
    (hp : Prepared mode own own2 np f s s2)
    (hc : Copied mode own2 own' (s.proc s.cur).pgdir c (pagesOf (s.proc s.cur).sz)
      (pagesOf (s.proc s.cur).sz) s2 s3)
    (hdet : ∀ p y, attachOf s2 p ≠ some (c, y)) :
    Refines mode own' (s3.born np c) (m.fork s.cur).2 := by
  have hlive := hrun.live
  have hne : s.cur ≠ np := by
    intro heq
    have hl := (attachOf_eq_some.1 hlive).2.1
    rw [heq, hp.unused] at hl
    cases hl
  have hcur : s3.cur = s.cur := hc.pres.procs.cur.trans hp.cur
  have hatt3 : attachOf s3 = attachOf s := hc.pres.procs.attach.trans hp.attach
  have hproc : ∀ p, p ≠ np → (s3.born np c).proc p = { s.proc p with rss := (s3.proc p).rss } := by
    intro p hpn
    have heq : (s3.born np c).proc p = s3.proc p := update_of_ne hpn _ _
    rw [heq, hc.pres.procs.proc p, hp.others p hpn]
  have hsz : (s3.proc s3.cur).sz = (s.proc s.cur).sz := by
    rw [hcur, hc.pres.procs.sz, hp.others _ hne]
  have hborn : (s3.born np c).proc np = { s.proc np with
      state := .runnable, pid := s.nextpid, kstack := f, pgdir := c, sz := (s.proc s.cur).sz,
      parent := some s.cur, rss := (s3.proc np).rss } := by
    have heq : (s3.born np c).proc np = { s3.proc np with
        pgdir := c, sz := (s3.proc s3.cur).sz, parent := some s3.cur, state := .runnable } :=
      update_self _ _ _
    rw [heq, hsz, hcur, hc.pres.procs.proc np, hp.self]
  have hatt : attachOf (s3.born np c) =
      update (attachOf s) np (some (c, (s.proc s.cur).sz)) := by
    rw [Kernel.born, attachOf_setProc, hatt3, hsz, if_pos ⟨hp.lt, rfl⟩]
  have hvacant : attachOf s np = none := by
    rw [attachOf, if_neg (by rw [hp.unused]; simp [ProcState.live])]
  have hsize := h.kinv.inv.procs.size _ _ _ hlive
  have hentry : ∀ e u, entry (s3.born np c) e u = entry s3 e u := fun e u =>
    congrArg (fun x => x.getD 0) (pteOf_of_mem_eq rfl e u)
  have hview : ∀ e u, view (s3.born np c) e u = view s3 e u := fun e u =>
    view_congr (pteOf_of_mem_eq rfl e u) (fun _ _ _ => rfl) (fun _ => rfl) rfl
  -- what a process saw before the call it sees after it
  have hseen : ∀ e u, own e = .dir → u < UPAGES → Visible (attachOf s) s e u →
      SameView (view s e u) (view s3 e u) := by
    intro e u he hu hvis
    obtain ⟨hvis2, hsame2⟩ := hp.seen e u he hu hvis
    rw [← hp.attach] at hvis2
    exact hsame2.trans (hc.pres.sameView (hp.dir.2 he) hu hvis2)
  refine ⟨⟨?_, ?_, ?_, ?_, ?_, ?_⟩, ?_, ?_⟩
  · rw [hatt, ← hatt3]
    refine (hc.attach ?_ (by rw [hatt3, hvacant]) hsize).withProc _ _ _ fun hm => ?_
    · rw [hc.pres.procs.attach]
      exact hdet
    · grind
  · intro p hlt hstate
    by_cases hpn : p = np
    · subst hpn
      rw [hborn]
      refine hc.retains.of_stack ?_
      rw [hp.owners, update_self]
    · rw [hproc p hpn] at hstate ⊢
      exact hc.retains.of_stack (hp.of_stack (h.kinv.kstack p hlt hstate))
  · intro e he
    rw [hatt]
    by_cases hec : e = c
    · exact ⟨np, _, by rw [update_self, hec]⟩
    · have hold := hc.keeps.dir e he
      rw [update_of_ne hec, hp.dir] at hold
      obtain ⟨p, y, hpy⟩ := h.kinv.attached e hold
      have hpn : p ≠ np := by grind
      exact ⟨p, y, by rw [update_of_ne hpn, hpy]⟩
  · intro p e y v hpy hz hv
    rw [hatt] at hpy
    rw [hentry]
    by_cases hpn : p = np
    · subst hpn
      rw [update_self] at hpy
      cases hpy
      rw [hc.empty v (Nat.le_of_not_lt fun hx => absurd (lt_pagesOf.2 hx) (Nat.not_lt.2 hz)) hv,
        has_zero]
    · rw [update_of_ne hpn] at hpy
      have he := h.kinv.inv.procs.dir p e y hpy
      have hnt := h.kinv.not_tracked hpy hz
      refine hc.quiet e v (hp.dir.2 he) hv (by rw [hp.attach]; exact hnt) id ?_
      exact hp.quiet e v he hv hnt id (h.kinv.above p e y v hpy hz hv)
  · intro p hlt
    by_cases hpn : p = np
    · grind
    · rw [hproc p hpn]
      exact h.kinv.settled p hlt
  · intro K hK
    refine (hp.ledger (h.kinv.ledger K hK)).step hc.sameKernel
      (fun g hg => hc.pres.held g (.inl hg)) fun p _ hused => ?_
    by_cases hpn : p = np
    · grind [hp.self]
    · grind [hp.others]
  · have hflat : firstSlot NPROC (fun p => decide ((m.proc p).state = .unused)) = some np := by
      rw [← hslot]
      exact congrArg _ (funext fun p => by rw [h.table.state])
    unfold Flat.fork
    rw [hflat]
    refine ⟨fun p => ?_, fun p => ?_, fun p => ?_, fun p => ?_, ?_, ?_⟩
    · by_cases hpn : p = np
      · subst hpn; simp [Flat.setProc, hborn]
      · simp [Flat.setProc, hpn, hproc p hpn, h.table.state]
    · by_cases hpn : p = np
      · subst hpn; simp [Flat.setProc, hborn, h.table.nextpid]
      · simp [Flat.setProc, hpn, hproc p hpn, h.table.pid]
    · by_cases hpn : p = np
      · subst hpn; simp [Flat.setProc, hborn]
      · simp [Flat.setProc, hpn, hproc p hpn, h.table.parent]
    · by_cases hpn : p = np
      · subst hpn; simp [Flat.setProc, hborn, h.table.killed]
      · simp [Flat.setProc, hpn, hproc p hpn, h.table.killed]
    · have hnext : (s3.born np c).nextpid = s.nextpid + 1 :=
        (hc.pres.procs.nextpid.trans hp.nextpid)
      rw [hnext]
      simp [h.table.nextpid]
    · exact h.table.initproc.trans (hc.pres.procs.initproc.trans hp.initproc).symm
  · have hflat : firstSlot NPROC (fun p => decide ((m.proc p).state = .unused)) = some np := by
      rw [← hslot]
      exact congrArg _ (funext fun p => by rw [h.table.state])
    unfold Flat.fork
    rw [hflat]
    intro p e y hpy
    rw [hatt] at hpy
    by_cases hpn : p = np
    · subst hpn
      rw [update_self] at hpy
      cases hpy
      have hbacks := h.memory _ _ _ hlive
      simp only [Flat.setProc, update_self]
      refine ⟨hbacks.size, fun v hv => ?_⟩
      obtain ⟨hdir, hu, hvis⟩ := h.kinv.inv.visible hlive hv
      rw [hview, (hc.shared v (lt_pagesOf.1 hv)).view]
      exact (hbacks.seen v hv).trans (hseen _ v hdir hu hvis)
    · rw [update_of_ne hpn] at hpy
      simp only [Flat.setProc, update_of_ne hpn]
      refine (h.memory p e y hpy).congr fun v hv => ?_
      obtain ⟨hdir, hu, hvis⟩ := h.kinv.inv.visible hpy hv
      rw [hview]
      exact hseen e v hdir hu hvis

theorem Refines.wp_fork_shared {k : Nat}
    (hsup : Supply mode true evict E (k + pagesOf (s.proc s.cur).sz + 11) s)
    (hmode : mode.single = false) (h : Refines mode own s m) (hrun : Runs s s.cur)
    (hres : ∀ v, v * PGSIZE < (s.proc s.cur).sz →
      has (entry s (s.proc s.cur).pgdir v) PTE_P = true) :
    wp (fork evict) s (fun r s' => (∃ own', Refines mode own' s' (m.fork s.cur).2) ∧
      Reply.code r = (m.fork s.cur).1 ∧ Supply mode true evict E k s' ∧
      ∀ np, firstSlot NPROC (fun p => decide ((s.proc p).state = .unused)) = some np →
        ∀ v, v * PGSIZE < (s.proc s.cur).sz →
          Shared s' (s'.proc s.cur).pgdir (s'.proc np).pgdir v) E := by
  have hlive := hrun.live
  have hdirD := h.kinv.inv.procs.dir _ _ _ hlive
  have hflat : (fun p => decide ((m.proc p).state = .unused)) =
      fun p => decide ((s.proc p).state = .unused) := funext fun p => by rw [h.table.state]
  unfold fork
  rw [wp_bind]
  refine wp_conseq (allocproc_spec h.kinv.inv hmode hsup) ?_
  rintro r s2 (⟨rfl, rfl, hfull⟩ | ⟨np, f, own2, rfl, hslot, hp, hsup2⟩)
  · refine ⟨⟨own, ?_⟩, ?_, hsup.mono (by omega), ?_⟩
    · rw [Flat.fork, hflat, hfull]
      exact h
    · rw [Flat.fork, hflat, hfull]
    · grind
  have hne : s.cur ≠ np := by
    intro heq
    have hl := (attachOf_eq_some.1 hlive).2.1
    rw [heq, hp.unused] at hl
    cases hl
  have hpg : (s2.proc s2.cur).pgdir = (s.proc s.cur).pgdir := by rw [hp.cur, hp.others _ hne]
  have hsz : (s2.proc s2.cur).sz = (s.proc s.cur).sz := by rw [hp.cur, hp.others _ hne]
  have hlive2 : attachOf s2 s2.cur = some ((s.proc s.cur).pgdir, (s.proc s.cur).sz) := by
    rw [hp.attach, hp.cur, hlive]
  simp only [wp_bind, wp_get, hpg, hsz]
  refine wp_conseq (copyuvm_spec np hsup2 hp.inv hmode hlive2 ?_ ?_) ?_
  · rw [hp.attach]
    refine ⟨fun e he => ?_, np, hp.lt, ?_⟩
    · obtain ⟨p, y, hpy⟩ := h.kinv.attached e (hp.dir.1 he)
      exact ⟨p, y, (attachOf_eq_some.1 hpy).1, hpy⟩
    · rw [attachOf, if_neg (by rw [hp.unused]; simp [ProcState.live])]
  · intro v hv
    have hlt := lt_pagesOf.2 hv
    obtain ⟨-, hu, -⟩ := h.kinv.inv.visible hlive hlt
    rw [(hp.stays hdirD v (upages_lt hu)).present, hres v hlt]
  · rintro r s3 ⟨c, own3, rfl, hc, hdet, hsup3⟩
    simp only [wp_bind, wp_modify, wp_get, wp_pure]
    have hself : (s3.born np c).proc np = { s3.proc np with
        pgdir := c, sz := (s3.proc s3.cur).sz, parent := some s3.cur, state := .runnable } :=
      update_self _ _ _
    have hpid : ((s3.born np c).proc np).pid = s.nextpid := by
      rw [hself, hc.pres.procs.proc np, hp.self]
    have hchild : ((s3.born np c).proc np).pgdir = c := by rw [hself]
    have hparent : ((s3.born np c).proc s.cur).pgdir = (s.proc s.cur).pgdir := by
      rw [Kernel.born, Kernel.setProc]
      simp only [update_of_ne hne]
      rw [hc.pres.procs.pgdir, ← hpg, hp.cur]
    rw [Kernel.born] at hpid hchild hparent
    refine ⟨⟨own3, h.forked hrun hmode hslot hp hc hdet⟩, ?_, hsup3.congr rfl, ?_⟩
    · rw [hpid, Flat.fork, hflat, hslot, h.table.nextpid]
    · intro np' hnp' v hv
      obtain rfl := Option.some.inj (hslot.symm.trans hnp')
      rw [hchild, hparent]
      exact (hc.shared v (lt_pagesOf.1 hv)).sim (PteSim.refl _) (PteSim.refl _)

theorem Refines.wp_fork {k : Nat}
    (hsup : Supply mode true evict E (k + pagesOf (s.proc s.cur).sz + 11) s)
    (hmode : mode.single = false) (h : Refines mode own s m) (hrun : Runs s s.cur)
    (hres : ∀ v, v * PGSIZE < (s.proc s.cur).sz →
      has (entry s (s.proc s.cur).pgdir v) PTE_P = true) :
    wp (fork evict) s (fun r s' => (∃ own', Refines mode own' s' (m.fork s.cur).2) ∧
      Reply.code r = (m.fork s.cur).1 ∧ Supply mode true evict E k s') E :=
  wp_conseq (h.wp_fork_shared hsup hmode hrun hres) fun _ _ hr => ⟨hr.1, hr.2.1, hr.2.2.1⟩

end CowPaging
