import CowPaging.Scheduling

/-!
# The life of a process

Pids, parents and zombies over whole runs of `fork`, `exit`, `wait` and `kill`. Every
process has a parent that is alive, from the moment `fork` sets it: its creator or,
after that exited, init. What exits stays a zombie until its parent's `wait` returns
its pid, once, and a parent asleep in `wait` has no zombie child. A process is killed
by a `kill` of its pid or by its own fault, as long as no `kill` searches for a pid
that an unused entry carries.
-/

namespace CowPaging

open Bytes SlotTable
open Function (update_of_ne update_self update_apply update_eq_self update)

variable {s s' : PTable} {c p q np : Nat} {st : ForkStage}

/-- The process takes part in scheduling. -/
def ProcState.Alive (st : ProcState) : Prop := st = .running ∨ st = .runnable ∨ st = .sleeping

/-- The parent of the entry that a fork has taken. -/
def ForkStage.parent (p : Nat) : ForkStage → Option Nat
  | .ready _ => some p
  | .kstack _ | .copy _ => none

structure LifeInv (s : PTable) : Prop where
  next : s.nextpid = BitVec.ofNat 32 (s.forks + 2)
  slots : ∀ p, NPROC ≤ p → (s.proc p).state = .unused
  pid : ∀ p, (s.proc p).state ≠ .unused → 0 < (s.proc p).pid ∧ (s.proc p).pid < s.forks + 2
  pid_inj : ∀ p q, (s.proc p).state ≠ .unused → (s.proc q).state ≠ .unused →
    (s.proc p).pid = (s.proc q).pid → p = q
  unused : ∀ p, (s.proc p).state = .unused → (s.proc p).parent = none
  init : (s.proc initproc).state.Alive ∧ (s.proc initproc).parent = none
  embryo : ∀ np, (s.proc np).state = .embryo → ∃ p st, s.fork p = some st ∧ st.np = np
  fork : ∀ p st, s.fork p = some st → (s.proc p).state.Alive ∧
    s.creator st.np = (s.proc p).pid ∧ (s.proc st.np).parent = st.parent p
  parent : ∀ p, (s.proc p).state ≠ .unused → (s.proc p).state ≠ .embryo → p ≠ initproc →
    ∃ q, q ≠ p ∧ (s.proc p).parent = some q ∧ (s.proc q).state.Alive ∧
      ((s.proc q).pid = s.creator p ∨ s.creator p ∈ s.exited ∧ q = initproc)
  zombie : ∀ p, (s.proc p).state = .zombie → (s.proc p).pid ∈ s.exited ∧
    (s.proc p).pid ∉ s.reaped
  fresh : ∀ p, (s.proc p).state ≠ .unused → (s.proc p).state ≠ .zombie →
    (s.proc p).pid ∉ s.exited
  old : ∀ n ∈ s.exited, n < s.forks + 2
  exited : ∀ n ∈ s.exited, n ∈ s.reaped ∨ ∃ p, (s.proc p).state = .zombie ∧ (s.proc p).pid = n
  reaped : s.reaped.Nodup ∧ ∀ n ∈ s.reaped, n ∈ s.exited
  asleep : ∀ q r, (s.proc q).state = .sleeping → (s.proc q).chan = some (.proc r) →
    r = q ∧ ∀ p, (s.proc p).parent = some q → (s.proc p).state ≠ .zombie

theorem ProcState.Alive.ne_unused {st : ProcState} (h : st.Alive) : st ≠ .unused := by
  rcases h with rfl | rfl | rfl <;> simp

theorem ProcState.Alive.ne_zombie {st : ProcState} (h : st.Alive) : st ≠ .zombie := by
  rcases h with rfl | rfl | rfl <;> simp

theorem ProcState.Alive.ne_embryo {st : ProcState} (h : st.Alive) : st ≠ .embryo := by
  rcases h with rfl | rfl | rfl <;> simp

theorem LifeInv.start : LifeInv PTable.init := by
  have hstate : ∀ p, (PTable.init.proc p).state = if p = initproc then .runnable else .unused := by
    intro p
    simp only [PTable.init]
    split <;> rfl
  have hinit : ∀ p, (PTable.init.proc p).state ≠ .unused → p = initproc := by grind
  refine
    { next := rfl
      slots := fun p hp => ?_
      pid := fun p hp => ?_
      pid_inj := fun p q hp hq _ => by rw [hinit p hp, hinit q hq]
      unused := fun p _ => ?_
      init := ⟨.inr (.inl rfl), rfl⟩
      embryo := fun p hp => ?_
      fork := fun p st hp => by simp [PTable.init] at hp
      parent := fun p hp _ hne => absurd (hinit p hp) hne
      zombie := fun p hp => ?_
      fresh := fun p _ _ => by simp [PTable.init]
      old := fun n hn => by simp [PTable.init] at hn
      exited := fun n hn => by simp [PTable.init] at hn
      reaped := ⟨List.nodup_nil, fun n hn => hn⟩
      asleep := fun q r hq => ?_ }
  · rw [hstate, if_neg]
    rintro rfl
    exact absurd hp (by decide)
  · rw [hinit p hp]
    decide
  · simp only [PTable.init]
    split <;> rfl
  · grind
  · grind
  · grind

theorem LifeInv.of_eq (h : LifeInv s) (hproc : s'.proc = s.proc) (hnext : s'.nextpid = s.nextpid)
    (hfork : s'.fork = s.fork) (hforks : s'.forks = s.forks) (hcreator : s'.creator = s.creator)
    (hexited : s'.exited = s.exited) (hreaped : s'.reaped = s.reaped) : LifeInv s' := by
  obtain ⟨proc, nextpid, lock, cpu, thread, fork, ret, forks, creator, exited, reaped, marked⟩ := s'
  simp only at hproc hnext hfork hforks hcreator hexited hreaped
  subst hproc hnext hfork hforks hcreator hexited hreaped
  exact ⟨h.next, h.slots, h.pid, h.pid_inj, h.unused, h.init, h.embryo, h.fork, h.parent, h.zombie,
    h.fresh, h.old, h.exited, h.reaped, h.asleep⟩

/-- An entry whose process stays as alive, dead or new as it was. -/
structure Entry.Stirs (e e' : Entry) : Prop where
  pid : e'.pid = e.pid
  parent : e'.parent = e.parent
  state : e'.state = e.state ∨ e.state.Alive ∧ e'.state.Alive

theorem Entry.Stirs.alive_iff {e e' : Entry} (h : e.Stirs e') : e'.state.Alive ↔ e.state.Alive := by
  grind [h.state]

theorem Entry.Stirs.eq_iff {e e' : Entry} (h : e.Stirs e') {st : ProcState} (hst : ¬ st.Alive) :
    e'.state = st ↔ e.state = st := by grind [h.state]

theorem LifeInv.stir (h : LifeInv s) (hproc : ∀ q, (s.proc q).Stirs (s'.proc q))
    (hasleep : ∀ q r, (s'.proc q).state = .sleeping → (s'.proc q).chan = some (.proc r) →
      (s.proc q).state = .sleeping ∧ (s.proc q).chan = some (.proc r) ∨
        r = q ∧ ∀ p, (s.proc p).parent = some q → (s.proc p).state ≠ .zombie)
    (hnext : s'.nextpid = s.nextpid)
    (hfork : s'.fork = s.fork) (hforks : s'.forks = s.forks) (hcreator : s'.creator = s.creator)
    (hexited : s'.exited = s.exited) (hreaped : s'.reaped = s.reaped) : LifeInv s' := by
  have hunused : ∀ q, (s'.proc q).state = .unused ↔ (s.proc q).state = .unused :=
    fun q => (hproc q).eq_iff (by simp [ProcState.Alive])
  have hembryo : ∀ q, (s'.proc q).state = .embryo ↔ (s.proc q).state = .embryo :=
    fun q => (hproc q).eq_iff (by simp [ProcState.Alive])
  have hzombie : ∀ q, (s'.proc q).state = .zombie ↔ (s.proc q).state = .zombie :=
    fun q => (hproc q).eq_iff (by simp [ProcState.Alive])
  have hpid := fun q => (hproc q).pid
  have hparent := fun q => (hproc q).parent
  have halive := fun q => (hproc q).alive_iff
  refine
    { next := by rw [hnext, hforks]; exact h.next
      slots := fun p hp => (hunused p).mpr (h.slots p hp)
      pid := fun p hp => ?_
      pid_inj := fun p q hp hq heq => ?_
      unused := fun p hp => ?_
      init := ⟨(halive _).mpr h.init.1, by rw [hparent]; exact h.init.2⟩
      embryo := fun np hnp => by rw [hfork]; exact h.embryo np ((hembryo np).mp hnp)
      fork := fun p st hp => ?_
      parent := fun p hp hp' hne => ?_
      zombie := fun p hp => ?_
      fresh := fun p hp hp' => ?_
      old := by rw [hexited, hforks]; exact h.old
      exited := fun n hn => ?_
      reaped := by rw [hreaped, hexited]; exact h.reaped
      asleep := fun q r hq hr => ?_ }
  · rw [hpid, hforks]
    exact h.pid p (mt (hunused p).mpr hp)
  · rw [hpid, hpid] at heq
    exact h.pid_inj p q (mt (hunused p).mpr hp) (mt (hunused q).mpr hq) heq
  · rw [hparent]
    exact h.unused p ((hunused p).mp hp)
  · rw [hfork] at hp
    rw [halive, hcreator, hpid, hparent]
    exact h.fork p st hp
  · obtain ⟨q, hq, heq, hal, hcr⟩ := h.parent p (mt (hunused p).mpr hp) (mt (hembryo p).mpr hp') hne
    refine ⟨q, hq, by rw [hparent, heq], (halive q).mpr hal, ?_⟩
    rw [hpid, hcreator, hexited]
    exact hcr
  · rw [hpid, hexited, hreaped]
    exact h.zombie p ((hzombie p).mp hp)
  · rw [hpid, hexited]
    exact h.fresh p (mt (hunused p).mpr hp) (mt (hzombie p).mpr hp')
  · rw [hexited] at hn
    rw [hreaped]
    refine (h.exited n hn).imp_right fun ⟨p, hp, heq⟩ => ⟨p, (hzombie p).mpr hp, ?_⟩
    rw [hpid, heq]
  · have hold : r = q ∧ ∀ p, (s.proc p).parent = some q → (s.proc p).state ≠ .zombie := by
      rcases hasleep q r hq hr with ⟨hq', hr'⟩ | hold
      · exact h.asleep q r hq' hr'
      · exact hold
    refine ⟨hold.1, fun p hp => ?_⟩
    rw [hparent] at hp
    exact mt (hzombie p).mp (hold.2 p hp)

/-! ### Forks -/

/-- The entry of a process that is not alive is replaced by that of another one, and a
    zombie among them counts as reaped. -/
theorem LifeInv.replace (h : LifeInv s) (hdead : ¬ (s.proc np).state.Alive)
    (hold : ∀ q, q ≠ np → s'.proc q = s.proc q) (hlt : np < NPROC)
    (hnext : s'.nextpid = BitVec.ofNat 32 (s'.forks + 2)) (hforks : s.forks ≤ s'.forks)
    (hcreator : ∀ q, q ≠ np → s'.creator q = s.creator q) (hexited : s'.exited = s.exited)
    (hreaped : s'.reaped = s.reaped ∧ (s.proc np).state ≠ .zombie ∨
      s'.reaped = s.reaped ++ [(s.proc np).pid] ∧ (s.proc np).state = .zombie)
    (hnew : (s'.proc np).state = .unused ∧ (s'.proc np).parent = none ∨
      (s'.proc np).state ≠ .unused ∧ (s'.proc np).state ≠ .zombie ∧
        (s'.proc np).state ≠ .sleeping ∧ 0 < (s'.proc np).pid ∧
        (s'.proc np).pid < s'.forks + 2 ∧ (s'.proc np).pid ∉ s.exited ∧
        ∀ q, q ≠ np → (s.proc q).state ≠ .unused → (s.proc q).pid ≠ (s'.proc np).pid)
    (hembryo : ∀ q, (s'.proc q).state = .embryo → ∃ p st, s'.fork p = some st ∧ st.np = q)
    (hfork : ∀ p st, s'.fork p = some st → (s.proc p).state.Alive ∧
      s'.creator st.np = (s.proc p).pid ∧ (s'.proc st.np).parent = st.parent p)
    (hparent : (s'.proc np).state ≠ .unused → (s'.proc np).state ≠ .embryo →
      ∃ q, q ≠ np ∧ (s'.proc np).parent = some q ∧ (s.proc q).state.Alive ∧
        (s.proc q).pid = s'.creator np) : LifeInv s' := by
  have halive : ∀ q, (s.proc q).state.Alive → q ≠ np := by
    rintro q hq rfl
    exact hdead hq
  have hinit : initproc ≠ np := halive _ h.init.1
  have hzombie : (s'.proc np).state ≠ .zombie := by
    rcases hnew with ⟨hst, -⟩ | ⟨-, hst, -⟩
    · rw [hst]
      simp
    · exact hst
  have hnewpid : (s'.proc np).state ≠ .unused → ((s'.proc np).state ≠ .sleeping ∧
      0 < (s'.proc np).pid ∧ (s'.proc np).pid < s'.forks + 2 ∧ (s'.proc np).pid ∉ s.exited ∧
      ∀ q, q ≠ np → (s.proc q).state ≠ .unused → (s.proc q).pid ≠ (s'.proc np).pid) :=
    fun hst => (hnew.resolve_left fun hc => hst hc.1).2.2
  have hsub : ∀ n, n ∈ s.reaped → n ∈ s'.reaped := by
    intro n hn
    rcases hreaped with ⟨heq, -⟩ | ⟨heq, -⟩
    · rw [heq]
      exact hn
    · rw [heq]
      exact List.mem_append_left _ hn
  refine
    { next := hnext
      slots := fun q hq => by rw [hold q (by omega)]; exact h.slots q hq
      pid := fun q hq => ?_
      pid_inj := fun q r hq hr heq => ?_
      unused := fun q hq => ?_
      init := by rw [hold _ hinit]; exact h.init
      embryo := hembryo
      fork := fun q st hq => ?_
      parent := fun q hq hq' hqi => ?_
      zombie := fun q hq => ?_
      fresh := fun q hq hq' => ?_
      old := fun n hn => ?_
      exited := fun n hn => ?_
      reaped := ?_
      asleep := fun q r hq hr => ?_ }
  · by_cases hqn : q = np
    · rw [hqn] at hq ⊢
      exact ⟨(hnewpid hq).2.1, (hnewpid hq).2.2.1⟩
    · rw [hold q hqn] at hq ⊢
      have := h.pid q hq
      omega
  · by_cases hqn : q = np <;> by_cases hrn : r = np
    · rw [hqn, hrn]
    · rw [hold r hrn] at hr heq
      rw [hqn] at hq heq
      exact absurd heq.symm ((hnewpid hq).2.2.2.2 r hrn hr)
    · rw [hold q hqn] at hq heq
      rw [hrn] at hr heq
      exact absurd heq ((hnewpid hr).2.2.2.2 q hqn hq)
    · rw [hold q hqn] at hq heq
      rw [hold r hrn] at hr heq
      exact h.pid_inj q r hq hr heq
  · by_cases hqn : q = np
    · rw [hqn] at hq ⊢
      exact (hnew.resolve_right fun hc => hc.1 hq).2
    · rw [hold q hqn] at hq ⊢
      exact h.unused q hq
  · obtain ⟨hal, hcr, hpar⟩ := hfork q st hq
    rw [hold q (halive q hal)]
    exact ⟨hal, hcr, hpar⟩
  · by_cases hqn : q = np
    · rw [hqn] at hq hq' ⊢
      obtain ⟨r, hrn, hr, hal, hcr⟩ := hparent hq hq'
      exact ⟨r, hrn, hr, by rw [hold r hrn]; exact hal, by rw [hold r hrn]; exact .inl hcr⟩
    · rw [hold q hqn] at hq hq' ⊢
      obtain ⟨r, hrq, hr, hal, hcr⟩ := h.parent q hq hq' hqi
      refine ⟨r, hrq, hr, by rw [hold r (halive r hal)]; exact hal, ?_⟩
      rw [hold r (halive r hal), hcreator q hqn, hexited]
      exact hcr
  · have hqn : q ≠ np := fun heq => hzombie (heq ▸ hq)
    rw [hold q hqn] at hq ⊢
    obtain ⟨hex, hre⟩ := h.zombie q hq
    rw [hexited]
    refine ⟨hex, ?_⟩
    rcases hreaped with ⟨heq, -⟩ | ⟨heq, hz⟩
    · rw [heq]
      exact hre
    · rw [heq, List.mem_append, List.mem_singleton, not_or]
      refine ⟨hre, fun hpid => hqn ?_⟩
      exact h.pid_inj q np (by rw [hq]; simp) (by rw [hz]; simp) hpid
  · rw [hexited]
    by_cases hqn : q = np
    · rw [hqn] at hq ⊢
      exact (hnewpid hq).2.2.2.1
    · rw [hold q hqn] at hq hq' ⊢
      exact h.fresh q hq hq'
  · rw [hexited] at hn
    have := h.old n hn
    omega
  · rw [hexited] at hn
    rcases h.exited n hn with hn' | ⟨q, hq, heq⟩
    · exact .inl (hsub n hn')
    · by_cases hqn : q = np
      · subst hqn
        rcases hreaped with ⟨-, hz⟩ | ⟨hre, -⟩
        · exact absurd hq hz
        · rw [hre, ← heq]
          exact .inl (by simp)
      · exact .inr ⟨q, by rw [hold q hqn, hq], by rw [hold q hqn, heq]⟩
  · rw [hexited]
    rcases hreaped with ⟨heq, -⟩ | ⟨heq, hz⟩
    · rw [heq]
      exact h.reaped
    · obtain ⟨hex, hre⟩ := h.zombie np hz
      rw [heq]
      refine ⟨?_, fun n hn => ?_⟩
      · rw [List.nodup_append]
        refine ⟨h.reaped.1, List.nodup_singleton _, fun a ha b hb hab => hre ?_⟩
        rw [← List.mem_singleton.mp hb, ← hab]
        exact ha
      · rcases List.mem_append.mp hn with hn | hn
        · exact h.reaped.2 n hn
        · rw [List.mem_singleton.mp hn]
          exact hex
  · have hqn : q ≠ np := by
      rintro rfl
      exact (hnewpid (by rw [hq]; simp)).1 hq
    rw [hold q hqn] at hq hr
    obtain ⟨hrq, hkids⟩ := h.asleep q r hq hr
    refine ⟨hrq, fun x hx hxz => ?_⟩
    have hxn : x ≠ np := fun heq => hzombie (heq ▸ hxz)
    rw [hold x hxn] at hx hxz
    exact hkids x hx hxz

/-- `allocproc` takes an unused entry. -/
theorem LifeInv.take (h : LifeInv s) (hf : ForkInv s) (halive : (s.proc p).state.Alive)
    (hnone : s.fork p = none) (hlt : np < NPROC) (hfree : (s.proc np).state = .unused)
    (hforks : s.forks + 2 < 2 ^ 31) : LifeInv (s.take p np) := by
  have hpid : s.nextpid.toInt = s.forks + 2 := by
    rw [h.next, BitVec.toInt_eq_toNat_cond, BitVec.toNat_ofNat, Nat.mod_eq_of_lt (by omega),
      if_pos (by omega)]
    push_cast
    rfl
  have hproc : ∀ q, (s.take p np).proc q = if q = np then
      { s.proc np with state := .embryo, pid := s.forks + 2 } else s.proc q := by
    intro q
    rw [← hpid]
    exact update_apply _ _ _ _
  have hfork : ∀ q, (s.take p np).fork q = if q = p then some (.kstack np) else s.fork q :=
    fun q => update_apply _ _ _ _
  have hcreator : ∀ q, (s.take p np).creator q =
      if q = np then (s.proc p).pid else s.creator q := fun q => update_apply _ _ _ _
  have hnewst : ((s.take p np).proc np).state = .embryo := by rw [hproc, if_pos rfl]
  have hnewpid : ((s.take p np).proc np).pid = s.forks + 2 := by rw [hproc, if_pos rfl]
  have hnewpar : ((s.take p np).proc np).parent = none := by
    rw [hproc, if_pos rfl]
    exact h.unused np hfree
  refine h.replace (by rw [hfree]; simp [ProcState.Alive]) (fun q hq => by rw [hproc, if_neg hq]) hlt
    ?_ (Nat.le_succ _) (fun q hq => by rw [hcreator, if_neg hq]) rfl
    (.inl ⟨rfl, by rw [hfree]; simp⟩) (.inr ?_) (fun q hq => ?_) (fun q st hq => ?_)
    fun _ hne => absurd hnewst hne
  · change s.nextpid + 1 = BitVec.ofNat 32 (s.forks + 1 + 2)
    rw [h.next, show s.forks + 1 + 2 = s.forks + 2 + 1 by omega]
    exact (BitVec.ofNat_add (s.forks + 2) 1).symm
  · rw [hnewst, hnewpid]
    refine ⟨by simp, by simp, by simp, by omega, ?_, fun hn => ?_, fun q _ hq => ?_⟩
    · change (s.forks : Int) + 2 < ((s.forks + 1 : Nat) : Int) + 2
      omega
    · have := h.old _ hn
      omega
    · have := h.pid q hq
      omega
  · by_cases hqn : q = np
    · exact ⟨p, .kstack np, by rw [hfork, if_pos rfl], hqn.symm⟩
    · rw [hproc, if_neg hqn] at hq
      obtain ⟨r, st, hr, hst⟩ := h.embryo q hq
      refine ⟨r, st, ?_, hst⟩
      rw [hfork, if_neg, hr]
      rintro rfl
      rw [hnone] at hr
      simp at hr
  · rw [hfork] at hq
    split at hq
    · next heq =>
      cases hq
      rw [heq]
      exact ⟨halive, by rw [hcreator]; exact if_pos rfl, hnewpar⟩
    · obtain ⟨hal, hcr, hpar⟩ := h.fork q st hq
      have hstn : st.np ≠ np := by grind [hf.embryo]
      rw [hcreator, if_neg hstn, hproc, if_neg hstn]
      exact ⟨hal, hcr, hpar⟩

theorem LifeInv.taken (h : LifeInv s) (hf : ForkInv s) (hst : s.fork p = some st) :
    (s.proc st.np).state = .embryo ∧ st.np < NPROC ∧ st.np ≠ p := by
  have hembryo := hf.embryo p st hst
  refine ⟨hembryo, ?_, fun heq => ?_⟩
  · grind [h.slots]
  · rw [heq] at hembryo
    exact (h.fork p st hst).1.ne_embryo hembryo

/-- A fork goes on, fails or ends: its entry, of which `fork` is the only user, becomes
    `e`. -/
theorem LifeInv.forked {e : Entry} {st' : Option ForkStage} (h : LifeInv s) (hf : ForkInv s)
    (hst : s.fork p = some st) (hproc : s'.proc = update s.proc st.np e)
    (hfork : s'.fork = update s.fork p st') (hnext : s'.nextpid = s.nextpid)
    (hforks : s'.forks = s.forks) (hcreator : s'.creator = s.creator)
    (hexited : s'.exited = s.exited) (hreaped : s'.reaped = s.reaped)
    (he : e.state = .unused ∧ e.parent = none ∧ st' = none ∨
      e.state = .embryo ∧ e.pid = (s.proc st.np).pid ∧
        (∃ st1, st' = some st1 ∧ st1.np = st.np ∧ e.parent = st1.parent p) ∨
      e.state = .runnable ∧ e.pid = (s.proc st.np).pid ∧ e.parent = some p ∧ st' = none) :
    LifeInv s' := by
  obtain ⟨hembryo, hlt, hne⟩ := h.taken hf hst
  obtain ⟨halive, hcr, -⟩ := h.fork p st hst
  have hused : (s.proc st.np).state ≠ .unused := by simp [hembryo]
  have hold : ∀ q, q ≠ st.np → s'.proc q = s.proc q := fun q hq => by
    rw [hproc, update_of_ne hq]
  have hnew : s'.proc st.np = e := by rw [hproc, update_self]
  have hfork' : ∀ q, s'.fork q = if q = p then st' else s.fork q := fun q => by
    rw [hfork, update_apply]
  refine h.replace (by simp [hembryo, ProcState.Alive]) hold hlt
    (by rw [hnext, hforks]; exact h.next) (by omega) (fun q _ => by rw [hcreator]) hexited
    (.inl ⟨hreaped, by simp [hembryo]⟩) ?_ (fun q hq => ?_) (fun q st1 hq => ?_) fun hst1 hst2 => ?_
  · rw [hnew, hforks]
    have hold_pid : e.pid = (s.proc st.np).pid → 0 < e.pid ∧ e.pid < s.forks + 2 ∧
        e.pid ∉ s.exited ∧ ∀ q, q ≠ st.np → (s.proc q).state ≠ .unused →
          (s.proc q).pid ≠ e.pid := by
      intro hpid
      rw [hpid]
      refine ⟨(h.pid _ hused).1, (h.pid _ hused).2, h.fresh _ hused (by simp [hembryo]), ?_⟩
      exact fun q hq hq' heq => hq (h.pid_inj q st.np hq' hused heq)
    rcases he with ⟨hst1, hpar, -⟩ | ⟨hst1, hpid, -⟩ | ⟨hst1, hpid, -⟩
    · exact .inl ⟨hst1, hpar⟩
    · exact .inr ⟨by simp [hst1], by simp [hst1], by simp [hst1], hold_pid hpid⟩
    · exact .inr ⟨by simp [hst1], by simp [hst1], by simp [hst1], hold_pid hpid⟩
  · by_cases hqn : q = st.np
    · grind
    · rw [hold q hqn] at hq
      obtain ⟨r, st1, hr, hst1⟩ := h.embryo q hq
      refine ⟨r, st1, ?_, hst1⟩
      rw [hfork', if_neg, hr]
      rintro rfl
      rw [hst] at hr
      exact hqn (by rw [← hst1, Option.some.inj hr])
  · rw [hfork'] at hq
    rw [hcreator]
    split at hq
    · next heq => grind
    · next hqp =>
      obtain ⟨hal, hcr', hpar⟩ := h.fork q st1 hq
      rw [hold _ fun heq => hqp (hf.inj q p st1 st hq hst heq)]
      exact ⟨hal, hcr', hpar⟩
  · grind

/-! ### Exit and wait -/

theorem LifeInv.reap (h : LifeInv s) (hf : ForkInv s) (hlt : q < NPROC)
    (hzombie : (s.proc q).state = .zombie) : LifeInv (s.reap q) := by
  have hproc : ∀ r, (s.reap q).proc r = if r = q then
      { s.proc q with pid := 0, parent := none, killed := false, state := .unused } else s.proc r :=
    fun r => update_apply _ _ _ _
  have hnew : (s.reap q).proc q =
      { s.proc q with pid := 0, parent := none, killed := false, state := .unused } := by
    rw [hproc, if_pos rfl]
  refine h.replace (by rw [hzombie]; simp [ProcState.Alive]) (fun r hr => by rw [hproc, if_neg hr])
    hlt h.next le_rfl (fun _ _ => rfl) rfl (.inr ⟨rfl, hzombie⟩) (.inl ?_) (fun r hr => ?_)
    (fun r st hr => ?_) fun hne => ?_
  · rw [hnew]
    exact ⟨rfl, rfl⟩
  · rw [hproc] at hr
    split at hr
    · simp at hr
    · exact h.embryo r hr
  · obtain ⟨hal, hcr, hpar⟩ := h.fork r st hr
    refine ⟨hal, hcr, ?_⟩
    rw [hproc, if_neg, hpar]
    rintro rfl
    rw [hf.embryo r st hr] at hzombie
    simp at hzombie
  · rw [hnew] at hne
    exact absurd rfl hne

theorem Entry.Woken.alive {e e' : Entry} (h : e.Woken e') (he : e.state.Alive) :
    e'.state.Alive := by
  obtain rfl | ⟨-, rfl⟩ := h
  · exact he
  · exact .inr (.inl rfl)

theorem Entry.Woken.stirs {e e' : Entry} (h : e.Woken e') : e.Stirs e' := by
  refine ⟨h.pid_eq, h.parent_eq, ?_⟩
  obtain rfl | ⟨hsleep, rfl⟩ := h
  · exact .inl rfl
  · exact .inr ⟨.inr (.inr hsleep), .inr (.inl rfl)⟩

theorem LifeInv.exit (h : LifeInv s) (hx : Exits s s' p) (hrun : (s.proc p).state = .running)
    (hnone : s.fork p = none) (hinit : p ≠ initproc) : LifeInv s' := by
  have hnext : s'.nextpid = s.nextpid := (congrArg PTable.nextpid hx.frame :)
  have hforks : s'.forks = s.forks := (congrArg PTable.forks hx.frame :)
  have hfork : s'.fork = s.fork := (congrArg PTable.fork hx.frame :)
  have hcreator : s'.creator = s.creator := (congrArg PTable.creator hx.frame :)
  have hreaped : s'.reaped = s.reaped := (congrArg PTable.reaped hx.frame :)
  have hexited : s'.exited = s.exited ++ [(s.proc p).pid] := (congrArg PTable.exited hx.frame :)
  have hpused : (s.proc p).state ≠ .unused := by simp [hrun]
  have hself : (s'.proc p).state = .zombie := by
    obtain ⟨e, -, heq⟩ := hx.entry p
    rw [heq]
    exact if_pos rfl
  have hpid : ∀ q, (s'.proc q).pid = (s.proc q).pid := by
    intro q
    obtain ⟨e, hw, heq⟩ := hx.entry q
    rw [heq]
    exact hw.pid_eq
  have hparent : ∀ q, (s'.proc q).parent =
      if q < NPROC ∧ (s.proc q).parent = some p then some initproc else (s.proc q).parent := by
    intro q
    obtain ⟨e, -, heq⟩ := hx.entry q
    rw [heq]
  have hchan : ∀ q, (s'.proc q).chan = (s.proc q).chan := by
    intro q
    obtain ⟨e, hw, heq⟩ := hx.entry q
    rw [heq]
    exact hw.chan_eq
  have hstate : ∀ q, q ≠ p → ∃ e, (s.proc q).Woken e ∧ (s'.proc q).state = e.state := by
    intro q hq
    obtain ⟨e, hw, heq⟩ := hx.entry q
    exact ⟨e, hw, by rw [heq]; exact if_neg hq⟩
  have halive : ∀ q, q ≠ p → (s.proc q).state.Alive → (s'.proc q).state.Alive := by
    intro q hq hal
    obtain ⟨e, hw, heq⟩ := hstate q hq
    rw [heq]
    exact hw.alive hal
  have hsame : ∀ q, q ≠ p → ∀ st : ProcState, ¬ st.Alive →
      ((s'.proc q).state = st ↔ (s.proc q).state = st) := by
    intro q hq st hst
    obtain ⟨e, hw, heq⟩ := hstate q hq
    rw [heq]
    exact hw.stirs.eq_iff hst
  have hunused : ∀ q, (s'.proc q).state = .unused → (s.proc q).state = .unused := by
    intro q hq
    have hqp : q ≠ p := by
      rintro rfl
      rw [hself] at hq
      exact absurd hq (by simp)
    exact (hsame q hqp _ (by simp [ProcState.Alive])).mp hq
  have hembryo : ∀ q, (s'.proc q).state = .embryo ↔ (s.proc q).state = .embryo := by
    intro q
    by_cases hqp : q = p
    · subst hqp
      simp [hself, hrun]
    · exact hsame q hqp _ (by simp [ProcState.Alive])
  -- the parent of a process that leaves is another one
  have hnotself : (s.proc p).parent ≠ some p := by
    obtain ⟨r, hrp, hr, -⟩ := h.parent p hpused (by simp [hrun]) hinit
    rw [hr]
    exact fun heq => hrp (Option.some.inj heq)
  have hslot : ∀ q, (s.proc q).state ≠ .unused → q < NPROC := by
    intro q hq
    by_contra hge
    exact hq (h.slots q (by omega))
  refine
    { next := by rw [hnext, hforks]; exact h.next
      slots := fun q hq => ?_
      pid := fun q hq => ?_
      pid_inj := fun q r hq hr heq => ?_
      unused := fun q hq => ?_
      init := ⟨halive _ (Ne.symm hinit) h.init.1, ?_⟩
      embryo := fun q hq => by rw [hfork]; exact h.embryo q ((hembryo q).mp hq)
      fork := fun q st hq => ?_
      parent := fun q hq hq' hqi => ?_
      zombie := fun q hq => ?_
      fresh := fun q hq hq' => ?_
      old := fun n hn => ?_
      exited := fun n hn => ?_
      reaped := ?_
      asleep := fun q r hq hr => ?_ }
  · have hqp : q ≠ p := by
      rintro rfl
      have := hslot q hpused
      omega
    exact (hsame q hqp _ (by simp [ProcState.Alive])).mpr (h.slots q hq)
  · rw [hpid, hforks]
    by_cases hqp : q = p
    · exact hqp ▸ h.pid p hpused
    · exact h.pid q (mt (hsame q hqp _ (by simp [ProcState.Alive])).mpr hq)
  · rw [hpid, hpid] at heq
    have hused : ∀ x, (s'.proc x).state ≠ .unused → (s.proc x).state ≠ .unused := by
      intro x hx
      by_cases hxp : x = p
      · exact hxp ▸ hpused
      · exact mt (hsame x hxp _ (by simp [ProcState.Alive])).mpr hx
    exact h.pid_inj q r (hused q hq) (hused r hr) heq
  · have hq' := h.unused q (hunused q hq)
    rw [hparent, hq', if_neg (by simp)]
  · rw [hparent, h.init.2, if_neg (by simp)]
  · rw [hfork] at hq
    obtain ⟨hal, hcr, hpar⟩ := h.fork q st hq
    have hqp : q ≠ p := by
      rintro rfl
      rw [hnone] at hq
      exact absurd hq (by simp)
    rw [hcreator, hpid, hparent, hpar, if_neg]
    · exact ⟨halive q hqp hal, hcr, rfl⟩
    · rintro ⟨-, heq⟩
      cases st with
      | kstack np => exact absurd heq (by simp [ForkStage.parent])
      | copy np => exact absurd heq (by simp [ForkStage.parent])
      | ready np => exact hqp (Option.some.inj heq)
  · have hused : (s.proc q).state ≠ .unused := by
      by_cases hqp : q = p
      · exact hqp ▸ hpused
      · exact mt (hsame q hqp _ (by simp [ProcState.Alive])).mpr hq
    obtain ⟨r, hrq, hr, hal, hcr⟩ := h.parent q hused (mt (hembryo q).mpr hq') hqi
    rw [hexited, hcreator, hparent]
    by_cases hrp : r = p
    · -- an abandoned child goes to init
      subst hrp
      refine ⟨initproc, Ne.symm hqi, if_pos ⟨hslot q hused, hr⟩, halive _ (Ne.symm hinit) h.init.1,
        .inr ⟨?_, rfl⟩⟩
      rcases hcr with hcr | ⟨-, heq⟩
      · rw [← hcr]
        simp
      · exact absurd heq hinit
    · refine ⟨r, hrq, ?_, halive r hrp hal, ?_⟩
      · rw [if_neg, hr]
        rw [hr]
        exact fun heq => hrp (Option.some.inj heq.2)
      · rw [hpid]
        exact hcr.imp_right fun hc => ⟨List.mem_append_left _ hc.1, hc.2⟩
  · rw [hpid, hexited, hreaped]
    by_cases hqp : q = p
    · subst hqp
      refine ⟨by simp, fun hn => ?_⟩
      exact h.fresh q hpused (by simp [hrun]) (h.reaped.2 _ hn)
    · obtain ⟨hex, hre⟩ := h.zombie q ((hsame q hqp _ (by simp [ProcState.Alive])).mp hq)
      exact ⟨List.mem_append_left _ hex, hre⟩
  · have hqp : q ≠ p := by
      rintro rfl
      exact hq' hself
    have hused := mt (hsame q hqp _ (by simp [ProcState.Alive])).mpr hq
    rw [hpid, hexited, List.mem_append, List.mem_singleton, not_or]
    refine ⟨h.fresh q hused (mt (hsame q hqp _ (by simp [ProcState.Alive])).mpr hq'), fun heq => ?_⟩
    exact hqp (h.pid_inj q p hused hpused heq)
  · rw [hexited, List.mem_append, List.mem_singleton] at hn
    rw [hforks]
    rcases hn with hn | rfl
    · exact h.old n hn
    · exact (h.pid p hpused).2
  · rw [hexited, List.mem_append, List.mem_singleton] at hn
    rw [hreaped]
    rcases hn with hn | rfl
    · refine (h.exited n hn).imp_right fun ⟨q, hq, heq⟩ => ?_
      have hqp : q ≠ p := by
        rintro rfl
        rw [hrun] at hq
        exact absurd hq (by simp)
      exact ⟨q, (hsame q hqp _ (by simp [ProcState.Alive])).mpr hq, by rw [hpid, heq]⟩
    · exact .inr ⟨p, hself, hpid p⟩
  · rw [hreaped, hexited]
    exact ⟨h.reaped.1, fun n hn => List.mem_append_left _ (h.reaped.2 n hn)⟩
  · -- who still sleeps in `wait` was woken neither as parent nor as init
    have hqp : q ≠ p := by
      rintro rfl
      rw [hself] at hq
      exact absurd hq (by simp)
    rw [hchan] at hr
    have hsleep : (s.proc q).state = .sleeping := by
      obtain ⟨e, hw, heq⟩ := hstate q hqp
      have hsl : e.state = .sleeping := by rw [← heq, hq]
      rw [← hw.of_sleeping hsl, hsl]
    obtain ⟨hrq, hkids⟩ := h.asleep q r hsleep hr
    subst hrq
    refine ⟨rfl, fun x hxq hxz => ?_⟩
    rw [hparent] at hxq
    by_cases hxp : x = p
    · subst hxp
      rw [if_neg fun hc => hnotself hc.2] at hxq
      exact hx.parent r hq r hxq hr
    · have hxz' := (hsame x hxp _ (by simp [ProcState.Alive])).mp hxz
      split at hxq
      · next hc =>
        rw [← Option.some.inj hxq] at hr hq
        exact hx.init x hc.1 hc.2 hxz' _ hq hr
      · exact hkids x hxq hxz'

/-! ### Steps -/

theorem Entry.Stirs.refl (e : Entry) : e.Stirs e := ⟨rfl, rfl, .inl rfl⟩

/-- One living process changes its entry, and does not go to sleep in `wait`. -/
theorem LifeInv.stirOne {e : Entry} (h : LifeInv s)
    (hproc : s'.proc = update s.proc p e) (hstirs : (s.proc p).Stirs e)
    (hasleep : e.state = .sleeping → ∀ r, e.chan = some (.proc r) →
      (s.proc p).state = .sleeping ∧ (s.proc p).chan = some (.proc r) ∨
        r = p ∧ ∀ q, (s.proc q).parent = some p → (s.proc q).state ≠ .zombie)
    (hnext : s'.nextpid = s.nextpid) (hfork : s'.fork = s.fork) (hforks : s'.forks = s.forks)
    (hcreator : s'.creator = s.creator) (hexited : s'.exited = s.exited)
    (hreaped : s'.reaped = s.reaped) : LifeInv s' := by
  refine h.stir (fun q => ?_) (fun q r hq hr => ?_) hnext hfork hforks hcreator hexited hreaped
  · rw [hproc, update_apply]
    split
    · next heq => exact heq ▸ hstirs
    · exact .refl _
  · rw [hproc, update_apply] at hq hr
    split at hq
    · grind
    · grind

theorem LifeInv.wakeup1 (h : LifeInv s) (ch : SleepChan) : LifeInv (s.wakeup1 ch) := by
  refine h.stir (fun q => (s.wakeup1_woken ch q).stirs) (fun q r hq hr => .inl ?_) rfl rfl rfl rfl
    rfl rfl
  have heq := (s.wakeup1_woken ch q).of_sleeping hq
  rw [heq] at hq hr
  exact ⟨hq, hr⟩

theorem LifeInv.thread (h : LifeInv s) (hf : ForkInv s) (hi : SchedInv s)
    (hon : (s.cpu c).on = some p) (hs : ThreadStep s c p s') (hforks : s'.forks < 2 ^ 31 - 1) :
    LifeInv s' := by
  obtain ⟨-, -, hrun, -⟩ := hi.on hon
  have hneeds := hf.needs p
  have hrunning : ∀ {pc}, s.thread p = pc → (∀ k, pc ≠ .sched k) →
      (s.proc p).state = .running := fun hpc hne => hrun fun k hk => hne k (hpc.symm.trans hk)
  -- the running process changes its entry
  have hown : ∀ {pc} {st : ProcState}, s.thread p = pc → (∀ k, pc ≠ .sched k) → st.Alive →
      (s.proc p).state.Alive ∧ st.Alive := fun hpc hne hst => ⟨.inl (hrunning hpc hne), hst⟩
  cases hs with
  | stay => exact h
  | noEntry => exact h.of_eq rfl rfl rfl rfl rfl rfl rfl
  | @take np hpc hlt hfree =>
    rw [hpc] at hneeds
    have hbound : s.forks + 2 < 2 ^ 31 := by
      have hforks : s.forks + 1 < 2 ^ 31 - 1 := hforks
      omega
    exact (h.take hf (.inl (hrunning hpc (by simp))) hneeds hlt hfree hbound).of_eq rfl rfl rfl rfl
      rfl rfl rfl
  | @ready np hpc =>
    rw [hpc] at hneeds
    have hst : s.fork p = some (.ready np) := hneeds
    obtain ⟨-, -, hpar⟩ := h.fork p _ hst
    exact h.forked hf hst rfl rfl rfl rfl rfl rfl rfl (.inr (.inr ⟨rfl, rfl, hpar, rfl⟩))
  | exit hpc =>
    rw [hpc] at hneeds
    have hx := s.exit_spec p
    generalize s.exit p = s1 at hx ⊢
    exact (h.exit hx (hrunning hpc (by simp)) hneeds.1 hneeds.2).of_eq rfl rfl rfl rfl rfl rfl rfl
  | reap _ hlt _ hzombie => exact (h.reap hf hlt hzombie).of_eq rfl rfl rfl rfl rfl rfl rfl
  | waitFail => exact h.of_eq rfl rfl rfl rfl rfl rfl rfl
  | waitSleep hpc hkids =>
    refine h.stirOne rfl ⟨rfl, rfl, .inr (hown hpc (by simp) (.inr (.inr rfl)))⟩ (fun _ r hr => .inr ?_) rfl rfl rfl rfl rfl rfl
    refine ⟨by simpa using hr.symm, fun q hq hz => hkids q ?_ hq hz⟩
    by_contra hge
    rw [h.slots q (by omega)] at hz
    simp at hz
  | yield hpc =>
    exact h.stirOne rfl ⟨rfl, rfl, .inr (hown hpc (by simp) (.inr (.inl rfl)))⟩ (by simp)
      rfl rfl rfl rfl rfl rfl
  | @sleep ch hpc =>
    rw [hpc] at hneeds
    refine h.stirOne rfl ⟨rfl, rfl, .inr (hown hpc (by simp) (.inr (.inr rfl)))⟩ (fun _ r hr => ?_)
      rfl rfl rfl rfl rfl rfl
    obtain rfl : ch = .proc r := by simpa using hr
    exact absurd hneeds id
  | wakeup => exact (h.wakeup1 _).of_eq rfl rfl rfl rfl rfl rfl rfl
  | @strike n q hpc =>
    refine h.stirOne (p := q) rfl ⟨rfl, rfl, ?_⟩ (fun hst r hr => ?_) rfl rfl rfl rfl rfl rfl
    · dsimp only
      split
      · next hsleep => exact .inr ⟨.inr (.inr hsleep), .inr (.inl rfl)⟩
      · exact .inl rfl
    · grind
  | killFail => exact h.of_eq rfl rfl rfl rfl rfl rfl rfl
  | sched => exact h.of_eq rfl rfl rfl rfl rfl rfl rfl
  | resumeYield => exact h.of_eq rfl rfl rfl rfl rfl rfl rfl
  | resumeSleep => exact h.stirOne rfl ⟨rfl, rfl, .inl rfl⟩ (by simp) rfl rfl rfl rfl rfl rfl
  | resumeWait => exact h.stirOne rfl ⟨rfl, rfl, .inl rfl⟩ (by simp) rfl rfl rfl rfl rfl rfl
  | release => exact h.of_eq rfl rfl rfl rfl rfl rfl rfl

theorem LifeInv.step (h : LifeInv s) (hf : ForkInv s) (hi : SchedInv s) {e : PEvent}
    (hs : PStep s e s') (hforks : s'.forks < 2 ^ 31 - 1) : LifeInv s' := by
  cases hs with
  | stay => exact h
  | schedAcquire => exact h.of_eq rfl rfl rfl rfl rfl rfl rfl
  | schedWake => exact (h.wakeup1 _).of_eq rfl rfl rfl rfl rfl rfl rfl
  | dispatch _ _ _ hrunnable =>
    exact h.stirOne rfl ⟨rfl, rfl, .inr ⟨.inr (.inl hrunnable), .inl rfl⟩⟩ (by simp)
      rfl rfl rfl rfl rfl rfl
  | skip => exact h.of_eq rfl rfl rfl rfl rfl rfl rfl
  | schedRelease => exact h.of_eq rfl rfl rfl rfl rfl rfl rfl
  | swtch => exact h.of_eq rfl rfl rfl rfl rfl rfl rfl
  | back => exact h.of_eq rfl rfl rfl rfl rfl rfl rfl
  | intr => exact h.of_eq rfl rfl rfl rfl rfl rfl rfl
  | acquire => exact h.of_eq rfl rfl rfl rfl rfl rfl rfl
  | @fault c p hon hrun =>
    exact h.stirOne rfl ⟨rfl, rfl, .inl rfl⟩ (fun hst r hr => .inl ⟨hst, hr⟩)
      rfl rfl rfl rfl rfl rfl
  | @kstack c p np hon hrun hst =>
    obtain ⟨-, -, hpar⟩ := h.fork p _ hst
    exact h.forked hf hst (update_eq_self _ _).symm rfl rfl rfl rfl rfl rfl
      (.inr (.inl ⟨hf.embryo p _ hst, rfl, _, rfl, rfl, hpar⟩))
  | @copied c p np hon hrun hst =>
    exact h.forked hf hst rfl rfl rfl rfl rfl rfl rfl
      (.inr (.inl ⟨hf.embryo p _ hst, rfl, _, rfl, rfl, rfl⟩))
  | @forkFails c p np call hon hrun hst =>
    rcases hst with ⟨hst, -⟩ | ⟨hst, -⟩
    · obtain ⟨-, -, hpar⟩ := h.fork p _ hst
      exact h.forked hf hst rfl rfl rfl rfl rfl rfl rfl (.inl ⟨rfl, hpar, rfl⟩)
    · obtain ⟨-, -, hpar⟩ := h.fork p _ hst
      exact h.forked hf hst rfl rfl rfl rfl rfl rfl rfl (.inl ⟨rfl, hpar, rfl⟩)
  | thread hon ht => exact h.thread hf hi hon ht hforks

theorem PStep.forks_le {e : PEvent} (hs : PStep s e s') : s.forks ≤ s'.forks := by
  cases hs with
  | @thread c p s' hon ht =>
    cases ht with
    | take => exact Nat.le_succ _
    | exit =>
      have hx := s.exit_spec p
      generalize s.exit p = s1 at hx ⊢
      have heq : s1.forks = s.forks := (congrArg PTable.forks hx.frame :)
      exact heq.ge
    | _ => exact le_rfl
  | _ => exact le_rfl

theorem PTable.forks_le_steps (s : PTable) (events : List PEvent) :
    s.forks ≤ (s.steps events).forks := by
  induction events generalizing s with
  | nil => exact le_rfl
  | cons e events ih => exact (s.step_spec e).forks_le.trans (ih (s.step e))

theorem LifeInv.steps (events : List PEvent)
    (hforks : (PTable.init.steps events).forks < 2 ^ 31 - 1) :
    LifeInv (PTable.init.steps events) := by
  have hsteps : ∀ s : PTable, LifeInv s → ForkInv s → SchedInv s →
      (s.steps events).forks < 2 ^ 31 - 1 → LifeInv (s.steps events) := by
    clear hforks
    induction events with
    | nil => exact fun s h _ _ _ => h
    | cons e events ih =>
      intro s h hf hi hbound
      have hs := s.step_spec e
      have hle := (s.step e).forks_le_steps events
      have hbound' : ((s.step e).steps events).forks < 2 ^ 31 - 1 := hbound
      exact ih _ (h.step hf hi hs (by omega)) (hf.step hi hs) (hi.step hf hs) hbound'
  exact hsteps _ .start ForkInv.init SchedInv.init hforks

/-- `wait` returns -1 only if the caller has no child or is killed. -/
theorem LifeInv.wait_fails (h : LifeInv s) (hon : (s.cpu c).on = some p)
    (hwait : s.thread p = .wait)
    (hret : (s.step (.run c)).thread p = .release (some (-1))) :
    (∀ q, (s.proc q).parent ≠ some p) ∨ (s.proc p).killed = true := by
  have hself : ∀ {s1 : PTable} {pc}, (s1.goto p pc).thread p = pc := update_self _ _ _
  rw [PTable.step, hon] at hret
  dsimp only at hret
  rw [PTable.next, hwait] at hret
  dsimp only at hret
  split at hret
  · next q hq =>
    obtain ⟨-, hchild⟩ := firstSlot_some hq
    have hused : (s.proc q).state ≠ .unused := by simp [(of_decide_eq_true hchild).2]
    rw [hself] at hret
    have hpid : (s.proc q).pid = -1 := by simpa using hret
    have := (h.pid q hused).1
    omega
  · split at hret
    · next hcond =>
      refine hcond.imp_left fun hkids q hq => ?_
      by_cases hlt : q < NPROC
      · exact of_decide_eq_false (firstSlot_none hkids hlt) hq
      · rw [h.unused q (h.slots q (by omega))] at hq
        simp at hq
    · grind

/-- Only `wait` reaps: a zombie, for its parent, whose call returns the pid. -/
theorem PTable.reaps_child {e : PEvent} (hreaped : (s.step e).reaped ≠ s.reaped) :
    ∃ c p q, e = .run c ∧ (s.cpu c).on = some p ∧ s.thread p = .wait ∧
      (s.proc q).parent = some p ∧ (s.proc q).state = .zombie ∧
      (s.step e).reaped = s.reaped ++ [(s.proc q).pid] ∧
      (s.step e).thread p = .release (some (s.proc q).pid) := by
  have hs := s.step_spec e
  generalize s.step e = s' at hs hreaped ⊢
  cases hs with
  | @thread c p s' hon ht =>
    cases ht with
    | @reap q hpc hlt hparent hzombie =>
      exact ⟨c, p, q, rfl, hon, hpc, hparent, hzombie, rfl, update_self _ _ _⟩
    | exit =>
      have hx := s.exit_spec p
      generalize s.exit p = s1 at hx hreaped
      have heq : s1.reaped = s.reaped := (congrArg PTable.reaped hx.frame :)
      exact absurd heq hreaped
    | _ => exact absurd rfl hreaped
  | _ => exact absurd rfl hreaped

/-- The life of processes, for fewer forks than there are positive pids left: pids are
    distinct and positive, parents are alive, and every process that exited is a zombie
    until the `wait` of its parent returns its pid, once. -/
theorem process_life_cycle (events : List PEvent)
    (hforks : (PTable.init.steps events).forks < 2 ^ 31 - 1) :
    let s := PTable.init.steps events
    (∀ p, (s.proc p).state ≠ .unused → 0 < (s.proc p).pid ∧
      ∀ q, (s.proc q).state ≠ .unused → (s.proc q).pid = (s.proc p).pid → q = p) ∧
    (∀ p, p ≠ initproc → (s.proc p).state ≠ .unused → (s.proc p).state ≠ .embryo →
      ∃ q, (s.proc p).parent = some q ∧ (s.proc q).state ≠ .unused ∧
        (s.proc q).state ≠ .zombie ∧
        ((s.proc q).pid = s.creator p ∨ s.creator p ∈ s.exited ∧ q = initproc)) ∧
    (∀ p, (s.proc p).state = .embryo → (s.proc p).parent = none ∨
      ∃ q, (s.proc p).parent = some q ∧ (s.proc q).state.Alive ∧ (s.proc q).pid = s.creator p) ∧
    s.reaped.Nodup ∧
    (∀ n ∈ s.exited, n ∈ s.reaped ∨ ∃ p, (s.proc p).state = .zombie ∧ (s.proc p).pid = n) ∧
    (∀ e, (s.step e).reaped ≠ s.reaped → ∃ c p q, e = .run c ∧ (s.cpu c).on = some p ∧
      s.thread p = .wait ∧ (s.proc q).parent = some p ∧ (s.proc q).state = .zombie ∧
      (s.step e).reaped = s.reaped ++ [(s.proc q).pid] ∧
      (s.step e).thread p = .release (some (s.proc q).pid)) ∧
    (∀ c p, (s.cpu c).on = some p → s.thread p = .wait →
      (s.step (.run c)).thread p = .release (some (-1)) →
      (∀ q, (s.proc q).parent ≠ some p) ∨ (s.proc p).killed = true) ∧
    ∀ q, (s.proc q).state = .sleeping → (s.proc q).chan = some (.proc q) →
      ∀ p, (s.proc p).parent = some q → (s.proc p).state ≠ .zombie := by
  intro s
  have h : LifeInv s := .steps events hforks
  refine ⟨fun p hp => ⟨(h.pid p hp).1, fun q hq heq => h.pid_inj q p hq hp heq⟩,
    fun p hpi hp hp' => ?_, fun p hp => ?_, h.reaped.1, h.exited, fun e he => ?_,
    fun c p hon hwait hret => h.wait_fails hon hwait hret, fun q hq hr => (h.asleep q q hq hr).2⟩
  · obtain ⟨q, -, hq, hal, hcr⟩ := h.parent p hp hp' hpi
    exact ⟨q, hq, hal.ne_unused, hal.ne_zombie, hcr⟩
  · obtain ⟨q, st, hst, rfl⟩ := h.embryo p hp
    obtain ⟨hal, hcr, hpar⟩ := h.fork q st hst
    rw [hpar]
    cases st with
    | kstack np => exact .inl rfl
    | copy np => exact .inl rfl
    | ready np => exact .inr ⟨q, rfl, hal, hcr.symm⟩
  · exact PTable.reaps_child he

/-- CPU 0 dispatches the first process, which enters `fork` and takes an entry. -/
def firstFork : List PEvent :=
  [.sched 0, .sched 0, .sched 0, .run 0, .run 0, .call 0 .fork, .run 0, .run 0]

theorem process_life_cycle_fork :
    (PTable.init.steps firstFork).forks < 2 ^ 31 - 1 ∧
      0 < ((PTable.init.steps firstFork).proc 1).pid := by
  have hforks : (PTable.init.steps firstFork).forks < 2 ^ 31 - 1 := by decide
  exact ⟨hforks, ((process_life_cycle firstFork hforks).1 1 (by decide)).1⟩

/-- While `fork` copies the memory, its entry is an `EMBRYO` that has no parent. -/
theorem embryo_without_parent :
    let s := PTable.init.steps firstFork
    s.lock = none ∧ (s.proc 1).state = .embryo ∧ (s.proc 1).parent = none := by
  decide

/-! ### Killed processes -/

/-- A `kill` does not search for a pid that an unused entry carries, and no fork fails
    after its entry was killed. -/
def PEvent.SparesUnused (s : PTable) : PEvent → Prop
  | .run c => ∀ p n, (s.cpu c).on = some p → s.thread p = .kill n →
      ∀ q, (s.proc q).state = .unused → (s.proc q).pid ≠ n
  | .call c (.kstack false) | .call c (.copied false) =>
    ∀ p st, (s.cpu c).on = some p → s.fork p = some st → (s.proc st.np).killed = false
  | _ => True

def PTable.Spares (s : PTable) : List PEvent → Prop
  | [] => True
  | e :: events => e.SparesUnused s ∧ (s.step e).Spares events

/-- Killed processes have been marked, and unused entries are not killed. -/
structure KillInv (s : PTable) : Prop where
  unused : ∀ p, (s.proc p).state = .unused → (s.proc p).killed = false
  marked : ∀ p, (s.proc p).state ≠ .unused → (s.proc p).killed = true → s.marked p = true

theorem KillInv.init : KillInv PTable.init where
  unused p _ := by
    simp only [PTable.init]
    split <;> rfl
  marked p _ h := by
    simp only [PTable.init] at h
    split at h <;> simp at h

theorem KillInv.of_eq (h : KillInv s) (hmarked : s'.marked = s.marked)
    (hproc : ∀ q, (s'.proc q).killed = (s.proc q).killed ∧
      ((s'.proc q).state = .unused ↔ (s.proc q).state = .unused)) : KillInv s' := by
  refine ⟨fun p hp => ?_, fun p hp hk => ?_⟩
  · rw [(hproc p).1]
    exact h.unused p ((hproc p).2.mp hp)
  · rw [hmarked]
    exact h.marked p (mt (hproc p).2.mpr hp) ((hproc p).1.symm.trans hk)

theorem Entry.Woken.killed_eq {e e' : Entry} (h : e.Woken e') : e'.killed = e.killed := by
  obtain rfl | ⟨-, rfl⟩ := h <;> rfl

/-- The entry of `q` changes, and its mark does if need be. -/
theorem KillInv.update {e : Entry} (h : KillInv s) (hproc : s'.proc = Function.update s.proc q e)
    (hmarked : ∀ p, p ≠ q → s'.marked p = s.marked p)
    (he : e.state = .unused ∧ e.killed = false ∨
      e.state ≠ .unused ∧ (e.killed = true → s'.marked q = true)) : KillInv s' := by
  refine ⟨fun p hp => ?_, fun p hp hk => ?_⟩
  · rw [hproc, update_apply] at hp ⊢
    split at hp
    · next heq =>
      rw [if_pos heq]
      exact (he.resolve_right fun hc => hc.1 hp).2
    · next hne =>
      rw [if_neg hne]
      exact h.unused p hp
  · rw [hproc, update_apply] at hp hk
    split at hp
    · next heq =>
      rw [if_pos heq] at hk
      exact heq ▸ (he.resolve_left fun hc => hp hc.1).2 hk
    · next hne =>
      rw [if_neg hne] at hk
      rw [hmarked p hne]
      exact h.marked p hp hk

theorem KillInv.keep {e : Entry} (h : KillInv s) (hproc : s'.proc = Function.update s.proc q e)
    (hmarked : s'.marked = s.marked) (hused : (s.proc q).state ≠ .unused) (he : e.state ≠ .unused)
    (hkilled : e.killed = (s.proc q).killed) : KillInv s' := by
  refine h.update hproc (fun p _ => by rw [hmarked]) (.inr ⟨he, fun hk => ?_⟩)
  rw [hmarked]
  exact h.marked q hused (hkilled.symm.trans hk)

theorem KillInv.thread (h : KillInv s) (hf : ForkInv s) (hi : SchedInv s)
    (hon : (s.cpu c).on = some p) (hs : ThreadStep s c p s')
    (hspares : (PEvent.run c).SparesUnused s) : KillInv s' := by
  obtain ⟨-, -, hrun, -⟩ := hi.on hon
  have hused : ∀ {pc}, s.thread p = pc → (∀ k, pc ≠ .sched k) → (s.proc p).state ≠ .unused := by
    grind
  cases hs with
  | stay => exact h
  | noEntry => exact h.of_eq rfl fun _ => ⟨rfl, Iff.rfl⟩
  | @take np hpc hlt hfree =>
    refine h.update rfl (fun q hq => update_of_ne hq _ _) (.inr ⟨by simp, fun hk => ?_⟩)
    rw [h.unused np hfree] at hk
    simp at hk
  | @ready np hpc =>
    have hneeds := hf.needs p
    rw [hpc] at hneeds
    have hembryo : (s.proc np).state = .embryo := hf.embryo p _ hneeds
    exact h.keep rfl rfl (by simp [hembryo]) (by simp) rfl
  | exit hpc =>
    have hx := s.exit_spec p
    generalize s.exit p = s1 at hx ⊢
    refine h.of_eq (congrArg PTable.marked hx.frame :) fun q => ?_
    obtain ⟨e, hw, heq⟩ := hx.entry q
    refine ⟨(congrArg Entry.killed heq).trans hw.killed_eq, ?_⟩
    change (s1.proc q).state = _ ↔ _
    rw [heq]
    dsimp only
    split
    · next hq => exact iff_of_false (by simp) (hq ▸ hused hpc (by simp))
    · exact hw.stirs.eq_iff (by simp [ProcState.Alive])
  | reap => exact h.update rfl (fun _ _ => rfl) (.inl ⟨rfl, rfl⟩)
  | waitFail => exact h.of_eq rfl fun _ => ⟨rfl, Iff.rfl⟩
  | waitSleep hpc => exact h.keep rfl rfl (hused hpc (by simp)) (by simp) rfl
  | yield hpc => exact h.keep rfl rfl (hused hpc (by simp)) (by simp) rfl
  | sleep hpc => exact h.keep rfl rfl (hused hpc (by simp)) (by simp) rfl
  | @wakeup ch =>
    refine h.of_eq rfl fun q => ⟨(s.wakeup1_woken ch q).killed_eq, ?_⟩
    exact (s.wakeup1_woken ch q).stirs.eq_iff (by simp [ProcState.Alive])
  | @strike n q hpc hlt hpid =>
    have hq : (s.proc q).state ≠ .unused := fun hq => hspares p n hon hpc q hq hpid
    refine h.update rfl (fun r hr => update_of_ne hr _ _)
      (.inr ⟨?_, fun _ => update_self _ _ _⟩)
    dsimp only
    split
    · simp
    · exact hq
  | killFail => exact h.of_eq rfl fun _ => ⟨rfl, Iff.rfl⟩
  | sched => exact h.of_eq rfl fun _ => ⟨rfl, Iff.rfl⟩
  | resumeYield => exact h.of_eq rfl fun _ => ⟨rfl, Iff.rfl⟩
  | resumeSleep hpc => exact h.keep rfl rfl (hused hpc (by simp)) (hused hpc (by simp)) rfl
  | resumeWait hpc => exact h.keep rfl rfl (hused hpc (by simp)) (hused hpc (by simp)) rfl
  | release => exact h.of_eq rfl fun _ => ⟨rfl, Iff.rfl⟩

theorem KillInv.step (h : KillInv s) (hf : ForkInv s) (hi : SchedInv s) {e : PEvent}
    (hs : PStep s e s') (hspares : e.SparesUnused s) : KillInv s' := by
  cases hs with
  | stay => exact h
  | schedAcquire => exact h.of_eq rfl fun _ => ⟨rfl, Iff.rfl⟩
  | @schedWake c ch =>
    refine h.of_eq rfl fun q => ⟨(s.wakeup1_woken ch q).killed_eq, ?_⟩
    exact (s.wakeup1_woken ch q).stirs.eq_iff (by simp [ProcState.Alive])
  | dispatch _ _ _ hrunnable => exact h.keep rfl rfl (by simp [hrunnable]) (by simp) rfl
  | skip => exact h.of_eq rfl fun _ => ⟨rfl, Iff.rfl⟩
  | schedRelease => exact h.of_eq rfl fun _ => ⟨rfl, Iff.rfl⟩
  | swtch => exact h.of_eq rfl fun _ => ⟨rfl, Iff.rfl⟩
  | back => exact h.of_eq rfl fun _ => ⟨rfl, Iff.rfl⟩
  | intr => exact h.of_eq rfl fun _ => ⟨rfl, Iff.rfl⟩
  | acquire => exact h.of_eq rfl fun _ => ⟨rfl, Iff.rfl⟩
  | @fault c p hon hrun =>
    have hstate : (s.proc p).state = .running := (hi.on hon).2.2.1 (by simp [hrun])
    exact h.update rfl (fun q hq => update_of_ne hq _ _)
      (.inr ⟨by simp [hstate], fun _ => update_self _ _ _⟩)
  | kstack => exact h.of_eq rfl fun _ => ⟨rfl, Iff.rfl⟩
  | @copied c p np hon hrun hst =>
    have hembryo : (s.proc np).state = .embryo := hf.embryo p _ hst
    exact h.keep rfl rfl (by simp [hembryo]) (by simp [hembryo]) rfl
  | @forkFails c p np call hon hrun hst =>
    have hkilled : (s.proc np).killed = false := by
      rcases hst with ⟨hst, rfl⟩ | ⟨hst, rfl⟩
      · exact hspares p _ hon hst
      · exact hspares p _ hon hst
    exact h.update rfl (fun _ _ => rfl) (.inl ⟨rfl, hkilled⟩)
  | thread hon ht => exact h.thread hf hi hon ht hspares

theorem KillInv.steps (events : List PEvent) (hspares : PTable.init.Spares events) :
    KillInv (PTable.init.steps events) := by
  have hsteps : ∀ s : PTable, KillInv s → ForkInv s → SchedInv s → s.Spares events →
      KillInv (s.steps events) := by
    clear hspares
    induction events with
    | nil => exact fun s h _ _ _ => h
    | cons e events ih =>
      intro s h hf hi hspares
      have hs := s.step_spec e
      exact ih _ (h.step hf hi hs hspares.1) (hf.step hi hs) (hi.step hf hs) hspares.2
  exact hsteps _ .init ForkInv.init SchedInv.init hspares

end CowPaging
