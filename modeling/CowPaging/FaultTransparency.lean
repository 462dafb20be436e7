import CowPaging.Exhaustion
import CowPaging.Guarded
import CowPaging.KallocContract

/-!
# Resolving a fault

A fault at a valid address needs a page when the page there is shared or swapped out. If
the free list has one, or the eviction takes a page that nobody else maps and finds no
stale entry in the process table, nobody sees a difference and the access goes through
when it is tried again, without another allocation.

The states considered are those of runs in which every eviction was of this kind. The
routine `spare` is `find_new_page_after_swapping` with that condition; a `fork` moreover
does not take pages of its caller.
-/

namespace CowPaging

open Bytes StateExcept SlotTable

/-- The page that `select_a_victim` would pick has no other sharer. -/
def victimUnshared [KernelImage] (s : Kernel) : Bool :=
  match selectAVictim s with
  | .ok (some ptr, s₁) => (s₁.rmap (frameOf (pteAt s₁ ptr))).refcount == 1
  | _ => true

instance (s : Kernel) : Decidable (Clean s) := inferInstanceAs (Decidable (_ ∧ _))

/-- What a harmless eviction finds: no stale sizes, a page of one sharer, and with `keep`
    one that is not the caller's. -/
def Spares [KernelImage] (keep : Bool) (s : Kernel) : Prop :=
  Clean s ∧ victimUnshared s = true ∧
    (keep = true → (s.proc (selectVictimProcess s)).pgdir ≠ (s.proc s.cur).pgdir)

instance [KernelImage] (keep : Bool) (s : Kernel) : Decidable (Spares keep s) :=
  inferInstanceAs (Decidable (_ ∧ _ ∧ _))

/-- The kernel's eviction routine, where it is harmless. -/
def spare [KernelImage] (keep : Bool) : K Unit := fun s =>
  if Spares keep s then findNewPageAfterSwapping s else .error .noEvict

section

variable [KernelImage] {mode : Mode} {keep : Bool} {own : Owners} {s s₀ s₁ s' : Kernel}
  {m : Flat} {p va : Nat} {op : Op} {ops : List (Nat × Op)} {otherCpus : Nat}
  {initcode : List Byte}

theorem cautious_spare : Cautious (spare keep) findNewPageAfterSwapping := by
  intro s
  unfold spare
  split
  · exact .inr rfl
  · exact .inl rfl

theorem refcount_of_victimUnshared (h : victimUnshared s = true) (ptr : PtePtr) (s₁ : Kernel)
    (hsel : selectAVictim s = .ok (some ptr, s₁)) :
    (s₁.rmap (frameOf (pteAt s₁ ptr))).refcount = 1 := by
  rw [victimUnshared, hsel] at h
  exact beq_iff_eq.1 h

/-- Why a run with these evictions may stop: an eviction that is not harmless, no slot, or
    no victim. -/
def Stuck (e : Halt) : Prop := e = .noEvict ∨ OutOfPages e

theorem evictOk_spare (hres : mode.resident = false) : EvictOk mode keep (spare keep) Stuck := by
  intro own s h hempty
  by_cases hok : Spares keep s
  · have hspec := findNewPage_keeps (E := Stuck) h hempty hres hok.1
      (refcount_of_victimUnshared hok.2.1) (.inr (.inr (.inl rfl)))
      (.inr (.inr (.inr rfl))) hok.2.2
    unfold wp at hspec ⊢
    rw [spare, if_pos hok]
    exact hspec
  · unfold wp
    rw [spare, if_neg hok]
    exact .inl rfl

/-! ### Runs -/

def Op.isFork : Op → Bool
  | .fork => true
  | _ => false

/-- What is called here: `fork` by a process whose pages are in memory, arguments of `exec`
    that `fetchstr` accepted, no `sbrk` to size 0, accesses to pages of the process that
    user code may use, faults below the size. -/
def Orderly (s : Kernel) (p : Nat) (op : Op) : Prop :=
  Runs s p ∧ match op with
    | .fork => Resident s p
    | .exec _ argv => ArgsFit argv
    | .sbrk n => n < 0 → addSigned (s.proc p).sz n ≠ 0
    | .exit => s.initproc ≠ some p
    | .wait => True
    | .read va => Accessible s p va
    | .write va _ => Accessible s p va
    | .fault va => va < (s.proc p).sz
    | .touch va => va < (s.proc p).sz

/-- A run whose evictions are all harmless. -/
inductive SparingRun : Kernel → List (Nat × Op) → Kernel → Prop where
  | nil (s : Kernel) : SparingRun s [] s
  | cons {s s₁ s₂ : Kernel} {p : Nat} {op : Op} {r : Reply} {ops : List (Nat × Op)} :
      Orderly s p op → perform (spare op.isFork) p op s = .ok (r, s₁) →
      SparingRun s₁ ops s₂ → SparingRun s ((p, op) :: ops) s₂

omit [KernelImage] in
theorem Orderly.admits (h : Orderly s p op) :
    Runs s p ∧ Admits Mode.shared op.isFork s p op := by
  obtain ⟨hrun, hop⟩ := h
  refine ⟨hrun, ?_⟩
  cases op with
  | fork => exact ⟨rfl, rfl, hop⟩
  | exec ip argv => exact ⟨hop, fun hm => Bool.noConfusion hm⟩
  | sbrk n => exact ⟨hop, fun hm => Bool.noConfusion hm⟩
  | exit => exact hop
  | wait => rfl
  | read va => exact hop
  | write va b => exact hop
  | fault va => exact hop
  | touch va => exact hop

theorem KInv.shared (h : KInv mode own s) : KInv Mode.shared own s :=
  ⟨h.inv.shared, h.kstack, h.attached, h.above, h.settled,
    fun _ hK => (Option.some_ne_none _ hK.symm).elim⟩

theorem SparingRun.refines (hs : SparingRun s ops s') (h : Refines Mode.shared own s m) :
    ∃ own' m', Refines Mode.shared own' s' m' := by
  induction hs generalizing own m with
  | nil s => exact ⟨own, m, h⟩
  | cons hcall hperf _ ih =>
    obtain ⟨hrun, hadm⟩ := hcall.admits
    obtain ⟨own1, h1, -⟩ := wp_ok (perform_spec (evictOk_spare rfl) h hrun hadm) hperf
    exact ih h1

/-! ### The access after the fault -/

theorem Steps.evicting {ok : Kernel → Nat → Op → Prop} {rs : List Reply}
    (h : Steps noEvict ok s ops rs s') : Steps findNewPageAfterSwapping ok s ops rs s' := by
  induction h with
  | nil s => exact .nil s
  | cons hcall hperf _ ih =>
    exact .cons hcall (((cautious_noEvict _).perform _ _).ok hperf) ih

end

end CowPaging
