import CowPaging.Guarded
import CowPaging.NoPressure

/-!
# The number of free pages

`kmem.num_free_pages` is changed in `kalloc` and in `kfree` only, each time together
with the free list. Without eviction every call keeps it equal to the length of the
list.
-/

namespace CowPaging

open Bytes StateExcept SlotTable

/-- `num_free_pages` counts the free list, up to the wrap-around of a `uint`. -/
def Counted (s : Kernel) : Prop := s.numFreePages = s.freelist.length % 2 ^ 32

theorem Counted.pop {s : Kernel} {f : Nat} {rest : List Nat} (hlist : s.freelist = f :: rest)
    (h : Counted s) :
    Counted { s with freelist := rest, numFreePages := decr32 s.numFreePages } := by
  rw [Counted, hlist, List.length_cons] at h
  simp only [Counted, decr32, h]
  omega

theorem Counted.push {s : Kernel} (f : Nat) (h : Counted s) :
    Counted { s with freelist := f :: s.freelist, numFreePages := incr32 s.numFreePages } := by
  simp only [Counted, incr32, List.length_cons] at h ⊢
  omega

theorem ofFreeList_counted : OfFreeList Counted where
  mem _ h := h
  rmap _ h := h
  slots _ h := h
  disk _ h := h
  rss _ _ h := h
  pop := Counted.pop
  push := Counted.push
  only h hfree hnum := by
    rw [Counted, hfree, hnum]
    exact h

theorem counted_noEvict : Follows Halt.noEvict Counted noEvict noEvict fun _ => Counted :=
  stable_throw.follows

theorem counted_kalloc : Stable Counted (kalloc noEvict) :=
  (ofFreeList_counted.kalloc counted_noEvict).stable

variable [KernelImage]

theorem counted_kfree (f : Nat) : Stable Counted (kfree f) := ofFreeList_counted.kfree f

theorem counted_perform (p : Nat) (op : Op) : Stable Counted (perform noEvict p op) :=
  (ofFreeList_counted.perform counted_noEvict p op).stable

theorem counted_bootPages (otherCpus : Nat) (initcode : List Byte) :
    Stable Counted (bootPages otherCpus initcode) := by
  have hset := counted_noEvict
  have hkvm := (ofFreeList_counted.setupkvm hset).stable
  have hothers : ∀ n, Stable Counted (startothers noEvict n) := by
    intro n
    induction n with
    | zero => exact stable_pure
    | succ n ih => exact counted_kalloc.bind fun _ => ih.bind fun _ => stable_pure
  have hinit : Stable Counted (userinit noEvict initcode) := by
    refine (ofFreeList_counted.allocproc hset).stable.bind fun r => ?_
    cases r with
    | none => exact stable_throw
    | some p =>
      refine Stable.bind (stable_modify fun _ hs => hs) fun _ => hkvm.bind fun r => ?_
      cases r with
      | none => exact stable_throw
      | some d =>
        refine (ofFreeList_counted.setProc p _).bind fun _ => ?_
        refine (ofFreeList_counted.inituvm hset d initcode).stable.bind fun _ => ?_
        exact ofFreeList_counted.setProc p _
  refine (stable_loopFrom (fun f => counted_kfree f) _ _).bind fun _ => ?_
  refine hkvm.bind fun d => (hothers _).bind fun cpuStacks => hinit.bind fun _ => ?_
  exact Stable.bind (stable_modify fun _ hs => hs) fun _ => stable_pure

end CowPaging
