import CowPaging.SharedEviction

/-!
# What `kalloc` promises

The comment over `kalloc` says that it returns 0 if the memory cannot be allocated, and
its callers are written for that. It has no path that returns 0: with an empty free list
it evicts or the kernel stops. The promise is kept exactly in the states where a page is
free, or where the process with the largest resident size has a page to give that nobody
else maps, and a slot is free.
-/

namespace CowPaging

open Bytes StateExcept SlotTable

/-- The process chosen by resident size can give a page: it is charged for one, it has one
    in memory below its size, and the page chosen from it has one sharer. -/
structure CanGive [KernelImage] (s : Kernel) : Prop where
  slot : ∃ i, i < NSLOTS ∧ (s.swaparray i).isFree = true
  live : selectVictimProcess s < NPROC ∧ (s.proc (selectVictimProcess s)).state.live = true
  charged : PGSIZE ≤ (s.proc (selectVictimProcess s)).rss
  page : ∃ v, v * PGSIZE < (s.proc (selectVictimProcess s)).sz ∧
    PageIn s (s.proc (selectVictimProcess s)).pgdir v
  unshared : ∀ ptr s₁, selectAVictim s = .ok (some ptr, s₁) →
    (s.rmap (frameOf (pteAt s ptr))).refcount = 1

section

variable [KernelImage] {mode : Mode} {own : Owners} {s s₁ s' : Kernel} {f : Nat}

theorem CanGive.entry (h : CanGive s) : attachOf s (selectVictimProcess s) =
    some ((s.proc (selectVictimProcess s)).pgdir, (s.proc (selectVictimProcess s)).sz) :=
  attachOf_eq_some.2 ⟨h.live.1, h.live.2, rfl, rfl⟩

theorem first_process_runs {otherCpus : Nat} {initcode : List Byte}
    (hboot : boot otherCpus initcode Kernel.zero = .ok ((), s)) :
    Runs { s with cur := 0 } 0 ∧ (s.proc 0).sz = PGSIZE := by
  obtain ⟨_, href⟩ := refines_of_boot hboot
  obtain ⟨hstate, -, -⟩ := first_page_present hboot
  refine ⟨⟨by decide, .inr (.inl hstate)⟩, ?_⟩
  rw [← href.seesAs.size 0 (by decide) (by rw [hstate]; rfl)]
  rfl

end

end CowPaging
