import Mathlib.Algebra.BigOperators.Group.Finset.Basic
import Mathlib.Algebra.Order.BigOperators.Group.Finset

/-!
# Counting over a table

`tally n f t` adds up `f` over the first `n` entries of a table `t`. Changing one entry
changes the sum by the difference at that entry, which is how counts kept by a program
are compared with what they count.
-/

namespace Tally

open Function (update_of_ne update_self update)

variable {β : Type} {n : Nat} {f g : β → Nat} {t : Nat → β} {a b : Nat} {x y : β}

def tally (n : Nat) (f : β → Nat) (t : Nat → β) : Nat := ∑ d ∈ Finset.range n, f (t d)

theorem tally_update (ha : a < n) :
    tally n f (update t a x) + f (t a) = tally n f t + f x := by
  have hmem : a ∈ Finset.range n := Finset.mem_range.2 ha
  have hrest : ∑ d ∈ (Finset.range n).erase a, f (update t a x d) =
      ∑ d ∈ (Finset.range n).erase a, f (t d) :=
    Finset.sum_congr rfl fun d hd => by rw [update_of_ne (Finset.ne_of_mem_erase hd)]
  rw [tally, tally, ← Finset.add_sum_erase _ _ hmem, ← Finset.add_sum_erase _ _ hmem, hrest,
    update_self]
  omega

theorem tally_update_eq (h : f x = f (t a)) : tally n f (update t a x) = tally n f t := by
  refine Finset.sum_congr rfl fun d _ => ?_
  by_cases hd : d = a
  · subst hd
    rw [update_self, h]
  · rw [update_of_ne hd]

theorem tally_one {t' : Nat → β} (ha : a < n) (h : ∀ d, d ≠ a → t' d = t d) :
    tally n f t' + f (t a) = tally n f t + f (t' a) := by
  have heq : t' = update t a (t' a) := by grind
  conv_lhs => rw [heq]
  exact tally_update ha

theorem tally_two {t' : Nat → β} (ha : a < n) (hb : b < n) (hab : b ≠ a)
    (h : ∀ d, d ≠ a → d ≠ b → t' d = t d) :
    tally n f t' + (f (t a) + f (t b)) = tally n f t + (f (t' a) + f (t' b)) := by
  have hfirst := tally_update (f := f) (t := t) (x := t' a) ha
  have hdiff : ∀ d, d ≠ b → t' d = update t a (t' a) d := by grind
  have hsecond := tally_one (f := f) hb hdiff
  rw [update_of_ne hab] at hsecond
  omega

theorem le_tally (ha : a < n) : f (t a) ≤ tally n f t :=
  Finset.single_le_sum (f := fun d => f (t d)) (fun _ _ => Nat.zero_le _) (Finset.mem_range.2 ha)

theorem add_le_tally (ha : a < n) (hb : b < n) (hab : b ≠ a) : f (t a) + f (t b) ≤ tally n f t := by
  have hmem : b ∈ (Finset.range n).erase a := Finset.mem_erase.2 ⟨hab, Finset.mem_range.2 hb⟩
  rw [tally, ← Finset.add_sum_erase _ _ (Finset.mem_range.2 ha)]
  exact Nat.add_le_add_left
    (Finset.single_le_sum (f := fun d => f (t d)) (fun _ _ => Nat.zero_le _) hmem) _

theorem tally_eq_single (ha : a < n) (h : ∀ d, d ≠ a → f (t d) = 0) : tally n f t = f (t a) := by
  rw [tally]
  apply Finset.sum_eq_single a
  · exact fun d _ hd => h d hd
  · exact fun hout => (hout (Finset.mem_range.2 ha)).elim

theorem tally_eq_zero : tally n f t = 0 ↔ ∀ d, d < n → f (t d) = 0 := by
  simp only [tally, Finset.sum_eq_zero_iff, Finset.mem_range]

theorem exists_of_tally_pos (h : 0 < tally n f t) : ∃ d, d < n ∧ 0 < f (t d) := by
  by_contra hno
  simp only [not_exists, not_and, Nat.not_lt, Nat.le_zero] at hno
  rw [tally_eq_zero.2 hno] at h
  exact Nat.lt_irrefl 0 h

theorem tally_le (h : ∀ d, d < n → f (t d) ≤ 1) : tally n f t ≤ n := by
  have hle := Finset.sum_le_card_nsmul (Finset.range n) (fun d => f (t d)) 1
    fun d hd => h d (Finset.mem_range.1 hd)
  simpa [tally] using hle

theorem tally_congr {β' : Type} {f' : β' → Nat} {t' : Nat → β'}
    (h : ∀ d, d < n → f (t d) = f' (t' d)) : tally n f t = tally n f' t' :=
  Finset.sum_congr rfl fun d hd => h d (Finset.mem_range.1 hd)

theorem tally_add : tally n (fun x => f x + g x) t = tally n f t + tally n g t :=
  Finset.sum_add_distrib

end Tally
