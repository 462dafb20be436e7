import Mathlib.Logic.Function.Basic
import Mathlib.Data.Nat.ModEq

/-!
# Queues in a ring with free-running counters

A ring of `size` cells with two counters of `w` bits that are only ever incremented
and wrap around at `2 ^ w`; a counter modulo `size` is the cell it points to. When
`size` divides `2 ^ w` the wrap-around is harmless: the ring holds a list, storing at
the tail appends to it and reading at the head removes its first element.
-/

namespace Fifo

variable {α : Type} {w size : Nat} {data : Nat → α} {head tail : BitVec w} {l : List α}

/-- The cells from `head` up to `tail` hold `l`. -/
structure Holds (size : Nat) (data : Nat → α) (head tail : BitVec w) (l : List α) : Prop where
  length : l.length ≤ size
  tail : tail = head + BitVec.ofNat w l.length
  cells : ∀ i (h : i < l.length), data ((head.toNat + i) % size) = l[i]

theorem Holds.empty (size : Nat) (data : Nat → α) (c : BitVec w) : Holds size data c c [] where
  length := Nat.zero_le _
  tail := by simp
  cells i h := absurd h (Nat.not_lt_zero i)

theorem Holds.sub_eq (h : Holds size data head tail l) (hsize : size < 2 ^ w) :
    (tail - head).toNat = l.length := by
  have hlen := h.length
  rw [h.tail, BitVec.add_comm, BitVec.add_sub_cancel, BitVec.toNat_ofNat]
  exact Nat.mod_eq_of_lt (by omega)

theorem Holds.head_eq_tail_iff (h : Holds size data head tail l) (hsize : size < 2 ^ w) :
    head = tail ↔ l = [] := by
  have hsub := h.sub_eq hsize
  constructor
  · intro heq
    rw [heq, BitVec.sub_self] at hsub
    exact List.length_eq_zero_iff.mp (by simpa using hsub.symm)
  · intro hl
    have htail := h.tail
    rw [hl] at htail
    simpa using htail.symm

theorem Holds.full_iff (h : Holds size data head tail l) (hsize : size < 2 ^ w) :
    tail = head + BitVec.ofNat w size ↔ l.length = size := by
  have hlen := h.length
  constructor
  · intro heq
    have hsub := h.sub_eq hsize
    rw [heq, BitVec.add_comm, BitVec.add_sub_cancel, BitVec.toNat_ofNat,
      Nat.mod_eq_of_lt hsize] at hsub
    exact hsub.symm
  · intro heq
    rw [h.tail, heq]

theorem cell_inj {c i j : Nat} (hi : i < size) (hj : j < size)
    (h : (c + i) % size = (c + j) % size) : i = j := by
  have hmod : i ≡ j [MOD size] := Nat.ModEq.add_left_cancel' c h
  exact Nat.ModEq.eq_of_lt_of_lt hmod hi hj

theorem toNat_add_mod (hdvd : size ∣ 2 ^ w) (c : BitVec w) (k : Nat) :
    (c + BitVec.ofNat w k).toNat % size = (c.toNat + k) % size := by
  rw [BitVec.toNat_add, BitVec.toNat_ofNat, Nat.mod_mod_of_dvd _ hdvd, Nat.add_mod,
    Nat.mod_mod_of_dvd _ hdvd, ← Nat.add_mod]

theorem Holds.push (h : Holds size data head tail l) (hdvd : size ∣ 2 ^ w)
    (hroom : l.length < size) (x : α) :
    Holds size (Function.update data (tail.toNat % size) x) head (tail + 1) (l ++ [x]) where
  length := by grind
  tail := by
    rw [h.tail, List.length_append, List.length_singleton, BitVec.add_assoc, BitVec.ofNat_add]
    rfl
  cells i hi := by
    rw [List.length_append, List.length_singleton] at hi
    have htail : tail.toNat % size = (head.toNat + l.length) % size := by
      rw [h.tail, toNat_add_mod hdvd]
    by_cases hlast : i = l.length
    · subst hlast
      rw [htail, Function.update_self]
      simp
    · have hil : i < l.length := by omega
      rw [Function.update_of_ne, List.getElem_append_left hil]
      · exact h.cells i hil
      · rw [htail]
        exact fun heq => hlast (cell_inj (by omega) hroom heq)

theorem Holds.front {x : α} (h : Holds size data head tail (x :: l)) :
    data (head.toNat % size) = x :=
  h.cells 0 (Nat.zero_lt_succ _)

theorem Holds.pop {x : α} (h : Holds size data head tail (x :: l)) (hdvd : size ∣ 2 ^ w) :
    Holds size data (head + 1) tail l where
  length := by
    have hlen := h.length
    rw [List.length_cons] at hlen
    omega
  tail := by
    rw [h.tail, List.length_cons, Nat.add_comm, BitVec.ofNat_add, ← BitVec.add_assoc]
    rfl
  cells i hi := by
    have hcell := h.cells (i + 1) (by simpa using hi)
    have hone : (head + 1).toNat % size = (head.toNat + 1) % size := toNat_add_mod hdvd head 1
    rw [Nat.add_mod, hone, ← Nat.add_mod, Nat.add_assoc, Nat.add_comm 1 i, hcell]
    simp

theorem Holds.retract {x : α} (h : Holds size data head tail (l ++ [x])) :
    Holds size data head (tail - 1) l where
  length := by
    have hlen := h.length
    rw [List.length_append] at hlen
    omega
  tail := by
    rw [h.tail, List.length_append, List.length_singleton, BitVec.ofNat_add, ← BitVec.add_assoc]
    exact BitVec.add_sub_cancel _ _
  cells i hi := by
    have hi' : i < (l ++ [x]).length := by
      rw [List.length_append]
      omega
    rw [h.cells i hi', List.getElem_append_left hi]

theorem Holds.last {x : α} (h : Holds size data head tail (l ++ [x])) (hdvd : size ∣ 2 ^ w) :
    data ((tail - 1).toNat % size) = x := by
  have hi : l.length < (l ++ [x]).length := by grind
  have hcell := h.cells l.length hi
  rw [h.retract.tail, toNat_add_mod hdvd, hcell]
  simp

end Fifo
