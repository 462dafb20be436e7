import Mathlib.Logic.Function.Basic

/-!
# Little-endian words in byte pages

A page is a function from offsets to bytes. `ldw` and `stw` read and write the
32-bit word at a word index, least significant byte first; a store changes the
four bytes of its own word and no other.
-/

namespace Bytes

abbrev Byte := BitVec 8
abbrev Word := BitVec 32
abbrev Page := Nat → Byte

instance : LawfulBEq Byte := inferInstance

/-- The word at index `i`, bytes `4 * i` to `4 * i + 3`. -/
def ldw (page : Page) (i : Nat) : Word :=
  page (4 * i + 3) ++ page (4 * i + 2) ++ page (4 * i + 1) ++ page (4 * i)

/-- Store `w` at word index `i`. -/
def stw (page : Page) (i : Nat) (w : Word) : Page := fun offset =>
  if offset / 4 = i then w.extractLsb' (8 * (offset % 4)) 8 else page offset

@[simp] theorem ldw_stw_self (page : Page) (i : Nat) (w : Word) :
    ldw (stw page i w) i = w := by
  have h0 : (4 * i) / 4 = i ∧ (4 * i) % 4 = 0 := by omega
  have h1 : (4 * i + 1) / 4 = i ∧ (4 * i + 1) % 4 = 1 := by omega
  have h2 : (4 * i + 2) / 4 = i ∧ (4 * i + 2) % 4 = 2 := by omega
  have h3 : (4 * i + 3) / 4 = i ∧ (4 * i + 3) % 4 = 3 := by omega
  simp only [ldw, stw, h0, h1, h2, h3, if_true]
  refine BitVec.eq_of_getLsbD_eq fun k hk => ?_
  simp only [BitVec.getLsbD_append, BitVec.getLsbD_extractLsb']
  grind

theorem ldw_stw_ne (page : Page) {i j : Nat} (w : Word) (h : j ≠ i) :
    ldw (stw page i w) j = ldw page j := by
  have h0 : (4 * j) / 4 ≠ i := by omega
  have h1 : (4 * j + 1) / 4 ≠ i := by omega
  have h2 : (4 * j + 2) / 4 ≠ i := by omega
  have h3 : (4 * j + 3) / 4 ≠ i := by omega
  simp only [ldw, stw, h0, h1, h2, h3, if_false]

theorem ldw_stw (page : Page) (i j : Nat) (w : Word) :
    ldw (stw page i w) j = if j = i then w else ldw page j := by
  split
  · next h => rw [h, ldw_stw_self]
  · next h => exact ldw_stw_ne page w h

@[simp] theorem stw_stw (page : Page) (i : Nat) (w w' : Word) :
    stw (stw page i w) i w' = stw page i w' := by
  funext offset
  simp only [stw]
  split <;> rfl

@[simp] theorem stw_ldw (page : Page) (i : Nat) : stw page i (ldw page i) = page := by
  funext offset
  simp only [stw]
  split
  · next h =>
      obtain ⟨r, hr, rfl⟩ : ∃ r, r < 4 ∧ offset = 4 * i + r := ⟨offset % 4, by omega, by omega⟩
      have hmod : (4 * i + r) % 4 = r := by omega
      rw [hmod]
      -- byte `r` of the four that `ldw` puts together
      have hbytes : r = 0 ∨ r = 1 ∨ r = 2 ∨ r = 3 := by omega
      rcases hbytes with rfl | rfl | rfl | rfl <;>
      · refine BitVec.eq_of_getLsbD_eq fun k hk => ?_
        simp only [ldw, BitVec.getLsbD_extractLsb', BitVec.getLsbD_append]
        grind
  · rfl

@[simp] theorem ldw_zero (i : Nat) : ldw (fun _ => 0) i = 0 := by
  simp only [ldw]
  decide

end Bytes
