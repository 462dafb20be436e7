import CowPaging.Lib.Bytes
import Mathlib.Data.Nat.Bitwise

/-!
# Constants and page-table words

The constants of `param.h`, `memlayout.h` and `mmu.h`, and the arithmetic of
page-table entries. Physical pages are named by their page number, so that
`V2P(mem)` for the page `f` is `frameAddr f` and `PTE_ADDR(pte) / PGSIZE` is
`frameOf pte`. A swapped-out entry `(idx << 12) | PTE_S` has the same shape, with
the slot index in the place of the page number.
-/

namespace CowPaging

open Bytes

/-! ### `param.h`, `memlayout.h` -/

def NPROC : Nat := 64
def MAXARG : Nat := 32
def SWAPBLOCKS : Nat := 250 * 8
def FSSIZE : Nat := 1000
def NSLOTS : Nat := SWAPBLOCKS / 8

def EXTMEM : Nat := 0x100000
def PHYSTOP : Nat := 0x400000
def DEVSPACE : Nat := 0xFE000000
def KERNBASE : Nat := 0x80000000
def KERNLINK : Nat := KERNBASE + EXTMEM

/-! ### `mmu.h` -/

def PGSIZE : Nat := 4096
def NPDENTRIES : Nat := 1024
def NPTENTRIES : Nat := 1024

/-- Physical pages below `PHYSTOP`: the length of `rmap`. -/
def NFRAMES : Nat := PHYSTOP / PGSIZE

/-- User pages: page numbers of addresses below `KERNBASE`. -/
def UPAGES : Nat := KERNBASE / PGSIZE

def PDX (va : Nat) : Nat := va / 2 ^ 22 % 1024
def PTX (va : Nat) : Nat := va / 2 ^ 12 % 1024
def PGADDR (d t o : Nat) : Nat := d * 2 ^ 22 + t * 2 ^ 12 + o

def PGROUNDUP (sz : Nat) : Nat := (sz + PGSIZE - 1) / PGSIZE * PGSIZE
def PGROUNDDOWN (a : Nat) : Nat := a / PGSIZE * PGSIZE

def PTE_P : Word := 0x001
def PTE_W : Word := 0x002
def PTE_U : Word := 0x004
def PTE_A : Word := 0x020
/-- The dirty bit, which only the processor sets. -/
def PTE_D : Word := 0x040
def PTE_S : Word := 0x080

def PTE_ADDR (pte : Word) : Word := pte &&& ~~~0xFFF
def PTE_FLAGS (pte : Word) : Word := pte &&& 0xFFF

/-- `word & flag`, as a condition. -/
def has (word flag : Word) : Bool := word &&& flag != 0

/-- `PTE_ADDR(pte) / PGSIZE`. -/
def frameOf (pte : Word) : Nat := (PTE_ADDR pte).toNat / PGSIZE

/-- The physical address of page `f` as a word. -/
def frameAddr (f : Nat) : Word := BitVec.ofNat 32 (f * PGSIZE)

/-! ### Flags are single bits -/

theorem has_twoPow (w : Word) (k : Nat) (hk : k < 32) :
    has w (BitVec.twoPow 32 k) = w.getLsbD k := by
  have hne : BitVec.twoPow 32 k ≠ 0#32 := by
    intro h
    have hbit := congrArg (fun x : Word => x.getLsbD k) h
    simp [hk] at hbit
  rw [has, BitVec.and_twoPow]
  cases w.getLsbD k
  · rfl
  · simpa using hne

@[simp] theorem has_P (w : Word) : has w PTE_P = w.getLsbD 0 := has_twoPow w 0 (by decide)
@[simp] theorem has_W (w : Word) : has w PTE_W = w.getLsbD 1 := has_twoPow w 1 (by decide)
@[simp] theorem has_U (w : Word) : has w PTE_U = w.getLsbD 2 := has_twoPow w 2 (by decide)
@[simp] theorem has_A (w : Word) : has w PTE_A = w.getLsbD 5 := has_twoPow w 5 (by decide)
@[simp] theorem has_S (w : Word) : has w PTE_S = w.getLsbD 7 := has_twoPow w 7 (by decide)

theorem getLsbD_flag {k : Nat} (hk : k < 32) (i : Nat) :
    (BitVec.twoPow 32 k).getLsbD i = decide (i = k) := by grind

@[simp] theorem getLsbD_P (i : Nat) : PTE_P.getLsbD i = decide (i = 0) :=
  getLsbD_flag (k := 0) (by decide) i
@[simp] theorem getLsbD_W (i : Nat) : PTE_W.getLsbD i = decide (i = 1) :=
  getLsbD_flag (k := 1) (by decide) i
@[simp] theorem getLsbD_U (i : Nat) : PTE_U.getLsbD i = decide (i = 2) :=
  getLsbD_flag (k := 2) (by decide) i
@[simp] theorem getLsbD_A (i : Nat) : PTE_A.getLsbD i = decide (i = 5) :=
  getLsbD_flag (k := 5) (by decide) i
@[simp] theorem getLsbD_S (i : Nat) : PTE_S.getLsbD i = decide (i = 7) :=
  getLsbD_flag (k := 7) (by decide) i

theorem getLsbD_low_mask (i : Nat) : (0xFFF : Word).getLsbD i = decide (i < 12) := by
  have hall : ∀ i, i < 32 → (0xFFF : Word).getLsbD i = decide (i < 12) := by decide
  by_cases hi : i < 32
  · exact hall i hi
  · rw [BitVec.getLsbD_of_ge _ _ (by omega)]
    simp only [Bool.false_eq, decide_eq_false_iff_not]
    omega

@[simp] theorem getLsbD_PTE_FLAGS (w : Word) (i : Nat) :
    (PTE_FLAGS w).getLsbD i = (decide (i < 12) && w.getLsbD i) := by
  rw [PTE_FLAGS, BitVec.getLsbD_and, getLsbD_low_mask, Bool.and_comm]

@[simp] theorem getLsbD_PTE_ADDR (w : Word) (i : Nat) :
    (PTE_ADDR w).getLsbD i = (decide (12 ≤ i) && w.getLsbD i) := by
  rw [PTE_ADDR, BitVec.getLsbD_and, BitVec.getLsbD_not, getLsbD_low_mask]
  by_cases hi : i < 32
  · grind
  · grind

/-! ### Page numbers -/

@[simp] theorem testBit_frameOf (w : Word) (i : Nat) :
    (frameOf w).testBit i = w.getLsbD (i + 12) := by
  have hshift : frameOf w = (PTE_ADDR w).toNat >>> 12 := by
    rw [frameOf, Nat.shiftRight_eq_div_pow, PGSIZE]
  rw [hshift, Nat.testBit_shiftRight, ← BitVec.getLsbD, Nat.add_comm, getLsbD_PTE_ADDR]
  simp

theorem frameOf_congr {a b : Word} (h : ∀ i, 12 ≤ i → a.getLsbD i = b.getLsbD i) :
    frameOf a = frameOf b := by
  apply Nat.eq_of_testBit_eq
  intro i
  rw [testBit_frameOf, testBit_frameOf, h (i + 12) (by omega)]

theorem getLsbD_frameAddr {f : Nat} (hf : f < 2 ^ 20) (i : Nat) :
    (frameAddr f).getLsbD i = (decide (12 ≤ i) && f.testBit (i - 12)) := by
  have hlt : f * PGSIZE < 2 ^ 32 := by simp only [PGSIZE]; omega
  rw [frameAddr, BitVec.getLsbD_ofNat]
  have hmul : f * PGSIZE = f <<< 12 := by rw [Nat.shiftLeft_eq, PGSIZE]
  rw [hmul, Nat.testBit_shiftLeft]
  by_cases hi : i < 32
  · simp [hi]
  · have hbig : f.testBit (i - 12) = false := by
      apply Nat.testBit_lt_two_pow
      calc f < 2 ^ 20 := hf
        _ ≤ 2 ^ (i - 12) := Nat.pow_le_pow_right (by omega) (by omega)
    simp [hi, hbig]

theorem frameAddr_low {f i : Nat} (hf : f < 2 ^ 20) (hi : i < 12) :
    (frameAddr f).getLsbD i = false := by
  rw [getLsbD_frameAddr hf]
  simp [Nat.not_le.2 hi]

@[simp] theorem frameOf_frameAddr {f : Nat} (hf : f < 2 ^ 20) :
    frameOf (frameAddr f) = f := by
  apply Nat.eq_of_testBit_eq
  intro i
  rw [testBit_frameOf, getLsbD_frameAddr hf]
  simp

theorem frameOf_or_low {a b : Word} (h : ∀ i, 12 ≤ i → b.getLsbD i = false) :
    frameOf (a ||| b) = frameOf a :=
  frameOf_congr fun i hi => by rw [BitVec.getLsbD_or, h i hi, Bool.or_false]

/-- A word with page number `f` and flags from `x`. -/
theorem frameOf_mk {f : Nat} {x : Word} (hf : f < 2 ^ 20)
    (hx : ∀ i, 12 ≤ i → x.getLsbD i = false) : frameOf (frameAddr f ||| x) = f := by
  rw [frameOf_or_low hx, frameOf_frameAddr hf]

theorem getLsbD_mk {f i : Nat} {x : Word} (hf : f < 2 ^ 20) (hi : i < 12) :
    (frameAddr f ||| x).getLsbD i = x.getLsbD i := by
  rw [BitVec.getLsbD_or, frameAddr_low hf hi, Bool.false_or]

/-! ### Address arithmetic -/

theorem PDX_eq {va : Nat} (h : va < 2 ^ 32) : PDX va = va / PGSIZE / 1024 := by
  simp only [PDX, PGSIZE]; omega

theorem PTX_eq (va : Nat) : PTX va = va / PGSIZE % 1024 := by
  simp only [PTX, PGSIZE]; omega

theorem PGROUNDDOWN_div (a : Nat) : PGROUNDDOWN a / PGSIZE = a / PGSIZE := by
  simp only [PGROUNDDOWN, PGSIZE]; omega

/-- A page number is below `sz` exactly when it is below `PGROUNDUP(sz)`. -/
theorem mul_lt_iff_lt_roundup {v sz : Nat} :
    v * PGSIZE < sz ↔ v < PGROUNDUP sz / PGSIZE := by
  simp only [PGROUNDUP, PGSIZE]; omega

end CowPaging
