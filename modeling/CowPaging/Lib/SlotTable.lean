import Mathlib.Data.Finset.Card
import Mathlib.Data.Set.Card

/-!
# A bounded slot table that enumerates a set

A table has `capacity` slots; slot `j` holds `item j` when `used j` is set, and
a separate counter is kept beside them. `Holds` says that the used slots list a
set without repetition and that the counter is their number. Insertion into a
free slot and clearing a used one keep this, and the counter then decides how
many elements the set has.
-/

namespace SlotTable

open Function (update_of_ne update_self update)

variable {α : Type} {capacity count : Nat} {item : Nat → α} {used : Nat → Bool}
  {A : Set α}

/-- The slots in use. -/
def usedSlots (capacity : Nat) (used : Nat → Bool) : Finset Nat :=
  (Finset.range capacity).filter fun j => used j = true

@[simp] theorem mem_usedSlots {j : Nat} :
    j ∈ usedSlots capacity used ↔ j < capacity ∧ used j = true := by
  simp [usedSlots]

structure Holds (capacity count : Nat) (item : Nat → α) (used : Nat → Bool)
    (A : Set α) : Prop where
  inj : ∀ j k, j < capacity → k < capacity → used j = true → used k = true →
    item j = item k → j = k
  mem : ∀ a, a ∈ A ↔ ∃ j, j < capacity ∧ used j = true ∧ item j = a
  card : count = (usedSlots capacity used).card

theorem Holds.add (h : Holds capacity count item used A) {a : α}
    {j : Nat} (hj : j < capacity) (hfree : used j = false) (ha : a ∉ A) :
    Holds capacity (count + 1) (update item j a)
      (update used j true) (insert a A) := by
  have hnew : ∀ k, k < capacity → used k = true → k ≠ j := by grind
  refine ⟨?_, ?_, ?_⟩
  · intro k l hk hl huk hul heq
    by_cases hkj : k = j <;> by_cases hlj : l = j
    · rw [hkj, hlj]
    · subst hkj
      simp only [update_self, update_of_ne hlj] at heq hul
      exact (ha ((h.mem a).2 ⟨l, hl, hul, heq.symm⟩)).elim
    · subst hlj
      simp only [update_self, update_of_ne hkj] at heq huk
      exact (ha ((h.mem a).2 ⟨k, hk, huk, heq⟩)).elim
    · simp only [update_of_ne hkj, update_of_ne hlj] at heq huk hul
      exact h.inj k l hk hl huk hul heq
  · intro b
    constructor
    · rintro (rfl | hb)
      · exact ⟨j, hj, by simp, by simp⟩
      · obtain ⟨k, hk, huk, hik⟩ := (h.mem b).1 hb
        have hkj := hnew k hk huk
        exact ⟨k, hk, by rw [update_of_ne hkj]; exact huk,
          by rw [update_of_ne hkj]; exact hik⟩
    · rintro ⟨k, hk, huk, hik⟩
      by_cases hkj : k = j
      · subst hkj
        exact .inl (by simpa using hik.symm)
      · rw [update_of_ne hkj] at huk hik
        exact .inr ((h.mem b).2 ⟨k, hk, huk, hik⟩)
  · have hset : usedSlots capacity (update used j true) =
        insert j (usedSlots capacity used) := by
      ext k
      by_cases hkj : k = j
      · subst hkj; simp [hj]
      · simp [hkj]
    rw [hset, Finset.card_insert_of_notMem (by simp [hfree]), h.card]

theorem Holds.erase (h : Holds capacity count item used A) {j : Nat}
    (hj : j < capacity) (hused : used j = true) :
    Holds capacity (count - 1) item (update used j false) (A \ {item j}) := by
  refine ⟨?_, ?_, ?_⟩
  · intro k l hk hl huk hul heq
    have hkj : k ≠ j := by rintro rfl; simp at huk
    have hlj : l ≠ j := by rintro rfl; simp at hul
    rw [update_of_ne hkj] at huk
    rw [update_of_ne hlj] at hul
    exact h.inj k l hk hl huk hul heq
  · intro b
    constructor
    · rintro ⟨hb, hne⟩
      obtain ⟨k, hk, huk, hik⟩ := (h.mem b).1 hb
      have hkj : k ≠ j := by grind
      exact ⟨k, hk, by rw [update_of_ne hkj]; exact huk, hik⟩
    · rintro ⟨k, hk, huk, hik⟩
      have hkj : k ≠ j := by rintro rfl; simp at huk
      rw [update_of_ne hkj] at huk
      refine ⟨(h.mem b).2 ⟨k, hk, huk, hik⟩, ?_⟩
      rintro rfl
      exact hkj (h.inj k j hk hj huk hused hik)
  · have hset : usedSlots capacity (update used j false) =
        (usedSlots capacity used).erase j := by
      ext k
      by_cases hkj : k = j
      · subst hkj; simp
      · simp [hkj]
    rw [hset, Finset.card_erase_of_mem (by simp [hj, hused]), h.card]

theorem Holds.count_le (h : Holds capacity count item used A) : count ≤ capacity := by
  rw [h.card]
  calc (usedSlots capacity used).card
      ≤ (Finset.range capacity).card := Finset.card_filter_le _ _
    _ = capacity := Finset.card_range capacity

theorem Holds.count_eq_ncard (h : Holds capacity count item used A) : count = A.ncard := by
  have himage : A = Set.image item (usedSlots capacity used : Set Nat) := by
    ext a
    rw [h.mem a]
    simp [and_assoc]
  have hinj : Set.InjOn item (usedSlots capacity used : Set Nat) := by
    intro j hj k hk heq
    simp only [Finset.mem_coe, mem_usedSlots] at hj hk
    exact h.inj j k hj.1 hk.1 hj.2 hk.2 heq
  rw [himage, hinj.ncard_image, Set.ncard_coe_finset, h.card]

theorem Holds.exists_free (h : Holds capacity count item used A) (hlt : count < capacity) :
    ∃ j, j < capacity ∧ used j = false := by
  by_contra hno
  have hall : usedSlots capacity used = Finset.range capacity := by
    ext j
    simp only [mem_usedSlots, Finset.mem_range, and_iff_left_iff_imp]
    intro hj
    cases hu : used j with
    | false => exact (hno ⟨j, hj, hu⟩).elim
    | true => rfl
  rw [h.card, hall, Finset.card_range] at hlt
  exact Nat.lt_irrefl _ hlt

theorem Holds.count_pos (h : Holds capacity count item used A) {a : α} (ha : a ∈ A) :
    0 < count := by
  obtain ⟨j, hj, hu, -⟩ := (h.mem a).1 ha
  rw [h.card, Finset.card_pos]
  exact ⟨j, by simp [hj, hu]⟩

theorem Holds.count_eq_zero (h : Holds capacity count item used A) :
    count = 0 ↔ A = ∅ := by
  constructor
  · intro hzero
    by_contra hne
    obtain ⟨a, ha⟩ := Set.nonempty_iff_ne_empty.2 hne
    have := h.count_pos ha
    omega
  · rintro rfl
    rw [h.count_eq_ncard, Set.ncard_empty]

theorem Holds.eq_of_count_one (h : Holds capacity count item used A) (hone : count = 1)
    {a b : α} (ha : a ∈ A) (hb : b ∈ A) : a = b := by
  obtain ⟨j, hj, huj, rfl⟩ := (h.mem a).1 ha
  obtain ⟨k, hk, huk, rfl⟩ := (h.mem b).1 hb
  have hcard : (usedSlots capacity used).card ≤ 1 := by rw [← h.card, hone]
  rw [Finset.card_le_one.1 hcard j (by simp [hj, huj]) k (by simp [hk, huk])]

theorem Holds.count_one_of_subsingleton (h : Holds capacity count item used A) {a : α}
    (ha : a ∈ A) (honly : ∀ b ∈ A, b = a) : count = 1 := by
  have hset : A = {a} := by grind
  rw [h.count_eq_ncard, hset, Set.ncard_singleton]

/-- The first slot that satisfies a test, as a loop with a `break` finds it. -/
def firstSlot (capacity : Nat) (test : Nat → Bool) : Option Nat :=
  (List.range capacity).find? test

theorem firstSlot_some {test : Nat → Bool} {j : Nat}
    (h : firstSlot capacity test = some j) : j < capacity ∧ test j = true :=
  ⟨List.mem_range.1 (List.mem_of_find?_eq_some h), List.find?_some h⟩

theorem exists_firstSlot {test : Nat → Bool} {j : Nat} (hj : j < capacity)
    (htest : test j = true) : ∃ k, firstSlot capacity test = some k := by
  have hsome : (firstSlot capacity test).isSome := by
    rw [firstSlot, List.find?_isSome]
    exact ⟨j, List.mem_range.2 hj, htest⟩
  exact Option.isSome_iff_exists.1 hsome

theorem firstSlot_none {test : Nat → Bool} (h : firstSlot capacity test = none) {j : Nat}
    (hj : j < capacity) : test j = false := by
  have := List.find?_eq_none.1 h j (List.mem_range.2 hj)
  simpa using this

end SlotTable
