import Mathlib.Logic.Function.Basic
import Mathlib.Data.List.Nodup

/-!
# Circular doubly linked lists

Nodes are linked by two functions, `next` and `prev`, through a head node that is no
element. `Path next prev x l y` says that the nodes of `l` lead from `x` to `y` and
back; a ring is a path from the head to itself without repetition. Taking a node out
and putting one in behind the head are the two edits, made by pointer updates, and a
walk from the head visits exactly the elements, in either direction.
-/

namespace Ring

open Function (update_of_ne update_self update)

variable {α : Type} [DecidableEq α] {next prev next' prev' : α → α} {head x y a : α}
  {l l1 l2 : List α}

/-- The nodes of the list lead from `x` to `y`, and back by `prev`. -/
def Path (next prev : α → α) : α → List α → α → Prop
  | x, [], y => next x = y ∧ prev y = x
  | x, a :: l, y => (next x = a ∧ prev a = x) ∧ Path next prev a l y

structure IsRing (next prev : α → α) (head : α) (l : List α) : Prop where
  path : Path next prev head l head
  nodup : (head :: l).Nodup

omit [DecidableEq α] in
theorem path_append : Path next prev x (l1 ++ a :: l2) y ↔
    Path next prev x l1 a ∧ Path next prev a l2 y := by
  induction l1 generalizing x with
  | nil => rfl
  | cons b l ih =>
    simp only [List.cons_append, Path, ih, and_assoc]

omit [DecidableEq α] in
theorem Path.congr (h : Path next prev x l y) (hnext : ∀ z, z ∈ x :: l → next' z = next z)
    (hprev : ∀ z, z = y ∨ z ∈ l → prev' z = prev z) : Path next' prev' x l y := by
  induction l generalizing x with
  | nil =>
    exact ⟨(hnext x List.mem_cons_self).trans h.1, (hprev y (.inl rfl)).trans h.2⟩
  | cons b l ih =>
    refine ⟨⟨(hnext x List.mem_cons_self).trans h.1.1,
      (hprev b (.inr List.mem_cons_self)).trans h.1.2⟩, ?_⟩
    exact ih h.2 (fun z hz => hnext z (List.mem_cons_of_mem _ hz))
      fun z hz => hprev z (hz.imp id (List.mem_cons_of_mem _))

omit [DecidableEq α] in
theorem Path.reverse (h : Path next prev x l y) : Path prev next y l.reverse x := by
  induction l generalizing x with
  | nil => exact ⟨h.2, h.1⟩
  | cons b l ih =>
    rw [List.reverse_cons]
    exact path_append.2 ⟨ih h.2, h.1.2, h.1.1⟩

omit [DecidableEq α] in
theorem Path.prev_mem (h : Path next prev x l y) : prev y ∈ x :: l := by
  induction l generalizing x with
  | nil => exact List.mem_cons.2 (.inl h.2)
  | cons b l ih => exact List.mem_cons_of_mem _ (ih h.2)

omit [DecidableEq α] in
theorem Path.next_mem (h : Path next prev x l y) : next x = y ∨ next x ∈ l := by
  cases l with
  | nil => exact .inl h.1
  | cons b l => exact .inr (by rw [h.1.1]; exact List.mem_cons_self)

/-! ### Edits -/

/-- `a` is bridged by its neighbours. -/
theorem Path.unlink (h : Path next prev x (l1 ++ a :: l2) y)
    (hnodup : (x :: (l1 ++ a :: l2)).Nodup) (hy : y ∉ l1 ++ a :: l2) :
    Path (update next (prev a) (next a)) (update prev (next a) (prev a))
      x (l1 ++ l2) y := by
  induction l1 generalizing x with
  | nil =>
    rw [List.nil_append] at h hnodup hy ⊢
    obtain ⟨⟨-, hprev⟩, hrest⟩ := h
    rw [List.nodup_cons, List.nodup_cons] at hnodup
    obtain ⟨hx, ha, hl⟩ := hnodup
    rw [hprev]
    cases l2 with
    | nil =>
      rw [hrest.1]
      exact ⟨update_self _ _ _, update_self _ _ _⟩
    | cons b l =>
      rw [hrest.1.1]
      refine ⟨⟨update_self _ _ _, update_self _ _ _⟩, ?_⟩
      refine hrest.2.congr (fun z hz => update_of_ne ?_ _ _)
        fun z hz => update_of_ne ?_ _ _
      · grind
      · grind
  | cons c l ih =>
    rw [List.cons_append] at h hnodup hy ⊢
    obtain ⟨⟨hnext, hprev⟩, hrest⟩ := h
    obtain ⟨hpa, hnb⟩ := path_append.1 hrest
    rw [List.nodup_cons] at hnodup
    refine ⟨⟨?_, ?_⟩, ih hrest hnodup.2 fun hmem => hy (List.mem_cons_of_mem _ hmem)⟩
    · rw [update_of_ne ?_, hnext]
      rintro rfl
      refine hnodup.1 ?_
      rw [← List.cons_append]
      exact List.mem_append_left _ hpa.prev_mem
    · rw [update_of_ne ?_, hprev]
      rintro rfl
      rcases hnb.next_mem with heq | hmem
      · exact hy (by rw [← heq]; exact List.mem_cons_self)
      · grind

theorem IsRing.unlink (h : IsRing next prev head (l1 ++ a :: l2)) :
    IsRing (update next (prev a) (next a)) (update prev (next a) (prev a))
      head (l1 ++ l2) where
  path := h.path.unlink h.nodup (List.nodup_cons.1 h.nodup).1
  nodup := h.nodup.sublist
    ((List.Sublist.append_left (List.sublist_cons_self a l2) l1).cons_cons head)

/-- `a` is put in behind the head. -/
theorem IsRing.insert (h : IsRing next prev head l) (ha : a ∉ head :: l) :
    IsRing (update (update next a (next head)) head a)
      (update (update prev a head) (next head) a) head (a :: l) := by
  have hne : a ≠ head := fun heq => ha (by rw [heq]; exact List.mem_cons_self)
  have hal : a ∉ l := fun hmem => ha (List.mem_cons_of_mem _ hmem)
  have hhl := (List.nodup_cons.1 h.nodup).1
  have hnext : next head ≠ a := by
    rcases h.path.next_mem with heq | hmem
    · rw [heq]
      exact hne.symm
    · exact fun heq => hal (heq ▸ hmem)
  refine ⟨⟨⟨update_self _ _ _, ?_⟩, ?_⟩, ?_⟩
  · rw [update_of_ne hnext.symm, update_self]
  · cases l with
    | nil =>
      rw [h.path.1]
      exact ⟨by rw [update_of_ne hne, update_self], update_self _ _ _⟩
    | cons b l =>
      rw [h.path.1.1]
      refine ⟨⟨by rw [update_of_ne hne, update_self],
        update_self _ _ _⟩, h.path.2.congr (fun z hz => ?_) fun z hz => ?_⟩
      · grind
      · have hzb : z ≠ b := by
          rintro rfl
          rcases hz with rfl | hz
          · exact hhl List.mem_cons_self
          · exact (List.nodup_cons.1 (List.nodup_cons.1 h.nodup).2).1 hz
        have hza : z ≠ a := by grind
        rw [update_of_ne hzb, update_of_ne hza]
  · rw [List.nodup_cons, List.nodup_cons]
    refine ⟨fun hmem => ?_, hal, (List.nodup_cons.1 h.nodup).2⟩
    rcases List.mem_cons.1 hmem with heq | hmem
    · exact hne heq.symm
    · exact hhl hmem

/-! ### Walks -/

/-- Follow `step` from `x` until a node passes the test or the head comes back, for at
    most `fuel` nodes. -/
def walk (step : α → α) (head : α) (test : α → Bool) : Nat → α → Option α
  | 0, _ => none
  | fuel + 1, x =>
    if x = head then none
    else if test x then some x
    else walk step head test fuel (step x)

theorem Path.walk_eq {test : α → Bool} (h : Path next prev x l head) (hhead : head ∉ l)
    {fuel : Nat} (hfuel : l.length ≤ fuel) :
    walk next head test fuel (next x) = l.find? test := by
  induction l generalizing x fuel with
  | nil =>
    rw [h.1]
    cases fuel with
    | zero => rfl
    | succ fuel => simp [walk]
  | cons b l ih =>
    obtain ⟨hb, hrest⟩ := List.ne_and_not_mem_of_not_mem_cons hhead
    obtain ⟨⟨hnext, -⟩, hpath⟩ := h
    cases fuel with
    | zero => simp at hfuel
    | succ fuel =>
      rw [hnext, walk, if_neg (Ne.symm hb), List.find?_cons]
      cases htest : test b with
      | true => rfl
      | false => exact ih hpath hrest (by simpa using hfuel)

/-- A walk along `next` finds the first element that passes the test. -/
theorem IsRing.walk_next {test : α → Bool} (h : IsRing next prev head l) {fuel : Nat}
    (hfuel : l.length ≤ fuel) : walk next head test fuel (next head) = l.find? test :=
  h.path.walk_eq (List.nodup_cons.1 h.nodup).1 hfuel

/-- A walk along `prev` finds the last one. -/
theorem IsRing.walk_prev {test : α → Bool} (h : IsRing next prev head l) {fuel : Nat}
    (hfuel : l.length ≤ fuel) : walk prev head test fuel (prev head) = l.reverse.find? test :=
  h.path.reverse.walk_eq (by simpa using (List.nodup_cons.1 h.nodup).1) (by simpa using hfuel)

end Ring
