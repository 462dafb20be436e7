import Mathlib.Data.List.Basic
import Mathlib.Logic.Function.Basic
import Mathlib.Tactic.Common

/-!
# Lists in memory

`Linked next a l b`: following `next` from `a` one passes through `l` and gets to `b`. A
ring is `Linked next a l a`; it can be entered at any of its nodes. The other lemmas say
how a change of `next` at the ends of a part of the list changes that part.
-/

namespace LinkedList

variable {α : Type} {next next' : α → α} {a a' b c x : α} {l l1 l2 : List α}

/-- From `a` through `l` to `b`. -/
def Linked (next : α → α) : α → List α → α → Prop
  | a, [], b => next a = b
  | a, x :: l, b => next a = x ∧ Linked next x l b

@[simp] theorem linked_cons : Linked next a (x :: l) b ↔ next a = x ∧ Linked next x l b := Iff.rfl

theorem linked_append :
    Linked next a (l1 ++ x :: l2) b ↔ Linked next a l1 x ∧ Linked next x l2 b := by
  induction l1 generalizing a with
  | nil => exact Iff.rfl
  | cons y l1 ih => rw [List.cons_append, linked_cons, ih, linked_cons, and_assoc]

theorem Linked.rotate (h : Linked next a (l1 ++ x :: l2) a) : Linked next x (l2 ++ a :: l1) x :=
  linked_append.2 (linked_append.1 h).symm

/-- The last node of a way that starts at `a` and passes through `l`. -/
def lastNode (a : α) : List α → α
  | [] => a
  | x :: l => lastNode x l

theorem lastNode_append_cons : lastNode a (l1 ++ x :: l2) = lastNode x l2 := by
  induction l1 generalizing a with
  | nil => rfl
  | cons y l1 ih => exact ih

theorem lastNode_mem : lastNode a l ∈ a :: l := by
  induction l generalizing a with
  | nil => exact List.mem_singleton.2 rfl
  | cons x l ih => exact List.mem_cons_of_mem _ ih

theorem linked_parts : Linked next a (l1 ++ l2) b →
    Linked next a l1 (next (lastNode a l1)) ∧ Linked next (lastNode a l1) l2 b := by
  induction l1 generalizing a with
  | nil => exact fun h => ⟨rfl, h⟩
  | cons y l1 ih => exact fun h => ⟨⟨h.1, (ih h.2).1⟩, (ih h.2).2⟩

theorem Linked.restart (h : Linked next a l b) (ha : next' a' = next a)
    (hl : ∀ x ∈ l, next' x = next x) : Linked next' a' l b := by
  induction l generalizing a a' with
  | nil => exact ha.trans h
  | cons x l ih =>
    refine ⟨ha.trans h.1, ih h.2 (hl x List.mem_cons_self) fun y hy => ?_⟩
    exact hl y (List.mem_cons_of_mem _ hy)

theorem Linked.at_mem (h : Linked next a l b) (hx : x ∈ a :: l) :
    ∃ m1 m2, a :: l = m1 ++ x :: m2 ∧ Linked next x m2 b := by
  induction l generalizing a with
  | nil =>
    obtain rfl := List.mem_singleton.1 hx
    exact ⟨[], [], rfl, h⟩
  | cons y l ih =>
    rcases List.mem_cons.1 hx with rfl | hx
    · exact ⟨[], y :: l, rfl, h⟩
    · obtain ⟨m1, m2, heq, hlink⟩ := ih h.2 hx
      exact ⟨a :: m1, m2, by rw [heq, List.cons_append], hlink⟩

/-- In a ring of different nodes, the node before `x` is the only one that leads to it. -/
theorem Linked.node_before {y : α} (h : Linked next a (l1 ++ x :: l2) a)
    (hdis : (a :: (l1 ++ x :: l2)).Nodup) (hy : y ∈ a :: (l1 ++ x :: l2)) (hnext : next y = x) :
    y = lastNode a l1 := by
  obtain ⟨m1, m2, heq, hlink⟩ := h.at_mem hy
  have hxa : x ≠ a := by grind
  cases m2 with
  | nil => exact absurd (hnext.symm.trans hlink) hxa
  | cons z m2 =>
    obtain rfl : z = x := hlink.1.symm.trans hnext
    rw [← List.cons_append] at hdis
    obtain ⟨-, hback, hcross⟩ := List.nodup_append.1 hdis
    have hsplit : (a :: l1) ++ z :: l2 = (m1 ++ [y]) ++ z :: m2 := by
      rw [List.cons_append, heq, List.append_cons]
    obtain ⟨hfront, -, -⟩ := (List.append_cons_inj_of_notMem
      (fun hz => hcross z hz z List.mem_cons_self rfl) (List.nodup_cons.1 hback).1).1 hsplit
    cases m1 with
    | nil =>
      obtain ⟨rfl, rfl⟩ := List.cons.inj hfront
      rfl
    | cons w m1 =>
      obtain ⟨rfl, rfl⟩ := List.cons.inj hfront
      change y = lastNode a (m1 ++ [y])
      rw [lastNode_append_cons]
      rfl

theorem Linked.redirect (h : Linked next a l b) (hlast : next' (lastNode a l) = c)
    (hl : ∀ x ∈ a :: l, x ≠ lastNode a l → next' x = next x) (hdis : (a :: l).Nodup) :
    Linked next' a l c := by
  induction l generalizing a with
  | nil => exact hlast
  | cons x l ih =>
    obtain ⟨hne, hdis'⟩ := List.nodup_cons.1 hdis
    have ha : a ≠ lastNode x l := fun heq => hne (heq ▸ lastNode_mem)
    refine ⟨(hl a List.mem_cons_self ha).trans h.1, ih h.2 hlast ?_ hdis'⟩
    exact fun y hy => hl y (List.mem_cons_of_mem _ hy)

theorem Linked.bypass [DecidableEq α] (h : Linked next a (l1 ++ x :: l2) b)
    (hdis : (a :: (l1 ++ x :: l2)).Nodup) :
    Linked (Function.update next (lastNode a l1) (next x)) a (l1 ++ l2) b := by
  induction l1 generalizing a with
  | nil =>
    refine h.2.restart (Function.update_self _ _ _) fun y hy => Function.update_of_ne ?_ _ _
    rintro rfl
    exact (List.nodup_cons.1 hdis).1 (List.mem_cons_of_mem _ hy)
  | cons z l1 ih =>
    obtain ⟨hne, hdis'⟩ := List.nodup_cons.1 hdis
    have ha : a ≠ lastNode z l1 := by
      intro heq
      have hmem : a ∈ z :: l1 := heq ▸ lastNode_mem
      exact hne (List.mem_append_left (x :: l2) hmem)
    exact ⟨(Function.update_of_ne ha _ _).trans h.1, ih h.2 hdis'⟩

end LinkedList
