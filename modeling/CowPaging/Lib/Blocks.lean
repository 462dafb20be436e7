import Mathlib.Data.List.Basic
import Mathlib.Tactic.Common

/-!
# Blocks of an address space

A block is a range of addresses. A list of free blocks is kept `Spaced`: in increasing
order and with a gap between any two, so that no two blocks can be joined. `release` gives
a block back to such a list and joins it with its neighbours; `carve` takes the end off a
block of the list. Both say exactly which addresses the new list covers.
-/

namespace Blocks

structure Block where
  addr : Nat
  len : Nat
deriving DecidableEq, Repr

namespace Block

/-- The first address after the block. -/
def stop (b : Block) : Nat := b.addr + b.len

/-- The block contains the address. -/
def Has (b : Block) (x : Nat) : Prop := b.addr ≤ x ∧ x < b.stop

/-- Two blocks with no address in common. -/
def Apart (a b : Block) : Prop := a.stop ≤ b.addr ∨ b.stop ≤ a.addr

theorem Apart.symm {a b : Block} (h : Apart a b) : Apart b a := Or.symm h

theorem Apart.addr_ne {a b : Block} (h : Apart a b) (ha : 0 < a.len) (hb : 0 < b.len) :
    a.addr ≠ b.addr := by
  rcases h with h | h <;> simp only [stop] at h <;> omega

theorem Apart.not_has {a b : Block} {x : Nat} (h : Apart a b) (ha : a.Has x) : ¬ b.Has x := by
  rintro ⟨hlo, hhi⟩
  obtain ⟨hlo', hhi'⟩ := ha
  rcases h with h | h <;> omega

theorem apart_of_disjoint {a b : Block} (ha : 0 < a.len) (hb : 0 < b.len)
    (h : ∀ x, a.Has x → ¬ b.Has x) : Apart a b := by
  by_contra hne
  obtain ⟨h1, h2⟩ := not_or.1 hne
  simp only [stop] at h1 h2
  rcases Nat.le_total a.addr b.addr with hle | hle
  · exact h b.addr ⟨hle, by simp only [stop]; omega⟩ ⟨Nat.le_refl _, by simp only [stop]; omega⟩
  · exact h a.addr ⟨Nat.le_refl _, by simp only [stop]; omega⟩ ⟨hle, by simp only [stop]; omega⟩

end Block

variable {a b c : Block} {l l1 l2 : List Block} {x n : Nat}

/-- Some block of the list contains the address. -/
def Covers (l : List Block) (x : Nat) : Prop := ∃ b ∈ l, b.Has x

theorem not_covers_nil : ¬ Covers [] x := fun ⟨_, hb, _⟩ => by cases hb

theorem covers_cons : Covers (b :: l) x ↔ b.Has x ∨ Covers l x := by
  simp only [Covers, List.exists_mem_cons_iff]

theorem covers_append : Covers (l1 ++ l2) x ↔ Covers l1 x ∨ Covers l2 x := by
  simp only [Covers, List.mem_append, or_and_right, exists_or]

/-- In increasing order, with gaps, and none empty. -/
structure Spaced (l : List Block) : Prop where
  gaps : l.Pairwise fun a b => a.stop < b.addr
  pos : ∀ b ∈ l, 0 < b.len

theorem Spaced.tail (h : Spaced (b :: l)) : Spaced l :=
  ⟨h.gaps.of_cons, fun c hc => h.pos c (List.mem_cons_of_mem _ hc)⟩

theorem Spaced.head (h : Spaced (b :: l)) (hc : c ∈ l) : b.stop < c.addr :=
  List.rel_of_pairwise_cons h.gaps hc

theorem Spaced.cons (h : Spaced l) (hpos : 0 < b.len) (hb : ∀ c ∈ l, b.stop < c.addr) :
    Spaced (b :: l) := by
  refine ⟨List.pairwise_cons.2 ⟨hb, h.gaps⟩, fun c hc => ?_⟩
  rcases List.mem_cons.1 hc with rfl | hc
  · exact hpos
  · exact h.pos c hc

theorem spaced_append : Spaced (l1 ++ l2) ↔ Spaced l1 ∧ Spaced l2 ∧
    ∀ a ∈ l1, ∀ b ∈ l2, a.stop < b.addr := by
  constructor
  · rintro ⟨hgaps, hpos⟩
    obtain ⟨h1, h2, hcross⟩ := List.pairwise_append.1 hgaps
    exact ⟨⟨h1, fun c hc => hpos c (List.mem_append_left _ hc)⟩,
      ⟨h2, fun c hc => hpos c (List.mem_append_right _ hc)⟩, hcross⟩
  · rintro ⟨h1, h2, hcross⟩
    refine ⟨List.pairwise_append.2 ⟨h1.gaps, h2.gaps, hcross⟩, fun c hc => ?_⟩
    rcases List.mem_append.1 hc with hc | hc
    · exact h1.pos c hc
    · exact h2.pos c hc

theorem Spaced.split_at (h : Spaced l) (hb : ∀ c ∈ l, b.Apart c) :
    ∃ l1 l2, l = l1 ++ l2 ∧ (∀ c ∈ l1, c.stop ≤ b.addr) ∧ ∀ c ∈ l2, b.stop ≤ c.addr := by
  induction l with
  | nil => exact ⟨[], [], rfl, List.forall_mem_nil _, List.forall_mem_nil _⟩
  | cons d l ih =>
    rcases hb d List.mem_cons_self with hd | hd
    · refine ⟨[], d :: l, rfl, List.forall_mem_nil _, fun c hc => ?_⟩
      rcases List.mem_cons.1 hc with rfl | hc
      · exact hd
      · have hdc := h.head hc
        simp only [Block.stop] at hd hdc ⊢
        omega
    · grind [h.tail]

/-- The addresses of spaced blocks above `lo` increase. -/
theorem Spaced.addrs_sorted {lo : Nat} (h : Spaced l) (hlo : ∀ c ∈ l, lo < c.addr) :
    (lo :: l.map Block.addr).Pairwise (· < ·) := by
  refine List.pairwise_cons.2 ⟨?_, ?_⟩
  · simpa only [List.mem_map, forall_exists_index, and_imp, forall_apply_eq_imp_iff₂] using hlo
  · refine List.pairwise_map.2 (h.gaps.imp fun {a b} hab => ?_)
    simp only [Block.stop] at hab
    omega

/-! ### Giving a block back -/

/-- Put `b` in front, joined with the first block if they touch. -/
def joinRight (b : Block) : List Block → List Block
  | [] => [b]
  | c :: rest => if b.stop = c.addr then ⟨b.addr, b.len + c.len⟩ :: rest else b :: c :: rest

/-- Put `b` at its place, joined with the blocks it touches. -/
def release (b : Block) : List Block → List Block
  | [] => [b]
  | c :: rest =>
    if b.addr < c.addr then joinRight b (c :: rest)
    else if c.stop = b.addr then joinRight ⟨c.addr, c.len + b.len⟩ rest
    else c :: release b rest

theorem covers_joinRight : Covers (joinRight b l) x ↔ b.Has x ∨ Covers l x := by
  cases l with
  | nil => exact covers_cons
  | cons c rest =>
    rw [joinRight]
    split
    · rename_i h
      simp only [covers_cons, Block.Has, Block.stop] at h ⊢
      constructor
      · grind
      · grind
    · exact covers_cons

theorem covers_release : Covers (release b l) x ↔ b.Has x ∨ Covers l x := by
  induction l with
  | nil => exact covers_cons
  | cons c rest ih =>
    rw [release]
    split
    · exact covers_joinRight
    · split
      · rename_i h
        have hjoin : (⟨c.addr, c.len + b.len⟩ : Block).Has x ↔ c.Has x ∨ b.Has x := by
          simp only [Block.Has, Block.stop] at h ⊢
          omega
        rw [covers_joinRight, hjoin, covers_cons, or_assoc]
        exact or_left_comm
      · rw [covers_cons, ih, covers_cons]
        exact or_left_comm

theorem spaced_joinRight (h : Spaced l) (hpos : 0 < b.len) (hb : ∀ c ∈ l, b.stop ≤ c.addr) :
    Spaced (joinRight b l) := by
  cases l with
  | nil => exact h.cons hpos fun c hc => by cases hc
  | cons c rest =>
    have hc := hb c List.mem_cons_self
    rw [joinRight]
    split
    · rename_i heq
      refine h.tail.cons (Nat.add_pos_left hpos c.len) fun d hd => ?_
      have hcd := h.head hd
      simp only [Block.stop] at heq hcd ⊢
      omega
    · rename_i hne
      refine h.cons hpos fun d hd => ?_
      rcases List.mem_cons.1 hd with rfl | hd
      · omega
      · have hcd := h.head hd
        simp only [Block.stop] at hc hcd ⊢
        omega

theorem le_of_mem_joinRight {lo : Nat} (hb : lo ≤ b.addr) (hl : ∀ c ∈ l, lo ≤ c.addr) :
    ∀ c ∈ joinRight b l, lo ≤ c.addr := by
  cases l with
  | nil => simpa only [joinRight, List.mem_singleton, forall_eq] using hb
  | cons c rest => grind [joinRight, List.mem_cons_of_mem]

theorem le_of_mem_release {lo : Nat} (hb : lo ≤ b.addr) (hl : ∀ c ∈ l, lo ≤ c.addr) :
    ∀ c ∈ release b l, lo ≤ c.addr := by
  induction l with
  | nil => simpa only [release, List.mem_singleton, forall_eq] using hb
  | cons c rest ih =>
    have hc := hl c List.mem_cons_self
    have hrest : ∀ d ∈ rest, lo ≤ d.addr := fun d hd => hl d (List.mem_cons_of_mem _ hd)
    rw [release]
    split
    · exact le_of_mem_joinRight hb hl
    · split
      · exact le_of_mem_joinRight hc hrest
      · grind

theorem spaced_release (h : Spaced l) (hpos : 0 < b.len) (hb : ∀ c ∈ l, b.Apart c) :
    Spaced (release b l) := by
  induction l with
  | nil => exact h.cons hpos fun c hc => by cases hc
  | cons c rest ih =>
    have hc := hb c List.mem_cons_self
    have hcpos := h.pos c List.mem_cons_self
    have hrest : ∀ d ∈ rest, b.Apart d := fun d hd => hb d (List.mem_cons_of_mem _ hd)
    simp only [Block.Apart, Block.stop] at hc
    rw [release]
    split
    · rename_i hlt
      refine spaced_joinRight h hpos fun d hd => ?_
      rcases List.mem_cons.1 hd with rfl | hd
      · simp only [Block.stop]
        omega
      · have hcd := h.head hd
        simp only [Block.stop] at hcd ⊢
        omega
    · rename_i hge
      have hafter : ∀ d ∈ rest, c.addr + c.len < d.addr := fun d hd => h.head hd
      split
      · rename_i heq
        refine spaced_joinRight h.tail (Nat.add_pos_left hcpos b.len) fun d hd => ?_
        have hbd := hrest d hd
        have hdpos := h.pos d (List.mem_cons_of_mem _ hd)
        have hcd := hafter d hd
        simp only [Block.Apart, Block.stop] at heq hbd ⊢
        omega
      · rename_i hne
        refine (ih h.tail hrest).cons hcpos fun d hd => ?_
        have hb' : c.stop + 1 ≤ b.addr := by
          simp only [Block.stop] at hne ⊢
          omega
        exact le_of_mem_release hb' (fun e he => hafter e he) d hd

theorem apart_release {d : Block} (hd : 0 < d.len) (hsp : Spaced (release b l)) (hb : d.Apart b)
    (hl : ∀ c ∈ l, d.Apart c) : ∀ c ∈ release b l, d.Apart c := by
  intro c hc
  refine Block.apart_of_disjoint hd (hsp.pos c hc) fun x hx hcx => ?_
  rcases covers_release.1 ⟨c, hc, hcx⟩ with hbx | ⟨e, he, hex⟩
  · exact hb.not_has hx hbx
  · exact (hl e he).not_has hx hex

theorem release_append (h1 : ∀ c ∈ l1, c.addr ≤ b.addr ∧ c.stop ≠ b.addr)
    (h2 : ∀ c ∈ l2, b.addr < c.addr) : release b (l1 ++ l2) = l1 ++ joinRight b l2 := by
  induction l1 with
  | nil =>
    cases l2 with
    | nil => rfl
    | cons c rest => exact if_pos (h2 c List.mem_cons_self)
  | cons c l1 ih =>
    obtain ⟨hle, hne⟩ := h1 c List.mem_cons_self
    rw [List.cons_append, release, if_neg (Nat.not_lt.2 hle), if_neg hne,
      ih fun d hd => h1 d (List.mem_cons_of_mem _ hd), List.cons_append]

/-- The place of a block that touches the block `c` before it. -/
theorem release_touch (h1 : ∀ d ∈ l1, d.addr ≤ b.addr ∧ d.stop ≠ b.addr) (hle : c.addr ≤ b.addr)
    (heq : c.stop = b.addr) :
    release b (l1 ++ c :: l2) = l1 ++ joinRight ⟨c.addr, c.len + b.len⟩ l2 := by
  induction l1 with
  | nil => rw [List.nil_append, release, if_neg (Nat.not_lt.2 hle), if_pos heq, List.nil_append]
  | cons d l1 ih =>
    obtain ⟨hle', hne⟩ := h1 d List.mem_cons_self
    rw [List.cons_append, release, if_neg (Nat.not_lt.2 hle'), if_neg hne,
      ih fun e he => h1 e (List.mem_cons_of_mem _ he), List.cons_append]

theorem exists_mem_release (b : Block) (l : List Block) : ∃ c ∈ release b l, b.len ≤ c.len := by
  have hjoin : ∀ (b : Block) (l : List Block), ∃ c ∈ joinRight b l, b.len ≤ c.len := by
    intro b l
    cases l with
    | nil => exact ⟨b, List.mem_singleton.2 rfl, Nat.le_refl _⟩
    | cons d rest =>
      rw [joinRight]
      split
      · exact ⟨_, List.mem_cons_self, Nat.le_add_right _ _⟩
      · exact ⟨b, List.mem_cons_self, Nat.le_refl _⟩
  induction l with
  | nil => exact ⟨b, List.mem_singleton.2 rfl, Nat.le_refl _⟩
  | cons d rest ih =>
    rw [release]
    split
    · exact hjoin b _
    · split
      · obtain ⟨c, hc, hle⟩ := hjoin ⟨d.addr, d.len + b.len⟩ rest
        exact ⟨c, hc, Nat.le_trans (Nat.le_add_left _ _) hle⟩
      · grind

theorem length_release_le (b : Block) (l : List Block) :
    (release b l).length ≤ l.length + 1 := by
  have hjoin : ∀ (b : Block) (l : List Block), (joinRight b l).length ≤ l.length + 1 := by
    intro b l
    cases l with
    | nil => exact Nat.le_refl _
    | cons d rest =>
      rw [joinRight]
      split <;> simp only [List.length_cons] <;> omega
  induction l with
  | nil => exact Nat.le_refl _
  | cons d rest ih => grind [release]

/-- What `joinRight` puts in front, and what it leaves. -/
theorem of_joinRight {b' : Block} (h : joinRight b l = b' :: l2) :
    (b'.stop = b.stop ∨ ∃ c ∈ l, b'.stop = c.stop) ∧ ∀ c ∈ l2, c ∈ l := by
  cases l with
  | nil =>
    obtain ⟨rfl, rfl⟩ := List.cons.inj h
    exact ⟨.inl rfl, fun c hc => hc⟩
  | cons d rest =>
    rw [joinRight] at h
    split at h
    · rename_i heq
      obtain ⟨rfl, rfl⟩ := List.cons.inj h
      refine ⟨.inr ⟨d, List.mem_cons_self, ?_⟩, fun c hc => List.mem_cons_of_mem _ hc⟩
      simp only [Block.stop] at heq ⊢
      omega
    · grind

/-- A block that ends where `b` begins is joined with the same blocks as `b`. -/
theorem joinRight_extend {b' : Block} (heq : c.stop = b.addr) (h : joinRight b l = b' :: l2) :
    joinRight ⟨c.addr, c.len + b.len⟩ l = ⟨c.addr, c.len + b'.len⟩ :: l2 := by
  have hstop : (⟨c.addr, c.len + b.len⟩ : Block).stop = b.stop := by
    simp only [Block.stop] at heq ⊢
    omega
  cases l with
  | nil =>
    obtain ⟨rfl, rfl⟩ := List.cons.inj h
    rfl
  | cons d rest => grind [joinRight]

/-! ### Taking the end of a block -/

/-- What is left of `c` when `n` addresses are taken from its end. -/
def keep (c : Block) (n : Nat) : List Block :=
  if c.len = n then [] else [⟨c.addr, c.len - n⟩]

/-- What is taken. -/
def piece (c : Block) (n : Nat) : Block := ⟨c.addr + (c.len - n), n⟩

theorem covers_keep (hn : n ≤ c.len) : Covers (keep c n) x ∨ (piece c n).Has x ↔ c.Has x := by
  unfold keep piece
  split
  · simp only [not_covers_nil, false_or, Block.Has, Block.stop]
    omega
  · simp only [covers_cons, not_covers_nil, or_false, Block.Has, Block.stop]
    omega

theorem mem_keep (h : b ∈ keep c n) : b = ⟨c.addr, c.len - n⟩ ∧ c.len ≠ n := by
  grind [keep, List.mem_singleton.1]

/-- The list with `n` addresses taken from the end of the block `c` in it. -/
theorem spaced_carve (h : Spaced (l1 ++ c :: l2)) (hn : n ≤ c.len) :
    Spaced (l1 ++ keep c n ++ l2) := by
  obtain ⟨h1, hc2, hcross⟩ := spaced_append.1 h
  have hkeep : ∀ b ∈ keep c n, b.addr = c.addr ∧ b.stop ≤ c.stop ∧ 0 < b.len := by
    intro b hb
    obtain ⟨rfl, hne⟩ := mem_keep hb
    refine ⟨rfl, ?_, ?_⟩ <;> dsimp only [Block.stop] <;> omega
  have hspaced : Spaced (keep c n) := by
    refine ⟨?_, fun b hb => (hkeep b hb).2.2⟩
    unfold keep
    split
    · exact List.Pairwise.nil
    · exact List.pairwise_singleton _ _
  rw [List.append_assoc]
  refine spaced_append.2 ⟨h1, spaced_append.2 ⟨hspaced, hc2.tail, ?_⟩, ?_⟩
  · intro b hb d hd
    exact Nat.lt_of_le_of_lt (hkeep b hb).2.1 (hc2.head hd)
  · grind

theorem covers_carve (hn : n ≤ c.len) :
    Covers (l1 ++ keep c n ++ l2) x ∨ (piece c n).Has x ↔ Covers (l1 ++ c :: l2) x := by
  have hc := covers_keep (x := x) hn
  simp only [covers_append, covers_cons]
  tauto

theorem piece_apart (h : Spaced (l1 ++ c :: l2)) (hn : n ≤ c.len) :
    ∀ b ∈ l1 ++ keep c n ++ l2, (piece c n).Apart b := by
  obtain ⟨-, hc2, hcross⟩ := spaced_append.1 h
  intro b hb
  simp only [piece, Block.Apart, Block.stop]
  rcases List.mem_append.1 hb with hb | hb
  · rcases List.mem_append.1 hb with hb | hb
    · have hlt := hcross b hb c List.mem_cons_self
      simp only [Block.stop] at hlt
      omega
    · obtain ⟨rfl, hne⟩ := mem_keep hb
      dsimp only
      omega
  · have hlt := hc2.head hb
    simp only [Block.stop] at hlt
    omega

end Blocks
