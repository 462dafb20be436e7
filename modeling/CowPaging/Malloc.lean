import Mathlib.Data.Nat.Bitwise
import CowPaging.Lib.Blocks
import CowPaging.Lib.Linked
import CowPaging.Lib.StateExcept

/-!
# The allocator of user programs

`umalloc.c`: a ring of free blocks in the heap itself, entered at `freep` and anchored at
the static header `base`. Pointers are addresses, a header is 8 bytes, and sizes count
headers. The two fields of the header at an address are `ptr` and `size`; headers do not
overlap, since a block is never shorter than its header. `sbrk` is an argument. The loops
have no bound in the source; here they take one, and the specifications say how much is
enough.
-/

namespace CowPaging.Umalloc

open StateExcept Blocks LinkedList
open Function (update_of_ne update_self update)

/-- The memory of a program as far as the allocator uses it, and the system behind `sbrk`. -/
structure Arena (ε : Type) where
  ptr : Nat → Nat
  size : Nat → Nat
  freep : Nat
  os : ε

/-- A loop of the model was cut off. -/
inductive Stop where
  | spin
deriving DecidableEq, Repr

abbrev U (ε : Type) := StateT (Arena ε) (Except Stop)

section Model

variable {ε : Type}

def Arena.setPtr (s : Arena ε) (p v : Nat) : Arena ε := { s with ptr := update s.ptr p v }

def Arena.setSize (s : Arena ε) (p v : Nat) : Arena ε :=
  { s with size := update s.size p v }

/-- `p + n` for a `Header *`. -/
def hdr (p n : Nat) : Nat := (p + 8 * n) % 2 ^ 32

/-- The loop of `free`: the node after which the block `bp` belongs. -/
def freeSearch (bp : Nat) : Nat → Nat → U ε Nat
  | 0, _ => throw .spin
  | fuel + 1, p => do
    let s ← get
    if bp > p ∧ bp < s.ptr p then pure p
    else if p ≥ s.ptr p ∧ (bp > p ∨ bp < s.ptr p) then pure p
    else freeSearch bp fuel (s.ptr p)

/-- The first `if` of `free`: join with the block above. -/
def joinUp (bp p : Nat) : U ε Unit :=
  modify fun s =>
    if hdr bp (s.size bp) = s.ptr p then
      (s.setSize bp ((s.size bp + s.size (s.ptr p)) % 2 ^ 32)).setPtr bp (s.ptr (s.ptr p))
    else s.setPtr bp (s.ptr p)

/-- The second: join with the block below. -/
def joinDown (bp p : Nat) : U ε Unit :=
  modify fun s =>
    if hdr p (s.size p) = bp then
      (s.setSize p ((s.size p + s.size bp) % 2 ^ 32)).setPtr p (s.ptr bp)
    else s.setPtr p bp

def free (fuel ap : Nat) : U ε Unit := do
  let bp := (ap + (2 ^ 32 - 8)) % 2 ^ 32
  let s ← get
  let p ← freeSearch bp fuel s.freep
  joinUp bp p
  joinDown bp p
  modify fun s => { s with freep := p }

variable (sbrk : Nat → ε → Option Nat × ε)

/-- `morecore`; `sbrk` gets the number of bytes as a `uint`, and `none` is -1. -/
def morecore (fuel nu : Nat) : U ε (Option Nat) := do
  let nu := if nu < 4096 then 4096 else nu
  let s ← get
  let r := sbrk (nu * 8 % 2 ^ 32) s.os
  set { s with os := r.2 }
  match r.1 with
  | none => pure none
  | some hp => do
    modify fun s => s.setSize hp nu
    free fuel (hdr hp 1)
    let s ← get
    pure (some s.freep)

/-- The block at `p`, which is large enough, or its end; `prevp` is the node before it. -/
def takeFrom (nunits prevp p : Nat) : U ε Nat := do
  let s ← get
  if s.size p = nunits then do
    set { s.setPtr prevp (s.ptr p) with freep := prevp }
    pure (hdr p 1)
  else do
    let q := hdr p (s.size p - nunits)
    set { (s.setSize p (s.size p - nunits)).setSize q nunits with freep := prevp }
    pure (hdr q 1)

/-- The loop of `malloc`; 0 is the null pointer. -/
def mallocLoop (nunits : Nat) : Nat → Nat → Nat → U ε Nat
  | 0, _, _ => throw .spin
  | fuel + 1, prevp, p => do
    let s ← get
    if s.size p ≥ nunits then takeFrom nunits prevp p
    else if p = s.freep then
      match ← morecore sbrk fuel nunits with
      | none => pure 0
      | some p => do
        let s ← get
        mallocLoop nunits fuel p (s.ptr p)
    else mallocLoop nunits fuel p (s.ptr p)

/-- `nunits` for a request of `nbytes`. -/
def unitsFor (nbytes : Nat) : Nat := (nbytes + 8 - 1) % 2 ^ 32 / 8 + 1

def malloc (base fuel nbytes : Nat) : U ε Nat := do
  modify fun s =>
    if s.freep = 0 then { (s.setPtr base base).setSize base 0 with freep := base } else s
  let s ← get
  mallocLoop sbrk (unitsFor nbytes) fuel s.freep (s.ptr s.freep)

end Model

/-! ### The ring of free blocks -/

section

variable {ε : Type} {base bp p fuel : Nat} {s : Arena ε} {l l1 l2 : List Nat} {b c : Block}
  {frees : List Block}

/-- The ring through `base` holds the blocks `frees`. -/
structure Holds (base : Nat) (s : Arena ε) (frees : List Block) : Prop where
  ring : Linked s.ptr base (frees.map Block.addr) base
  size : ∀ c ∈ frees, 8 * s.size c.addr = c.len
  anchor : s.size base = 0
  freep : s.freep ∈ base :: frees.map Block.addr

/-- From a node below `bp`, the search stops at the last node below `bp`. -/
theorem freeSearch_up (h : Linked s.ptr p (l1 ++ l2) base) (hsort : (p :: (l1 ++ l2)).Pairwise (· < ·))
    (hbase : base ≤ p) (hp : p < bp) (h1 : ∀ x ∈ l1, x < bp) (h2 : ∀ x ∈ l2, bp < x)
    (hfuel : l1.length < fuel) : freeSearch bp fuel p s = .ok (lastNode p l1, s) := by
  obtain ⟨fuel, rfl⟩ : ∃ f, fuel = f + 1 := ⟨fuel - 1, by omega⟩
  induction l1 generalizing p fuel with
  | nil =>
    rw [freeSearch, get_bind]
    cases l2 with
    | nil =>
      have hnext : s.ptr p = base := h
      rw [hnext, if_neg (by omega), if_pos ⟨hbase, .inl hp⟩]
      rfl
    | cons x l2 =>
      have hx := h2 x List.mem_cons_self
      have hnext : s.ptr p = x := h.1
      rw [hnext, if_pos ⟨hp, hx⟩]
      rfl
  | cons x l1 ih =>
    have hx := h1 x List.mem_cons_self
    have hnext : s.ptr p = x := h.1
    have hpx : p < x := List.rel_of_pairwise_cons hsort List.mem_cons_self
    obtain ⟨fuel, rfl⟩ : ∃ f, fuel = f + 1 := ⟨fuel - 1, by rw [List.length_cons] at hfuel; omega⟩
    rw [freeSearch, get_bind, hnext, if_neg (by omega), if_neg (by omega)]
    rw [List.length_cons] at hfuel
    exact ih h.2 hsort.of_cons (by omega) hx (fun y hy => h1 y (List.mem_cons_of_mem _ hy))
      fuel (by omega)

/-- From a node above `bp`, the search goes round to `base`. -/
theorem freeSearch_round (h : Linked s.ptr p l base) (hsort : (p :: l).Pairwise (· < ·))
    (hbase : base < bp) (hp : bp < p) :
    freeSearch bp (fuel + (l.length + 1)) p s = freeSearch bp fuel base s := by
  induction l generalizing p with
  | nil =>
    have hnext : s.ptr p = base := h
    rw [List.length_nil, Nat.zero_add, freeSearch, get_bind, hnext, if_neg (by omega),
      if_neg (by omega)]
  | cons x l ih =>
    have hnext : s.ptr p = x := h.1
    have hpx : p < x := List.rel_of_pairwise_cons hsort List.mem_cons_self
    rw [List.length_cons, ← Nat.add_assoc, freeSearch, get_bind, hnext, if_neg (by omega),
      if_neg (by omega)]
    exact ih h.2 hsort.of_cons (by omega)

/-- From anywhere, the search finds the last node below `bp`. -/
theorem freeSearch_eq (h : Linked s.ptr base (l1 ++ l2) base)
    (hsort : (base :: (l1 ++ l2)).Pairwise (· < ·)) (hbp : base < bp) (h1 : ∀ x ∈ l1, x < bp)
    (h2 : ∀ x ∈ l2, bp < x) (hp : p ∈ base :: (l1 ++ l2))
    (hfuel : l1.length + l2.length + 1 < fuel) :
    freeSearch bp fuel p s = .ok (lastNode base l1, s) := by
  rcases List.mem_cons.1 hp with rfl | hp
  · exact freeSearch_up h hsort (Nat.le_refl _) hbp h1 h2 (by omega)
  have hbase : base < p := List.rel_of_pairwise_cons hsort hp
  rcases List.mem_append.1 hp with hp | hp
  · obtain ⟨m1, m2, rfl⟩ := List.append_of_mem hp
    rw [List.append_assoc, List.cons_append] at h hsort
    rw [lastNode_append_cons]
    refine freeSearch_up (linked_append.1 h).2 ?_ (Nat.le_of_lt hbase) (h1 p hp) (fun x hx => ?_) h2 ?_
    · exact (List.pairwise_append.1 hsort.of_cons).2.1
    · exact h1 x (List.mem_append_right _ (List.mem_cons_of_mem _ hx))
    · rw [List.length_append, List.length_cons] at hfuel
      omega
  · obtain ⟨m1, m2, rfl⟩ := List.append_of_mem hp
    obtain ⟨fuel, rfl⟩ : ∃ f, fuel = f + (m2.length + 1) :=
      ⟨fuel - (m2.length + 1), by
        rw [List.length_append, List.length_cons] at hfuel
        omega⟩
    have hround : freeSearch bp (fuel + (m2.length + 1)) p s = freeSearch bp fuel base s := by
      rw [← List.append_assoc] at h hsort
      refine freeSearch_round (linked_append.1 h).2 ?_ hbp (h2 p hp)
      exact (List.pairwise_append.1 hsort.of_cons).2.1
    rw [hround]
    refine freeSearch_up h hsort (Nat.le_refl _) hbp h1 h2 ?_
    rw [List.length_append, List.length_cons] at hfuel
    omega

/-! ### Giving a block back -/

theorem hdr_back {a : Nat} (ha : a < 2 ^ 32) : (hdr a 1 + (2 ^ 32 - 8)) % 2 ^ 32 = a := by
  unfold hdr
  omega

/-- Only the header at `a` was changed. -/
structure Rewrites (a : Nat) (s s' : Arena ε) : Prop where
  ptr : ∀ x, x ≠ a → s'.ptr x = s.ptr x
  size : ∀ x, x ≠ a → s'.size x = s.size x
  freep : s'.freep = s.freep
  os : s'.os = s.os

theorem rewrites_setPtr (s : Arena ε) (a v : Nat) : Rewrites a s (s.setPtr a v) :=
  ⟨fun _ hx => update_of_ne hx _ _, fun _ _ => rfl, rfl, rfl⟩

theorem rewrites_setSize (s : Arena ε) (a v : Nat) : Rewrites a s (s.setSize a v) :=
  ⟨fun _ _ => rfl, fun _ hx => update_of_ne hx _ _, rfl, rfl⟩

theorem Rewrites.trans {a : Nat} {s1 s2 : Arena ε} (h : Rewrites a s s1) (h' : Rewrites a s1 s2) :
    Rewrites a s s2 :=
  ⟨fun x hx => (h'.ptr x hx).trans (h.ptr x hx), fun x hx => (h'.size x hx).trans (h.size x hx),
    h'.freep.trans h.freep, h'.os.trans h.os⟩

/-- The block at `bp` as it stands before the blocks `frees` above it. -/
structure Heads (base : Nat) (s : Arena ε) (b : Block) (frees : List Block) : Prop where
  link : Linked s.ptr b.addr (frees.map Block.addr) base
  size : 8 * s.size b.addr = b.len

theorem joinUp_spec (hlink : Linked s.ptr p (frees.map Block.addr) base)
    (hsize : ∀ c ∈ frees, 8 * s.size c.addr = c.len) (hb : 8 * s.size b.addr = b.len)
    (hbase : base < b.addr) (habove : ∀ c ∈ frees, b.stop ≤ c.addr) (hpos : 0 < b.len)
    (hhigh : b.stop < 2 ^ 32) (hhigh' : ∀ c ∈ frees, c.stop < 2 ^ 32) :
    ∃ s1 b' rest, joinUp b.addr p s = .ok ((), s1) ∧ joinRight b frees = b' :: rest ∧
      b'.addr = b.addr ∧ Heads base s1 b' rest ∧ Rewrites b.addr s s1 := by
  have hstop : hdr b.addr (s.size b.addr) = b.stop := by grind [hdr, Block.stop, Nat.mod_eq_of_lt]
  have hjoin : joinUp b.addr p s = .ok ((), if b.stop = s.ptr p then
      (s.setSize b.addr ((s.size b.addr + s.size (s.ptr p)) % 2 ^ 32)).setPtr b.addr
        (s.ptr (s.ptr p)) else s.setPtr b.addr (s.ptr p)) := by
    rw [← hstop]
    rfl
  have hself : ∀ c ∈ frees, c.addr ≠ b.addr := by grind [Block.stop]
  rw [hjoin]
  cases frees with
  | nil =>
    have hnext : s.ptr p = base := hlink
    refine ⟨_, b, [], rfl, rfl, rfl, ?_, ?_⟩
    · rw [hnext, if_neg (by simp only [Block.stop]; omega)]
      exact ⟨update_self _ _ _, hb⟩
    · grind [rewrites_setPtr, Block.stop]
  | cons c rest =>
    have hnext : s.ptr p = c.addr := hlink.1
    have hc := hself c List.mem_cons_self
    have hrest : ∀ x ∈ rest.map Block.addr, x ≠ b.addr := by
      intro x hx
      obtain ⟨d, hd, rfl⟩ := List.mem_map.1 hx
      exact hself d (List.mem_cons_of_mem _ hd)
    have hlen := hsize c List.mem_cons_self
    by_cases htouch : b.stop = c.addr
    · refine ⟨_, ⟨b.addr, b.len + c.len⟩, rest, rfl, if_pos htouch, rfl, ?_, ?_⟩
      · rw [hnext, if_pos htouch]
        refine ⟨hlink.2.restart (update_self _ _ _) fun x hx => ?_, ?_⟩
        · exact update_of_ne (hrest x hx) _ _
        · have hcstop := hhigh' c List.mem_cons_self
          simp only [Arena.setPtr, Arena.setSize, update_self]
          simp only [Block.stop] at htouch hcstop
          omega
      · rw [hnext, if_pos htouch]
        exact (rewrites_setSize _ _ _).trans (rewrites_setPtr _ _ _)
    · refine ⟨_, b, c :: rest, rfl, if_neg htouch, rfl, ?_, ?_⟩
      · rw [hnext, if_neg htouch]
        refine ⟨hlink.restart ?_ fun x hx => ?_, hb⟩
        · exact (update_self _ _ _).trans hnext.symm
        · rcases List.mem_cons.1 hx with rfl | hx
          · exact update_of_ne hc _ _
          · exact update_of_ne (hrest x hx) _ _
      · rw [hnext, if_neg htouch]
        exact rewrites_setPtr _ _ _

/-- Two ways of ending `free`: the last block below touches `b` and grows, or `b` is a new
    node. -/
inductive Lowered (b : Block) (below rest : List Block) : List Block → Prop where
  | grown {m : List Block} {c : Block} : below = m ++ [c] → c.stop = b.addr →
      Lowered b below rest (m ++ ⟨c.addr, c.len + b.len⟩ :: rest)
  | linked : (∀ c ∈ below, c.stop ≠ b.addr) → Lowered b below rest (below ++ b :: rest)

theorem joinDown_spec {below rest : List Block} {x : Nat}
    (hlink : Linked s.ptr base (below.map Block.addr) x) (hh : Heads base s b rest)
    (hsize : ∀ c ∈ below, 8 * s.size c.addr = c.len)
    (hrest : ∀ c ∈ rest, 8 * s.size c.addr = c.len ∧ b.addr < c.addr) (hanchor : s.size base = 0)
    (hsp : Spaced below) (hlow : ∀ c ∈ below, base < c.addr) (hbase : base < b.addr)
    (hbelow : ∀ c ∈ below, c.stop ≤ b.addr) (hhigh : b.stop < 2 ^ 32) :
    ∃ s' l, joinDown b.addr (lastNode base (below.map Block.addr)) s = .ok ((), s') ∧
      Lowered b below rest l ∧ Linked s'.ptr base (l.map Block.addr) base ∧
      (∀ c ∈ l, 8 * s'.size c.addr = c.len) ∧ s'.size base = 0 ∧
      Rewrites (lastNode base (below.map Block.addr)) s s' := by
  have hsorted := hsp.addrs_sorted hlow
  have hnodup : (base :: below.map Block.addr).Nodup := hsorted.imp Nat.ne_of_lt
  have hlt : ∀ y ∈ base :: below.map Block.addr, y < b.addr := by
    intro y hy
    rcases List.mem_cons.1 hy with rfl | hy
    · exact hbase
    · obtain ⟨c, hc, rfl⟩ := List.mem_map.1 hy
      have hle := hbelow c hc
      have hpos := hsp.pos c hc
      simp only [Block.stop] at hle
      omega
  have hplt := hlt _ (lastNode_mem (a := base) (l := below.map Block.addr))
  simp only [Block.stop] at hhigh
  by_cases htouch : ∃ m c, below = m ++ [c] ∧ c.stop = b.addr
  · -- the block below grows
    obtain ⟨m, c, rfl, htouch⟩ := htouch
    have hlast : lastNode base ((m ++ [c]).map Block.addr) = c.addr := by
      rw [List.map_append]
      exact lastNode_append_cons
    rw [hlast] at hplt ⊢
    have hc := hsize c (List.mem_append_right _ (List.mem_singleton.2 rfl))
    have hstop : hdr c.addr (s.size c.addr) = b.addr := by
      simp only [hdr, Block.stop] at htouch ⊢
      omega
    have hm : ∀ y ∈ base :: m.map Block.addr, y ≠ c.addr := by
      intro y hy heq
      rw [List.map_append, ← List.cons_append] at hnodup
      refine (List.nodup_append.1 hnodup).2.2 y hy y ?_ rfl
      rw [heq]
      exact List.mem_singleton.2 rfl
    have hr : ∀ d ∈ rest, d.addr ≠ c.addr := fun d hd heq => by
      have := (hrest d hd).2
      omega
    have hjoin : joinDown b.addr c.addr s = .ok ((), (s.setSize c.addr
        ((s.size c.addr + s.size b.addr) % 2 ^ 32)).setPtr c.addr (s.ptr b.addr)) := by
      unfold joinDown
      simp only [modify, modifyGet, MonadStateOf.modifyGet, StateT.modifyGet, if_pos hstop]
      rfl
    refine ⟨_, _, hjoin, .grown rfl htouch, ?_, ?_, ?_, ?_⟩
    · rw [List.map_append, List.map_cons]
      rw [List.map_append, List.map_cons, List.map_nil] at hlink
      refine linked_append.2 ⟨?_, ?_⟩
      · refine (linked_append.1 hlink).1.restart ?_ fun y hy => ?_
        · exact update_of_ne (hm base List.mem_cons_self) _ _
        · exact update_of_ne (hm y (List.mem_cons_of_mem _ hy)) _ _
      · refine hh.link.restart (update_self _ _ _) fun y hy => ?_
        obtain ⟨d, hd, rfl⟩ := List.mem_map.1 hy
        exact update_of_ne (hr d hd) _ _
    · intro d hd
      have hb := hh.size
      rcases List.mem_append.1 hd with hd | hd
      · have hne := hm d.addr (List.mem_cons_of_mem _ (List.mem_map_of_mem hd))
        simp only [Arena.setPtr, Arena.setSize, update_of_ne hne]
        exact hsize d (List.mem_append_left _ hd)
      · rcases List.mem_cons.1 hd with rfl | hd
        · simp only [Arena.setPtr, Arena.setSize, update_self]
          simp only [Block.stop] at htouch
          omega
        · simp only [Arena.setPtr, Arena.setSize, update_of_ne (hr d hd)]
          exact (hrest d hd).1
    · simp only [Arena.setPtr, Arena.setSize, update_of_ne (hm base List.mem_cons_self)]
      exact hanchor
    · exact (rewrites_setSize _ _ _).trans (rewrites_setPtr _ _ _)
  · -- `b` is a node of its own
    obtain ⟨p, hp⟩ : ∃ p, p = lastNode base (below.map Block.addr) := ⟨_, rfl⟩
    have hno : ∀ c ∈ below, c.stop ≠ b.addr := by
      intro c hc heq
      rcases List.eq_nil_or_concat below with rfl | ⟨m, d, rfl⟩
      · cases hc
      · rw [List.concat_eq_append] at hc htouch hsp hbelow
        rcases List.mem_append.1 hc with hc | hc
        · have hcd := (spaced_append.1 hsp).2.2 c hc d (List.mem_singleton.2 rfl)
          have hd := hbelow d (List.mem_append_right _ (List.mem_singleton.2 rfl))
          simp only [Block.stop] at heq hcd hd
          omega
        · obtain rfl := List.mem_singleton.1 hc
          exact htouch ⟨m, c, rfl, heq⟩
    have hstop : hdr p (s.size p) ≠ b.addr := by
      rcases List.eq_nil_or_concat below with rfl | ⟨m, d, rfl⟩
      · have hpb : p = base := hp
        rw [hpb, hanchor]
        unfold hdr
        omega
      · rw [List.concat_eq_append] at hp hno hsize hbelow
        rw [List.map_append, List.map_cons, lastNode_append_cons] at hp
        have hpd : p = d.addr := hp
        have hmem : d ∈ m ++ [d] := List.mem_append_right _ (List.mem_singleton.2 rfl)
        have hd := hsize d hmem
        have hne := hno d hmem
        have hle := hbelow d hmem
        rw [hpd]
        simp only [hdr, Block.stop] at hne hle ⊢
        omega
    rw [← hp] at hplt ⊢
    have hjoin : joinDown b.addr p s = .ok ((), s.setPtr p b.addr) := by
      unfold joinDown
      simp only [modify, modifyGet, MonadStateOf.modifyGet, StateT.modifyGet, if_neg hstop]
      rfl
    refine ⟨_, _, hjoin, .linked hno, ?_, ?_, hanchor, rewrites_setPtr _ _ _⟩
    · rw [List.map_append, List.map_cons]
      refine linked_append.2 ⟨?_, ?_⟩
      · refine hlink.redirect ?_ (fun y hy hne => ?_) hnodup
        · rw [← hp]
          exact update_self _ _ _
        · rw [← hp] at hne
          exact update_of_ne hne _ _
      · refine hh.link.restart (update_of_ne (Nat.ne_of_gt hplt) _ _) fun y hy => ?_
        obtain ⟨d, hd, rfl⟩ := List.mem_map.1 hy
        have := (hrest d hd).2
        exact update_of_ne (by omega) _ _
    · intro d hd
      rcases List.mem_append.1 hd with hd | hd
      · exact hsize d hd
      · rcases List.mem_cons.1 hd with rfl | hd
        · exact hh.size
        · exact (hrest d hd).1

theorem Lowered.eq_release {below above rest l : List Block} {b' : Block}
    (h : Lowered b' below rest l) (hjoin : joinRight b above = b' :: rest)
    (haddr : b'.addr = b.addr) (hsp : Spaced below) (hbelow : ∀ c ∈ below, c.stop ≤ b.addr)
    (habove : ∀ c ∈ above, b.stop ≤ c.addr) (hpos : 0 < b.len) :
    l = release b (below ++ above) := by
  have hle : ∀ c ∈ below, c.addr ≤ b.addr := fun c hc => by grind [Block.stop]
  cases h with
  | @grown m c hm htouch =>
    subst hm
    rw [haddr] at htouch
    have hmem : c ∈ m ++ [c] := List.mem_append_right _ (List.mem_singleton.2 rfl)
    rw [List.append_assoc, List.singleton_append, release_touch _ (hle c hmem) htouch,
      joinRight_extend htouch hjoin]
    intro d hd
    refine ⟨hle d (List.mem_append_left _ hd), fun heq => ?_⟩
    have hdc := (spaced_append.1 hsp).2.2 d hd c (List.mem_singleton.2 rfl)
    have hcpos := hsp.pos c hmem
    simp only [Block.stop] at htouch heq hdc
    omega
  | linked hno =>
    rw [release_append, hjoin]
    · exact fun c hc => ⟨hle c hc, haddr ▸ hno c hc⟩
    · grind [Block.stop]

/-- A block that can be given back: it is apart from the free blocks, above `base`, and its
    header holds its size. -/
structure Returnable (base : Nat) (s : Arena ε) (frees : List Block) (b : Block) : Prop where
  apart : ∀ c ∈ frees, b.Apart c
  pos : 0 < b.len
  low : base < b.addr
  high : b.stop < 2 ^ 32
  size : 8 * s.size b.addr = b.len

/-- `free` of a block: the search ends, and the ring holds the block, joined with its
    neighbours. -/
theorem free_spec (h : Holds base s frees) (hsp : Spaced frees)
    (hlow : ∀ c ∈ frees, base < c.addr) (hhigh : ∀ c ∈ frees, c.stop < 2 ^ 32)
    (hb : Returnable base s frees b) (hfuel : frees.length + 1 < fuel) :
    ∃ s', free fuel (hdr b.addr 1) s = .ok ((), s') ∧ Holds base s' (release b frees) ∧
      s'.os = s.os ∧
      ∀ x, x ∉ base :: frees.map Block.addr → x ≠ b.addr → s'.size x = s.size x := by
  obtain ⟨below, above, rfl, hbelow, habove⟩ := hsp.split_at hb.apart
  have hspb := (spaced_append.1 hsp).1
  have hmemb : ∀ {c}, c ∈ below → c ∈ below ++ above := List.mem_append_left _
  have hmema : ∀ {c}, c ∈ above → c ∈ below ++ above := List.mem_append_right _
  have hstop := hb.high
  have hpos := hb.pos
  simp only [Block.stop] at hstop
  have hlt : ∀ c ∈ below, c.addr < b.addr := by
    intro c hc
    have hle := hbelow c hc
    have hcpos := hsp.pos c (hmemb hc)
    simp only [Block.stop] at hle
    omega
  have hgt : ∀ c ∈ above, b.addr < c.addr := by grind [Block.stop]
  -- the search
  have hring := h.ring
  have hfreep := h.freep
  have hsorted := hsp.addrs_sorted hlow
  rw [List.map_append] at hring hfreep hsorted
  obtain ⟨p, hp⟩ : ∃ p, p = lastNode base (below.map Block.addr) := ⟨_, rfl⟩
  have hsearch : freeSearch b.addr fuel s.freep s = .ok (p, s) := by
    rw [hp]
    refine freeSearch_eq hring hsorted hb.low ?_ ?_ hfreep ?_
    · simpa only [List.mem_map, forall_exists_index, and_imp, forall_apply_eq_imp_iff₂] using hlt
    · simpa only [List.mem_map, forall_exists_index, and_imp, forall_apply_eq_imp_iff₂] using hgt
    · grind
  obtain ⟨hpart, hrest⟩ := linked_parts hring
  rw [← hp] at hpart hrest
  -- the two joins
  obtain ⟨s1, b', rest, hup, hjoin, haddr, hheads, hrw⟩ :=
    joinUp_spec hrest (fun c hc => h.size c (hmema hc)) hb.size hb.low habove hb.pos hb.high
      fun c hc => hhigh c (hmema hc)
  obtain ⟨hends, hmemr⟩ := of_joinRight hjoin
  have hstop' : b'.stop < 2 ^ 32 := by
    rcases hends with heq | ⟨c, hc, heq⟩
    · rw [heq]
      exact hb.high
    · rw [heq]
      exact hhigh c (hmema hc)
  have hbelow' : ∀ c ∈ below, c.stop ≤ b'.addr := fun c hc => haddr ▸ hbelow c hc
  have hlink1 : Linked s1.ptr base (below.map Block.addr) (s.ptr p) := by
    refine hpart.restart (hrw.ptr _ (Nat.ne_of_lt hb.low)) fun y hy => ?_
    obtain ⟨c, hc, rfl⟩ := List.mem_map.1 hy
    exact hrw.ptr _ (Nat.ne_of_lt (hlt c hc))
  have hsize1 : ∀ c ∈ below, 8 * s1.size c.addr = c.len := by
    intro c hc
    rw [hrw.size _ (Nat.ne_of_lt (hlt c hc))]
    exact h.size c (hmemb hc)
  have hrest1 : ∀ c ∈ rest, 8 * s1.size c.addr = c.len ∧ b'.addr < c.addr := by
    grind [hrw.size, h.size, Nat.ne_of_gt]
  have hanchor1 : s1.size base = 0 := (hrw.size _ (Nat.ne_of_lt hb.low)).trans h.anchor
  obtain ⟨s2, l, hdown, hlow2, hring2, hsize2, hanchor2, hrw2⟩ :=
    joinDown_spec hlink1 hheads hsize1 hrest1 hanchor1 hspb
      (fun c hc => hlow c (hmemb hc)) (haddr ▸ hb.low) hbelow' hstop'
  rw [← hp] at hdown hrw2
  have hpmem : p ∈ base :: below.map Block.addr := hp ▸ lastNode_mem
  refine ⟨{ s2 with freep := p }, ?_, ?_, hrw2.os.trans hrw.os, fun x hx hxb => ?_⟩
  · unfold free
    rw [hdr_back (by omega), get_bind, bind_of_ok hsearch, bind_of_ok hup]
    rw [haddr] at hdown
    exact bind_of_ok hdown
  · rw [← hlow2.eq_release hjoin haddr hspb hbelow habove hb.pos]
    refine ⟨hring2, hsize2, hanchor2, ?_⟩
    rcases List.mem_cons.1 hpmem with heq | hpmem
    · exact List.mem_cons.2 (.inl heq)
    · refine List.mem_cons_of_mem _ ?_
      change p ∈ l.map Block.addr
      cases hlow2 with
      | @grown m c hm _ =>
        subst hm
        rw [List.map_append] at hpmem ⊢
        rcases List.mem_append.1 hpmem with hpm | hpm
        · exact List.mem_append_left _ hpm
        · rw [List.mem_singleton.1 hpm]
          exact List.mem_append_right _ List.mem_cons_self
      | linked _ =>
        rw [List.map_append]
        exact List.mem_append_left _ hpmem
  · have hxp : x ≠ p := by grind
    exact (hrw2.size x hxp).trans (hrw.size x hxb)

/-! ### The whole heap -/

/-- The state of the system as the allocator's regions: those that `sbrk` gave, and when the
    system is in order. -/
structure Ledger (ε : Type) where
  regions : ε → List Block
  ok : ε → Prop

/-- What is asked of `sbrk` for a positive `int`: it fails and gives nothing, or gives a
    region above `base` and all regions it gave before. -/
structure Grows (base : Nat) (sbrk : Nat → ε → Option Nat × ε) (L : Ledger ε) : Prop where
  keeps : ∀ n e, L.ok e → 0 < n → n < 2 ^ 31 → L.ok (sbrk n e).2
  fails : ∀ n e, L.ok e → 0 < n → n < 2 ^ 31 → (sbrk n e).1 = none →
    L.regions (sbrk n e).2 = L.regions e
  gives : ∀ n e a, L.ok e → 0 < n → n < 2 ^ 31 → (sbrk n e).1 = some a →
    L.regions (sbrk n e).2 = ⟨a, n⟩ :: L.regions e ∧ base + 8 ≤ a ∧ a + n < 2 ^ 32 ∧
      ∀ r ∈ L.regions e, r.stop ≤ a

/-- The free blocks are in the ring; the blocks in use are apart from them and from each
    other, each with its size in its header; together they are what `sbrk` gave. -/
structure Sound (base : Nat) (L : Ledger ε) (s : Arena ε) (frees used : List Block) : Prop where
  holds : Holds base s frees
  spaced : Spaced frees
  size : ∀ b ∈ used, 8 * s.size b.addr = b.len
  pos : ∀ b ∈ used, 0 < b.len
  apart : ∀ b ∈ used, ∀ c ∈ frees, b.Apart c
  disjoint : used.Pairwise Block.Apart
  cover : ∀ x, Covers (frees ++ used) x ↔ Covers (L.regions s.os) x
  inside : ∀ r ∈ L.regions s.os, base + 8 ≤ r.addr ∧ r.stop < 2 ^ 32
  sys : L.ok s.os

variable {L : Ledger ε} {used : List Block} {n : Nat}

theorem Sound.len_pos (h : Sound base L s frees used) (hc : c ∈ frees ++ used) : 0 < c.len := by
  rcases List.mem_append.1 hc with hc | hc
  · exact h.spaced.pos c hc
  · exact h.pos c hc

/-- A block lies between the first and the last address that `sbrk` gave. -/
theorem Sound.bounds (h : Sound base L s frees used) (hc : c ∈ frees ++ used) :
    base + 8 ≤ c.addr ∧ c.stop < 2 ^ 32 := by
  have hpos := h.len_pos hc
  have hfirst : Covers (frees ++ used) c.addr := ⟨c, hc, Nat.le_refl _, by simp only [Block.stop]; omega⟩
  have hlast : Covers (frees ++ used) (c.addr + c.len - 1) :=
    ⟨c, hc, by omega, by simp only [Block.stop]; omega⟩
  obtain ⟨r, hr, hle, -⟩ := (h.cover _).1 hfirst
  obtain ⟨r', hr', -, hlt⟩ := (h.cover _).1 hlast
  have hlo := (h.inside r hr).1
  have hhi := (h.inside r' hr').2
  simp only [Block.stop] at hlt hhi ⊢
  omega

theorem Sound.above (h : Sound base L s frees used) : ∀ c ∈ frees, base < c.addr :=
  fun c hc => by
    have := (h.bounds (List.mem_append_left _ hc)).1
    omega

theorem Sound.header (h : Sound base L s frees used) (hb : b ∈ used) :
    b.addr ∉ base :: frees.map Block.addr := by
  intro hmem
  rcases List.mem_cons.1 hmem with heq | hmem
  · have := (h.bounds (List.mem_append_right _ hb)).1
    omega
  · obtain ⟨c, hc, heq⟩ := List.mem_map.1 hmem
    exact (h.apart b hb c hc).addr_ne (h.pos b hb) (h.spaced.pos c hc) heq.symm

theorem free_sound {rest : List Block} (h : Sound base L s frees used)
    (hperm : used.Perm (b :: rest)) (hfuel : frees.length + 1 < fuel) :
    ∃ s', free fuel (hdr b.addr 1) s = .ok ((), s') ∧ Sound base L s' (release b frees) rest := by
  have hb : b ∈ used := hperm.mem_iff.2 List.mem_cons_self
  have hbounds := h.bounds (List.mem_append_right _ hb)
  have hret : Returnable base s frees b :=
    ⟨h.apart b hb, h.pos b hb, by omega, hbounds.2, h.size b hb⟩
  obtain ⟨s', hrun, hholds, hos, hkeep⟩ := free_spec h.holds h.spaced h.above
    (fun c hc => (h.bounds (List.mem_append_left _ hc)).2) hret hfuel
  have hpair : (b :: rest).Pairwise Block.Apart :=
    (hperm.pairwise_iff fun {_ _} => Block.Apart.symm).1 h.disjoint
  obtain ⟨hbrest, hdis⟩ := List.pairwise_cons.1 hpair
  have hmem : ∀ {c}, c ∈ rest → c ∈ used := fun hc => hperm.mem_iff.2 (List.mem_cons_of_mem _ hc)
  have hsp := spaced_release h.spaced hret.pos hret.apart
  refine ⟨s', hrun, hholds, hsp, ?_, fun c hc => h.pos c (hmem hc), fun c hc => ?_, hdis, ?_, ?_,
    hos ▸ h.sys⟩
  · intro c hc
    have hne := (hbrest c hc).symm.addr_ne (h.pos c (hmem hc)) hret.pos
    rw [hkeep c.addr (h.header (hmem hc)) hne]
    exact h.size c (hmem hc)
  · exact apart_release (h.pos c (hmem hc)) hsp (hbrest c hc).symm (h.apart c (hmem hc))
  · intro x
    rw [hos, ← h.cover x, covers_append, covers_release, covers_append]
    have hused : Covers used x ↔ b.Has x ∨ Covers rest x := by
      rw [← covers_cons]
      simp only [Covers, hperm.mem_iff]
    rw [hused]
    tauto
  · rw [hos]
    exact h.inside

/-! ### Taking a block -/

theorem Holds.split (h : Holds base s frees) (hsp : Spaced frees) (hlow : ∀ c ∈ frees, base < c.addr)
    {y : Nat} (hy : y ∈ base :: frees.map Block.addr) (hc : c ∈ frees) (hnext : s.ptr y = c.addr) :
    ∃ l1 l2, frees = l1 ++ c :: l2 ∧ y = lastNode base (l1.map Block.addr) := by
  obtain ⟨l1, l2, rfl⟩ := List.append_of_mem hc
  have hring := h.ring
  have hdis : (base :: (l1 ++ c :: l2).map Block.addr).Nodup :=
    (hsp.addrs_sorted hlow).imp Nat.ne_of_lt
  rw [List.map_append, List.map_cons] at hring hdis hy
  exact ⟨l1, l2, rfl, hring.node_before hdis hy hnext⟩

theorem takeFrom_sound (h : Sound base L s frees used) {y : Nat}
    (hy : y ∈ base :: frees.map Block.addr) (hc : c ∈ frees) (hnext : s.ptr y = c.addr)
    (hn : 0 < n) (hfit : n ≤ s.size c.addr) :
    ∃ s' frees', takeFrom n y c.addr s = .ok (hdr (piece c (8 * n)).addr 1, s') ∧
      s'.os = s.os ∧ frees'.length ≤ frees.length ∧
      Sound base L s' frees' (piece c (8 * n) :: used) := by
  have hlow := h.above
  obtain ⟨l1, l2, rfl, hlast⟩ := h.holds.split h.spaced hlow hy hc hnext
  have hlen := h.holds.size c hc
  have hbounds := h.bounds (List.mem_append_left _ hc)
  have hstop := hbounds.2
  simp only [Block.stop] at hstop
  have hn8 : 8 * n ≤ c.len := by omega
  have hsp := h.spaced
  have hdis : (base :: (l1 ++ c :: l2).map Block.addr).Nodup :=
    (hsp.addrs_sorted hlow).imp Nat.ne_of_lt
  have hring := h.holds.ring
  rw [List.map_append, List.map_cons] at hring hdis hy
  have hpc : ∀ d ∈ used, (piece c (8 * n)).Apart d := by
    intro d hd
    have hcd := h.apart d hd c hc
    simp only [piece, Block.Apart, Block.stop] at hcd ⊢
    omega
  have hcover : ∀ x, Covers ((l1 ++ keep c (8 * n) ++ l2) ++ piece c (8 * n) :: used) x ↔
      Covers (L.regions s.os) x := by
    intro x
    rw [← h.cover x, covers_append, covers_cons, ← or_assoc, covers_carve hn8]
    exact covers_append.symm
  have hkept : ∀ d ∈ used, ∀ e ∈ l1 ++ keep c (8 * n) ++ l2, d.Apart e := by
    intro d hd e he
    refine Block.apart_of_disjoint (h.pos d hd) ((spaced_carve hsp hn8).pos e he) fun x hx hex => ?_
    obtain ⟨e', he', hx'⟩ := (covers_carve hn8).1 (.inl ⟨e, he, hex⟩)
    exact (h.apart d hd e' he').not_has hx hx'
  have hmain : ∀ s' : Arena ε, s'.os = s.os → Holds base s' (l1 ++ keep c (8 * n) ++ l2) →
      8 * s'.size (piece c (8 * n)).addr = 8 * n →
      (∀ d ∈ used, s'.size d.addr = s.size d.addr) →
      Sound base L s' (l1 ++ keep c (8 * n) ++ l2) (piece c (8 * n) :: used) := by
    intro s' hos hholds hpsize hsame
    refine ⟨hholds, spaced_carve hsp hn8, ?_, ?_, ?_, ?_, ?_, ?_, hos ▸ h.sys⟩
    · intro d hd
      rcases List.mem_cons.1 hd with rfl | hd
      · exact hpsize
      · rw [hsame d hd]
        exact h.size d hd
    · intro d hd
      rcases List.mem_cons.1 hd with rfl | hd
      · simp only [piece]
        omega
      · exact h.pos d hd
    · grind [piece_apart]
    · exact List.pairwise_cons.2 ⟨hpc, h.disjoint⟩
    · rw [hos]
      exact hcover
    · rw [hos]
      exact h.inside
  by_cases hall : s.size c.addr = n
  · -- the whole block goes, and its node with it
    have hkeep : keep c (8 * n) = [] := if_pos (by omega)
    have haddr : (piece c (8 * n)).addr = c.addr := by
      simp only [piece]
      omega
    rw [hkeep, List.append_nil] at hmain
    rw [haddr] at hmain ⊢
    refine ⟨{ s.setPtr y (s.ptr c.addr) with freep := y }, l1 ++ l2, ?_, rfl, ?_,
      hmain _ rfl ⟨?_, ?_, h.holds.anchor, ?_⟩ ?_ fun _ _ => rfl⟩
    · unfold takeFrom
      rw [get_bind, if_pos hall]
      rfl
    · simp only [List.length_append, List.length_cons]
      omega
    · rw [hlast, List.map_append]
      exact hring.bypass hdis
    · intro d hd
      refine h.holds.size d ?_
      rcases List.mem_append.1 hd with hd | hd
      · exact List.mem_append_left _ hd
      · exact List.mem_append_right _ (List.mem_cons_of_mem _ hd)
    · rw [hlast, List.map_append, ← List.cons_append]
      exact List.mem_append_left _ lastNode_mem
    · exact congrArg (8 * ·) hall
  · -- the block keeps its node and loses its end
    have hkeep : keep c (8 * n) = [⟨c.addr, c.len - 8 * n⟩] := if_neg (by omega)
    obtain ⟨q, hq⟩ : ∃ q, q = c.addr + 8 * (s.size c.addr - n) := ⟨_, rfl⟩
    have hpiece : (piece c (8 * n)).addr = q := by
      simp only [piece]
      omega
    have hhdr : hdr c.addr (s.size c.addr - n) = q := by
      unfold hdr
      omega
    rw [hkeep] at hmain
    rw [hpiece] at hmain ⊢
    -- the new header lies inside `c`
    have hqc : q ≠ c.addr := by omega
    have hql : ∀ d ∈ l1, q ≠ d.addr ∧ c.addr ≠ d.addr := by
      intro d hd
      have hlt := (spaced_append.1 hsp).2.2 d hd c List.mem_cons_self
      simp only [Block.stop] at hlt
      omega
    have hqr : ∀ d ∈ l2, q ≠ d.addr ∧ c.addr ≠ d.addr := by
      intro d hd
      have hlt := (spaced_append.1 hsp).2.1.head hd
      simp only [Block.stop] at hlt
      omega
    have hqu : ∀ d ∈ used, q ≠ d.addr ∧ c.addr ≠ d.addr := by
      intro d hd
      have hdc := h.apart d hd c hc
      have hpos := h.pos d hd
      simp only [Block.Apart, Block.stop] at hdc
      omega
    obtain ⟨s', hs'⟩ : ∃ s', s' =
      { (s.setSize c.addr (s.size c.addr - n)).setSize q n with freep := y } := ⟨_, rfl⟩
    have hsame : ∀ a, q ≠ a ∧ c.addr ≠ a → s'.size a = s.size a := by
      rintro a ⟨hqa, hca⟩
      rw [hs']
      exact (update_of_ne (Ne.symm hqa) _ _).trans (update_of_ne (Ne.symm hca) _ _)
    have hsizec : s'.size c.addr = s.size c.addr - n := by
      rw [hs']
      exact (update_of_ne (Ne.symm hqc) _ _).trans (update_self _ _ _)
    have hsizeq : s'.size q = n := by
      rw [hs']
      exact update_self _ _ _
    have hptr : s'.ptr = s.ptr := by rw [hs']; rfl
    have hfreep : s'.freep = y := by rw [hs']
    have hos : s'.os = s.os := by rw [hs']; rfl
    refine ⟨s', l1 ++ [⟨c.addr, c.len - 8 * n⟩] ++ l2, ?_, hos, ?_,
      hmain s' hos ⟨?_, ?_, ?_, ?_⟩ (by rw [hsizeq]) fun d hd => hsame _ (hqu d hd)⟩
    · unfold takeFrom
      rw [get_bind, if_neg hall, hhdr, hs']
      rfl
    · simp only [List.length_append, List.length_cons, List.length_nil]
      omega
    · rw [hptr]
      simpa only [List.append_assoc, List.singleton_append, List.map_append, List.map_cons] using hring
    · intro d hd
      rcases List.mem_append.1 hd with hd | hd
      · rcases List.mem_append.1 hd with hd | hd
        · rw [hsame _ (hql d hd)]
          exact h.holds.size d (List.mem_append_left _ hd)
        · obtain rfl := List.mem_singleton.1 hd
          dsimp only
          omega
      · rw [hsame _ (hqr d hd)]
        exact h.holds.size d (List.mem_append_right _ (List.mem_cons_of_mem _ hd))
    · have := hlow c hc
      rw [hsame base (by omega)]
      exact h.holds.anchor
    · rw [hfreep]
      simpa only [List.append_assoc, List.singleton_append, List.map_append, List.map_cons] using hy

/-! ### The loop of `malloc` -/

variable {sbrk : Nat → ε → Option Nat × ε}

/-- What the loop does when it is back at `freep`. -/
def retry (sbrk : Nat → ε → Option Nat × ε) (nunits fuel : Nat) : U ε Nat := do
  match ← morecore sbrk fuel nunits with
  | none => pure 0
  | some p => do
    let s ← get
    mallocLoop sbrk nunits fuel p (s.ptr p)

/-- One round: the loop takes the first block that is large enough, or gets back to `freep`
    and asks for more memory. -/
theorem mallocLoop_round (sbrk : Nat → ε → Option Nat × ε) {prevp : Nat} {todo : List Nat} (h : Linked s.ptr prevp todo s.freep)
    (hno : s.freep ∉ todo) (hfuel : todo.length < fuel) :
    (∃ y x, y ∈ prevp :: todo ∧ x ∈ todo ++ [s.freep] ∧ s.ptr y = x ∧ n ≤ s.size x ∧
      mallocLoop sbrk n fuel prevp (s.ptr prevp) s = takeFrom n y x s) ∨
    ((∀ x ∈ todo ++ [s.freep], s.size x < n) ∧
      mallocLoop sbrk n fuel prevp (s.ptr prevp) s = retry sbrk n (fuel - (todo.length + 1)) s) := by
  obtain ⟨fuel, rfl⟩ : ∃ f, fuel = f + 1 := ⟨fuel - 1, by omega⟩
  induction todo generalizing prevp fuel with
  | nil =>
    have hnext : s.ptr prevp = s.freep := h
    rw [hnext, mallocLoop, get_bind]
    by_cases hfit : n ≤ s.size s.freep
    · grind
    · refine .inr ⟨fun x hx => ?_, ?_⟩
      · rw [List.mem_singleton.1 hx]
        omega
      · rw [if_neg hfit, if_pos rfl]
        rfl
  | cons z todo ih =>
    have hnext : s.ptr prevp = z := h.1
    obtain ⟨hz, hno'⟩ := not_or.1 (mt List.mem_cons.2 hno)
    rw [List.length_cons] at hfuel
    obtain ⟨fuel, rfl⟩ : ∃ f, fuel = f + 1 := ⟨fuel - 1, by omega⟩
    rw [hnext, mallocLoop, get_bind]
    by_cases hfit : n ≤ s.size z
    · grind
    · rw [if_neg hfit, if_neg (Ne.symm hz)]
      rcases ih h.2 hno' fuel (by omega) with ⟨y, x, hy, hx, hyx, hle, heq⟩ | ⟨hall, heq⟩
      · exact .inl ⟨y, x, List.mem_cons_of_mem _ hy, List.mem_cons_of_mem _ hx, hyx, hle, heq⟩
      · refine .inr ⟨fun x hx => ?_, ?_⟩
        · grind
        · simp only [heq, List.length_cons, Nat.add_sub_add_right]

/-- The ring, entered at `freep`. -/
theorem Sound.enter (h : Sound base L s frees used) :
    ∃ todo, Linked s.ptr s.freep todo s.freep ∧ s.freep ∉ todo ∧ todo.length = frees.length ∧
      ∀ x, x ∈ todo ++ [s.freep] ↔ x ∈ base :: frees.map Block.addr := by
  have hring := h.holds.ring
  have hdis : (base :: frees.map Block.addr).Nodup :=
    (h.spaced.addrs_sorted h.above).imp Nat.ne_of_lt
  rcases List.mem_cons.1 h.holds.freep with heq | hmem
  · grind
  · obtain ⟨m1, m2, heq⟩ := List.append_of_mem hmem
    have hlen : m1.length + (m2.length + 1) = frees.length := by
      rw [← List.length_cons (a := s.freep), ← List.length_append, ← heq, List.length_map]
    rw [heq] at hring hdis ⊢
    refine ⟨m2 ++ base :: m1, hring.rotate, ?_, ?_, fun x => ?_⟩
    · grind
    · grind
    · simp only [List.mem_append, List.mem_cons, List.not_mem_nil, or_false]
      tauto

theorem Sound.round (sbrk : Nat → ε → Option Nat × ε) (h : Sound base L s frees used) (hn : 0 < n)
    (hfuel : frees.length < fuel) :
    (∃ c ∈ frees, ∃ s' frees', n ≤ s.size c.addr ∧
      mallocLoop sbrk n fuel s.freep (s.ptr s.freep) s =
        .ok (hdr (piece c (8 * n)).addr 1, s') ∧ s'.os = s.os ∧ frees'.length ≤ frees.length ∧
      Sound base L s' frees' (piece c (8 * n) :: used)) ∨
    ((∀ c ∈ frees, s.size c.addr < n) ∧
      mallocLoop sbrk n fuel s.freep (s.ptr s.freep) s =
        retry sbrk n (fuel - (frees.length + 1)) s) := by
  obtain ⟨todo, hlink, hno, hlen, hmem⟩ := h.enter
  rw [← hlen] at hfuel ⊢
  rcases mallocLoop_round sbrk (n := n) hlink hno hfuel with
    ⟨y, x, hy, hx, hyx, hle, heq⟩ | ⟨hall, heq⟩
  · left
    have hy' : y ∈ base :: frees.map Block.addr := by grind
    -- `base` has size 0, so the block found is not `base`
    rcases List.mem_cons.1 ((hmem x).1 hx) with rfl | hx'
    · have := h.holds.anchor
      omega
    · obtain ⟨c, hc, rfl⟩ := List.mem_map.1 hx'
      obtain ⟨s', frees', hrun, hos, hlen', hsound⟩ := takeFrom_sound h hy' hc hyx hn hle
      exact ⟨c, hc, s', frees', hle, heq.trans hrun, hos, hlen ▸ hlen', hsound⟩
  · grind

/-- `malloc` returned `r`: the null pointer, or a new block of `n` units. -/
def Served (base : Nat) (L : Ledger ε) (n : Nat) (used : List Block) (r : Nat)
    (s' : Arena ε) : Prop :=
  (r = 0 ∧ ∃ frees', Sound base L s' frees' used) ∨
    ∃ b frees', b.len = 8 * n ∧ r = b.addr + 8 ∧ Sound base L s' frees' (b :: used)

theorem Sound.pointer (h : Sound base L s frees used) (hb : b ∈ used) :
    hdr b.addr 1 = b.addr + 8 := by
  have hsize := h.size b hb
  have hpos := h.pos b hb
  have hhigh := (h.bounds (List.mem_append_right _ hb)).2
  simp only [Block.stop] at hhigh
  exact Nat.mod_eq_of_lt (by omega)

theorem served_piece {s' : Arena ε} {frees' : List Block}
    (h : Sound base L s' frees' (piece c (8 * n) :: used)) :
    Served base L n used (hdr (piece c (8 * n)).addr 1) s' :=
  .inr ⟨_, frees', rfl, h.pointer List.mem_cons_self, h⟩

/-- The region that `sbrk` gives becomes a block in use, which `free` then adds to the ring. -/
theorem Sound.grown (h : Sound base L s frees used) (hg : Grows base sbrk L)
    {nu a : Nat} (hnu : 0 < nu) (hmax : nu * 8 < 2 ^ 31) (ha : (sbrk (nu * 8) s.os).1 = some a) :
    Sound base L ({ s with os := (sbrk (nu * 8) s.os).2 }.setSize a nu) frees
      (⟨a, nu * 8⟩ :: used) := by
  obtain ⟨hreg, hlow, hhigh, hold⟩ := hg.gives _ _ _ h.sys (by omega) hmax ha
  -- every block of the heap ends below the new region
  have hbelow : ∀ c ∈ frees ++ used, c.stop ≤ a := by
    intro c hc
    have hpos := h.len_pos hc
    obtain ⟨r, hr, -, hlt⟩ := (h.cover (c.addr + c.len - 1)).1
      ⟨c, hc, by omega, by simp only [Block.stop]; omega⟩
    have hle := hold r hr
    simp only [Block.stop] at hle hlt ⊢
    omega
  have hne : ∀ c ∈ frees ++ used, c.addr ≠ a := by
    intro c hc heq
    have hle := hbelow c hc
    have hpos := h.len_pos hc
    simp only [Block.stop] at hle
    omega
  have hsame : ∀ x, x ≠ a → update s.size a nu x = s.size x :=
    fun x hx => update_of_ne hx _ _
  refine ⟨⟨h.holds.ring, fun c hc => ?_, ?_, h.holds.freep⟩, h.spaced, fun b hb => ?_,
    fun b hb => ?_, fun b hb c hc => ?_, List.pairwise_cons.2 ⟨fun c hc => ?_, h.disjoint⟩,
    fun x => ?_, fun r hr => ?_, hg.keeps _ _ h.sys (by omega) hmax⟩
  · exact (congrArg (8 * ·) (hsame _ (hne c (List.mem_append_left _ hc)))).trans (h.holds.size c hc)
  · exact (hsame _ (by omega)).trans h.holds.anchor
  · rcases List.mem_cons.1 hb with rfl | hb
    · exact (congrArg (8 * ·) (update_self _ _ _)).trans (Nat.mul_comm _ _)
    · exact (congrArg (8 * ·) (hsame _ (hne b (List.mem_append_right _ hb)))).trans (h.size b hb)
  · rcases List.mem_cons.1 hb with rfl | hb
    · exact Nat.mul_pos hnu (by decide)
    · exact h.pos b hb
  · rcases List.mem_cons.1 hb with rfl | hb
    · exact .inr (hbelow c (List.mem_append_left _ hc))
    · exact h.apart b hb c hc
  · exact .inr (hbelow c (List.mem_append_right _ hc))
  · have hcover := h.cover x
    simp only [Arena.setSize, hreg, covers_append, covers_cons] at hcover ⊢
    rw [← hcover]
    tauto
  · simp only [Arena.setSize, hreg] at hr
    rcases List.mem_cons.1 hr with rfl | hr
    · exact ⟨hlow, hhigh⟩
    · exact h.inside r hr

/-- `morecore` gets nothing and changes nothing, or leaves a block that is large enough in the
    ring. -/
theorem morecore_sound (h : Sound base L s frees used) (hg : Grows base sbrk L)
    (hn : 0 < n) (hmax : n < 2 ^ 28) (hfuel : frees.length + 1 < fuel) :
    ∃ s', (morecore sbrk fuel n s = .ok (none, s') ∧ Sound base L s' frees used) ∨
      ∃ frees', morecore sbrk fuel n s = .ok (some s'.freep, s') ∧
        Sound base L s' frees' used ∧ frees'.length ≤ frees.length + 1 ∧
        ∃ c ∈ frees', n ≤ s'.size c.addr := by
  obtain ⟨nu, hnu⟩ : ∃ nu, nu = if n < 4096 then 4096 else n := ⟨_, rfl⟩
  have hle : n ≤ nu ∧ nu < 2 ^ 28 := by
    rw [hnu]
    split <;> omega
  have hbytes : nu * 8 % 2 ^ 32 = nu * 8 := Nat.mod_eq_of_lt (by omega)
  have hmore : morecore sbrk fuel n s =
      (match (sbrk (nu * 8) s.os).1 with
        | none => pure none
        | some hp => do
          modify fun s => s.setSize hp nu
          free fuel (hdr hp 1)
          let s ← get
          pure (some s.freep) : U ε (Option Nat)) { s with os := (sbrk (nu * 8) s.os).2 } := by
    simp only [morecore, ← hnu, hbytes]
    rfl
  cases ha : (sbrk (nu * 8) s.os).1 with
  | none =>
    have hreg := hg.fails _ _ h.sys (by omega) (by omega) ha
    refine ⟨{ s with os := (sbrk (nu * 8) s.os).2 }, .inl ⟨?_, ⟨h.holds.ring, h.holds.size,
      h.holds.anchor, h.holds.freep⟩, h.spaced, h.size, h.pos, h.apart, h.disjoint, ?_, ?_,
      hg.keeps _ _ h.sys (by omega) (by omega)⟩⟩
    · rw [hmore, ha]
      rfl
    · rw [hreg]
      exact h.cover
    · rw [hreg]
      exact h.inside
  | some a =>
    obtain ⟨s', hfree, hs'⟩ :=
      free_sound (h.grown hg (by omega) (by omega) ha) (List.Perm.refl _) hfuel
    refine ⟨s', .inr ⟨_, ?_, hs', length_release_le _ _, ?_⟩⟩
    · rw [hmore, ha]
      exact (bind_of_ok (a := ()) rfl).trans (bind_of_ok hfree)
    · obtain ⟨c, hc, hlen⟩ := exists_mem_release ⟨a, nu * 8⟩ frees
      have hsize := hs'.holds.size c hc
      refine ⟨c, hc, ?_⟩
      simp only at hlen
      omega

theorem retry_sound (h : Sound base L s frees used) (hg : Grows base sbrk L)
    (hn : 0 < n) (hmax : n < 2 ^ 28) (hfuel : frees.length + 1 < fuel) :
    ∃ r s', retry sbrk n fuel s = .ok (r, s') ∧ Served base L n used r s' := by
  obtain ⟨s1, ⟨hmore, hs1⟩ | ⟨frees1, hmore, hs1, hlen, c, hc, hfit⟩⟩ :=
    morecore_sound h hg hn hmax hfuel
  · exact ⟨0, s1, bind_of_ok hmore, .inl ⟨rfl, frees, hs1⟩⟩
  · rcases hs1.round sbrk hn (Nat.lt_of_le_of_lt hlen hfuel) with
      ⟨d, -, s', frees', -, hrun, -, -, hsound⟩ | ⟨hall, -⟩
    · exact ⟨_, s', (bind_of_ok hmore).trans hrun, served_piece hsound⟩
    · exact absurd hfit (Nat.not_le.2 (hall c hc))

theorem unitsFor_pos (nbytes : Nat) : 0 < unitsFor nbytes := Nat.succ_pos _

theorem unitsFor_bytes {nbytes : Nat} (h : nbytes ≤ 2 ^ 31 - 16) :
    unitsFor nbytes < 2 ^ 28 ∧ nbytes + 8 ≤ 8 * unitsFor nbytes := by
  have hmod : (nbytes + 8 - 1) % 2 ^ 32 = nbytes + 8 - 1 := Nat.mod_eq_of_lt (by omega)
  rw [unitsFor, hmod]
  omega

/-- `malloc` when there is a ring. -/
theorem malloc_sound (h : Sound base L s frees used) (hg : Grows base sbrk L)
    (hbase : 0 < base) {nbytes : Nat} (hmax : unitsFor nbytes < 2 ^ 28)
    (hfuel : 2 * frees.length + 2 < fuel) :
    ∃ r s', malloc sbrk base fuel nbytes s = .ok (r, s') ∧
      Served base L (unitsFor nbytes) used r s' := by
  have hfreep : s.freep ≠ 0 := by
    rcases List.mem_cons.1 h.holds.freep with heq | hmem
    · omega
    · obtain ⟨c, hc, heq⟩ := List.mem_map.1 hmem
      have := h.above c hc
      omega
  have henter : malloc sbrk base fuel nbytes s =
      mallocLoop sbrk (unitsFor nbytes) fuel s.freep (s.ptr s.freep) s := by
    rw [malloc, modify_bind, if_neg hfreep, get_bind]
  rw [henter]
  have hround : frees.length < fuel := by omega
  rcases h.round sbrk (unitsFor_pos nbytes) hround with
    ⟨c, -, s', frees', -, hrun, -, -, hsound⟩ | ⟨-, hrun⟩
  · exact ⟨_, s', hrun, served_piece hsound⟩
  · rw [hrun]
    exact retry_sound h hg (unitsFor_pos nbytes) hmax (by omega)

end

end CowPaging.Umalloc
