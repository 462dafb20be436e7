import CowPaging.Flat
import CowPaging.Malloc

/-!
# A program and its heap

A program that calls `malloc` and `free` in any order, frees only what it has, and stores
into the bytes it asked for. In every state it reaches, the heap is sound and every call it
may make returns. With the `sbrk` of the kernel, the blocks lie in the memory of the process,
as long as no request is so large that its size wraps.
-/

namespace CowPaging.Umalloc

open StateExcept Blocks LinkedList

section

variable {ε : Type} {s s' : Arena ε} {base bp p fuel fuel' n : Nat}
  {sbrk : Nat → ε → Option Nat × ε}

/-! ### The bounds do not matter to a call that returns -/

theorem freeSearch_mono {x : Nat × Arena ε} (h : freeSearch bp fuel p s = .ok x)
    (hle : fuel ≤ fuel') : freeSearch bp fuel' p s = .ok x := by
  induction fuel generalizing p fuel' with
  | zero => cases h
  | succ fuel ih =>
    obtain ⟨k, rfl⟩ : ∃ k, fuel' = k + 1 := ⟨fuel' - 1, by omega⟩
    rw [freeSearch, get_bind] at h ⊢
    split at h
    · rename_i hin
      rw [if_pos hin, h]
    · rename_i hin
      rw [if_neg hin]
      split at h
      · rename_i hwrap
        rw [if_pos hwrap, h]
      · rename_i hwrap
        rw [if_neg hwrap]
        exact ih h (by omega)

theorem free_mono {ap : Nat} (h : free fuel ap s = .ok ((), s')) (hle : fuel ≤ fuel') :
    free fuel' ap s = .ok ((), s') := by
  rw [free, get_bind] at h ⊢
  obtain ⟨p, s1, hsearch, hrest⟩ := bind_eq_ok h
  exact (bind_of_ok (freeSearch_mono hsearch hle)).trans hrest

theorem morecore_mono {r : Option Nat} (h : morecore sbrk fuel n s = .ok (r, s'))
    (hle : fuel ≤ fuel') : morecore sbrk fuel' n s = .ok (r, s') := by
  simp only [morecore, get_bind] at h ⊢
  obtain ⟨u, s1, hset, h⟩ := bind_eq_ok h
  refine (bind_of_ok hset).trans ?_
  cases hr : (sbrk ((if n < 4096 then 4096 else n) * 8 % 2 ^ 32) s.os).1 with
  | none =>
    rw [hr] at h
    exact h
  | some hp =>
    rw [hr] at h
    dsimp only at h ⊢
    rw [modify_bind] at h ⊢
    obtain ⟨u, s2, hfree, h⟩ := bind_eq_ok h
    exact (bind_of_ok (free_mono hfree hle)).trans h

theorem mallocLoop_mono {prevp r : Nat} (h : mallocLoop sbrk n fuel prevp p s = .ok (r, s'))
    (hle : fuel ≤ fuel') : mallocLoop sbrk n fuel' prevp p s = .ok (r, s') := by
  induction fuel generalizing prevp p s fuel' with
  | zero => cases h
  | succ fuel ih =>
    obtain ⟨k, rfl⟩ : ∃ k, fuel' = k + 1 := ⟨fuel' - 1, by omega⟩
    have hk : fuel ≤ k := by omega
    rw [mallocLoop, get_bind] at h ⊢
    by_cases hfit : s.size p ≥ n
    · rw [if_pos hfit] at h ⊢
      exact h
    rw [if_neg hfit] at h ⊢
    by_cases hback : p = s.freep
    · rw [if_pos hback] at h ⊢
      obtain ⟨q, s1, hmore, h⟩ := bind_eq_ok h
      refine (bind_of_ok (morecore_mono hmore hk)).trans ?_
      cases q with
      | none => exact h
      | some q => exact ih h hk
    · grind

theorem malloc_mono {r : Nat} (h : malloc sbrk base fuel n s = .ok (r, s')) (hle : fuel ≤ fuel') :
    malloc sbrk base fuel' n s = .ok (r, s') := by
  rw [malloc, modify_bind, get_bind] at h ⊢
  exact mallocLoop_mono h hle

end

/-! ### Calls of a program -/

section

variable {ε : Type}

/-- A program's memory, and the pointers it got and did not give back, each with the number
    of bytes it asked for. -/
structure Session (ε : Type) where
  arena : Arena ε
  live : List (Nat × Nat)

inductive Call where
  | malloc (nbytes : Nat)
  | free (ap : Nat)
deriving DecidableEq, Repr

variable (sbrk : Nat → ε → Option Nat × ε) (base : Nat)

/-- The value returned, and the program after the call; `free` returns nothing. -/
def Session.call (fuel : Nat) (σ : Session ε) : Call → Except Stop (Nat × Session ε)
  | .malloc nbytes => do
    let (q, s) ← malloc sbrk base fuel nbytes σ.arena
    pure (q, ⟨s, if q = 0 then σ.live else (q, nbytes) :: σ.live⟩)
  | .free ap => do
    let (_, s) ← free fuel ap σ.arena
    pure (0, ⟨s, σ.live.eraseP fun e => e.1 = ap⟩)

/-- The call returns `r`, given enough steps. -/
def Session.Returns (σ : Session ε) (c : Call) (r : Nat) (σ' : Session ε) : Prop :=
  ∃ N, ∀ fuel ≥ N, σ.call sbrk base fuel c = .ok (r, σ')

/-- A program frees what it has, and asks for sizes in `fits`. -/
def Session.Legal (fits : Nat → Prop) (σ : Session ε) : Call → Prop
  | .malloc nbytes => fits nbytes
  | .free ap => ∃ nbytes, (ap, nbytes) ∈ σ.live

/-- A program stores into the bytes it asked for: a header that has none of them is as before. -/
structure Session.Stores (σ σ' : Session ε) : Prop where
  live : σ'.live = σ.live
  freep : σ'.arena.freep = σ.arena.freep
  os : σ'.arena.os = σ.arena.os
  header : ∀ x, (∀ e ∈ σ.live, x + 8 ≤ e.1 ∨ e.1 + e.2 ≤ x) →
    σ'.arena.ptr x = σ.arena.ptr x ∧ σ'.arena.size x = σ.arena.size x

/-- The states of a program that starts with `freep` null and nothing allocated. -/
inductive Session.Reach (L : Ledger ε) (fits : Nat → Prop) : Session ε → Prop where
  | start {s : Arena ε} : s.freep = 0 → L.regions s.os = [] → L.ok s.os → Reach L fits ⟨s, []⟩
  | call {σ σ' : Session ε} {c : Call} {r : Nat} : Reach L fits σ → σ.Legal fits c →
      σ.Returns sbrk base c r σ' → Reach L fits σ'
  | store {σ σ' : Session ε} : Reach L fits σ → σ.Stores σ' → Reach L fits σ'

end

section

variable {ε : Type} {sbrk : Nat → ε → Option Nat × ε} {base : Nat} {L : Ledger ε}
  {fits : Nat → Prop} {σ σ' : Session ε} {s : Arena ε} {frees used : List Block} {fuel : Nat}

/-- The block behind a pointer that `malloc` returned. -/
def blockOf (e : Nat × Nat) : Block := ⟨e.1 - 8, 8 * unitsFor e.2⟩

/-- Nothing was allocated yet, or the heap is sound with the blocks behind the live pointers. -/
structure Session.Safe (base : Nat) (L : Ledger ε) (σ : Session ε) : Prop where
  heap : (σ.arena.freep = 0 ∧ σ.live = [] ∧ L.regions σ.arena.os = [] ∧ L.ok σ.arena.os) ∨
    ∃ frees, Sound base L σ.arena frees (σ.live.map blockOf)
  usable : ∀ e ∈ σ.live, e.1 = (blockOf e).addr + 8 ∧ e.1 + e.2 ≤ (blockOf e).stop

/-- The first lines of `malloc` when `freep` is null. -/
def fresh (base : Nat) (s : Arena ε) : Arena ε :=
  { (s.setPtr base base).setSize base 0 with freep := base }

theorem sound_fresh (hreg : L.regions s.os = []) (hok : L.ok s.os) :
    Sound base L (fresh base s) [] [] where
  holds := ⟨Function.update_self _ _ _, List.forall_mem_nil _, Function.update_self _ _ _,
    List.mem_cons_self⟩
  spaced := ⟨List.Pairwise.nil, List.forall_mem_nil _⟩
  size := List.forall_mem_nil _
  pos := List.forall_mem_nil _
  apart := List.forall_mem_nil _
  disjoint := List.Pairwise.nil
  cover x := by
    have hos : L.regions (fresh base s).os = [] := hreg
    rw [hos]
    rfl
  inside := by
    have hos : L.regions (fresh base s).os = [] := hreg
    rw [hos]
    exact List.forall_mem_nil _
  sys := hok

/-- A null `freep` is as a ring without blocks. -/
theorem malloc_fresh (hbase : 0 < base) (h : s.freep = 0) (fuel nbytes : Nat) :
    malloc sbrk base fuel nbytes s = malloc sbrk base fuel nbytes (fresh base s) := by
  have hset : (fresh base s).freep ≠ 0 := Nat.ne_of_gt hbase
  rw [malloc, modify_bind, modify_bind, if_pos h, if_neg hset]
  rfl

theorem Session.Safe.enter (sbrk : Nat → ε → Option Nat × ε) (h : σ.Safe base L)
    (hbase : 0 < base) :
    ∃ s0 frees, Sound base L s0 frees (σ.live.map blockOf) ∧ s0.os = σ.arena.os ∧
      ∀ fuel nbytes,
        malloc sbrk base fuel nbytes σ.arena = malloc sbrk base fuel nbytes s0 := by
  rcases h.heap with ⟨hfreep, hlive, hreg, hok⟩ | ⟨frees, hsound⟩
  · refine ⟨fresh base σ.arena, [], ?_, rfl, malloc_fresh hbase hfreep⟩
    rw [hlive]
    exact sound_fresh hreg hok
  · exact ⟨σ.arena, frees, hsound, rfl, fun _ _ => rfl⟩

/-- `malloc` of a size that does not wrap returns, and the heap is sound. -/
theorem Session.Safe.malloc {nbytes : Nat} (h : σ.Safe base L) (hbase : 0 < base)
    (hg : Grows base sbrk L) (hmax : nbytes ≤ 2 ^ 31 - 16) :
    ∃ r σ', σ.Returns sbrk base (.malloc nbytes) r σ' ∧ σ'.Safe base L := by
  obtain ⟨hunits, hbytes⟩ := unitsFor_bytes hmax
  obtain ⟨s0, frees, hsound, -, henter⟩ := h.enter sbrk hbase
  obtain ⟨r, s', hrun, hserved⟩ := malloc_sound hsound hg hbase hunits (Nat.lt_succ_self _)
  refine ⟨r, ⟨s', if r = 0 then σ.live else (r, nbytes) :: σ.live⟩, ⟨2 * frees.length + 3, ?_⟩, ?_⟩
  · intro fuel hfuel
    have hrun' := (henter fuel nbytes).trans (malloc_mono hrun hfuel)
    simp only [Session.call, hrun']
    rfl
  · rcases hserved with ⟨hnull, frees', hs'⟩ | ⟨b, frees', hlen, hr, hs'⟩
    · rw [if_pos hnull]
      exact ⟨.inr ⟨frees', hs'⟩, h.usable⟩
    · have hblock : blockOf (r, nbytes) = b := by
        simp only [blockOf, ← hlen, hr, Nat.add_sub_cancel]
      rw [if_neg (by omega)]
      refine ⟨.inr ⟨frees', ?_⟩, fun e he => ?_⟩
      · rw [List.map_cons, hblock]
        exact hs'
      · grind [h.usable, Block.stop]

/-- `free` of a live pointer returns, and the heap is sound without the block. -/
theorem Session.Safe.free {ap nbytes : Nat} (h : σ.Safe base L) (hmem : (ap, nbytes) ∈ σ.live) :
    ∃ r σ', σ.Returns sbrk base (.free ap) r σ' ∧ σ'.Safe base L := by
  obtain ⟨e, l1, l2, -, heq, hlive, herase⟩ :=
    List.exists_of_eraseP (p := fun e => decide (e.1 = ap)) hmem (decide_eq_true rfl)
  have hap : e.1 = ap := of_decide_eq_true heq
  have he : e ∈ σ.live := hlive ▸ List.mem_append_right _ List.mem_cons_self
  have hsub : ∀ x ∈ l1 ++ l2, x ∈ σ.live := by
    intro x hx
    rw [hlive]
    rcases List.mem_append.1 hx with hx | hx
    · exact List.mem_append_left _ hx
    · exact List.mem_append_right _ (List.mem_cons_of_mem _ hx)
  rcases h.heap with ⟨-, hnil, -⟩ | ⟨frees, hsound⟩
  · rw [hnil] at hmem
    cases hmem
  · have hperm : (σ.live.map blockOf).Perm (blockOf e :: (l1 ++ l2).map blockOf) := by
      rw [hlive, ← List.map_cons]
      exact List.perm_middle.map _
    obtain ⟨s', hrun, hs'⟩ := free_sound hsound hperm (Nat.lt_succ_self _)
    have hptr : hdr (blockOf e).addr 1 = ap := by
      rw [hsound.pointer (List.mem_map_of_mem he), ← (h.usable e he).1, hap]
    rw [hptr] at hrun
    refine ⟨0, ⟨s', l1 ++ l2⟩, ⟨frees.length + 2, fun fuel hfuel => ?_⟩, .inr ⟨_, hs'⟩,
      fun x hx => h.usable x (hsub x hx)⟩
    simp only [Session.call, free_mono hrun hfuel, ← herase]
    rfl

theorem Session.Safe.store (h : σ.Safe base L) (hst : σ.Stores σ') : σ'.Safe base L := by
  refine ⟨?_, fun e he => h.usable e (hst.live ▸ he)⟩
  rw [hst.live, hst.os, hst.freep]
  refine h.heap.imp id fun ⟨frees, hs⟩ => ⟨frees, ?_⟩
  -- the bytes of a live pointer are in its block, after the header
  have hin : ∀ e ∈ σ.live, 8 ≤ (blockOf e).len ∧ (blockOf e).addr + 8 = e.1 ∧
      e.1 + e.2 ≤ (blockOf e).stop := by
    intro e he
    have hu := h.usable e he
    refine ⟨?_, hu.1.symm, hu.2⟩
    simp only [blockOf, unitsFor]
    omega
  have hbase : ∀ e ∈ σ.live, base + 8 ≤ e.1 ∨ e.1 + e.2 ≤ base := by
    intro e he
    have hb := (hs.bounds (List.mem_append_right _ (List.mem_map_of_mem he))).1
    have := hin e he
    omega
  have hfree : ∀ c ∈ frees, ∀ e ∈ σ.live, c.addr + 8 ≤ e.1 ∨ e.1 + e.2 ≤ c.addr := by
    intro c hc e he
    have hap := hs.apart _ (List.mem_map_of_mem he) c hc
    have hlen := hs.holds.size c hc
    have hpos := hs.spaced.pos c hc
    have := hin e he
    simp only [Block.Apart, Block.stop] at hap this
    omega
  have hused : ∀ b ∈ σ.live.map blockOf, ∀ e ∈ σ.live, b.addr + 8 ≤ e.1 ∨ e.1 + e.2 ≤ b.addr := by
    intro b hb e he
    obtain ⟨e', he', rfl⟩ := List.mem_map.1 hb
    have h1 := hin e he
    have h2 := hin e' he'
    by_cases heq : e = e'
    · subst heq
      omega
    · have : Std.Symm fun a b => (blockOf a).Apart (blockOf b) := ⟨fun _ _ => Block.Apart.symm⟩
      have hap := (List.pairwise_map.1 hs.disjoint).forall he he' heq
      simp only [Block.Apart, Block.stop] at hap h1 h2
      omega
  have hsame := hst.header
  refine ⟨⟨?_, fun c hc => ?_, ?_, ?_⟩, hs.spaced, fun b hb => ?_, hs.pos, hs.apart, hs.disjoint,
    hst.os ▸ hs.cover, hst.os ▸ hs.inside, hst.os ▸ hs.sys⟩
  · refine hs.holds.ring.restart (hsame base hbase).1 fun x hx => ?_
    obtain ⟨c, hc, rfl⟩ := List.mem_map.1 hx
    exact (hsame c.addr (hfree c hc)).1
  · rw [(hsame c.addr (hfree c hc)).2]
    exact hs.holds.size c hc
  · rw [(hsame base hbase).2]
    exact hs.holds.anchor
  · rw [hst.freep]
    exact hs.holds.freep
  · rw [(hsame b.addr (hused b hb)).2]
    exact hs.size b hb

theorem Session.Returns.unique {c : Call} {r r' : Nat} {σ1 σ2 : Session ε}
    (h1 : σ.Returns sbrk base c r σ1) (h2 : σ.Returns sbrk base c r' σ2) : r = r' ∧ σ1 = σ2 := by
  obtain ⟨N1, h1⟩ := h1
  obtain ⟨N2, h2⟩ := h2
  have heq := (h1 (N1 + N2) (by omega)).symm.trans (h2 (N1 + N2) (by omega))
  injection heq with heq
  exact ⟨congrArg Prod.fst heq, congrArg Prod.snd heq⟩

theorem Session.Safe.call {c : Call} (h : σ.Safe base L) (hbase : 0 < base)
    (hg : Grows base sbrk L) (hfits : ∀ n, fits n → n ≤ 2 ^ 31 - 16) (hc : σ.Legal fits c) :
    ∃ r σ', σ.Returns sbrk base c r σ' ∧ σ'.Safe base L := by
  cases c with
  | malloc nbytes => exact h.malloc hbase hg (hfits nbytes hc)
  | free ap =>
    obtain ⟨nbytes, hmem⟩ := hc
    exact h.free hmem

theorem Session.Reach.safe (h : Session.Reach sbrk base L fits σ) (hbase : 0 < base)
    (hg : Grows base sbrk L) (hfits : ∀ n, fits n → n ≤ 2 ^ 31 - 16) : σ.Safe base L := by
  induction h with
  | start hfreep hreg hok => exact ⟨.inl ⟨hfreep, rfl, hreg, hok⟩, List.forall_mem_nil _⟩
  | call _ hlegal hret ih =>
    obtain ⟨r, σ1, hret', hsafe⟩ := ih.call hbase hg hfits hlegal
    rw [(hret.unique hret').2]
    exact hsafe
  | store _ hst ih => exact ih.store hst

/-- The live pointers after `malloc`. -/
theorem Session.Returns.live {nbytes r : Nat} (h : σ.Returns sbrk base (.malloc nbytes) r σ') :
    σ'.live = if r = 0 then σ.live else (r, nbytes) :: σ.live := by
  obtain ⟨N, hN⟩ := h
  have hcall := hN N (Nat.le_refl _)
  simp only [Session.call] at hcall
  cases hrun : Umalloc.malloc sbrk base N nbytes σ.arena with
  | error x =>
    rw [hrun] at hcall
    cases hcall
  | ok x =>
    rw [hrun] at hcall
    cases hcall
    rfl

theorem Session.returns_of_call {c : Call} {r : Nat} (h : σ.call sbrk base fuel c = .ok (r, σ')) :
    σ.Returns sbrk base c r σ' := by
  refine ⟨fuel, fun fuel' hle => ?_⟩
  cases c with
  | malloc nbytes =>
    simp only [Session.call] at h ⊢
    cases hrun : Umalloc.malloc sbrk base fuel nbytes σ.arena with
    | error x =>
      rw [hrun] at h
      cases h
    | ok x =>
      rw [malloc_mono hrun hle, ← h, hrun]
  | free ap =>
    simp only [Session.call] at h ⊢
    cases hrun : Umalloc.free fuel ap σ.arena with
    | error x =>
      rw [hrun] at h
      cases h
    | ok x =>
      rw [free_mono hrun hle, ← h, hrun]

end

/-! ### The kernel behind `sbrk` -/

/-- A process as `sbrk` sees it: its memory, and the regions the allocator got. -/
structure Break where
  memory : Memory
  given : List Block

section

variable {base z n : Nat} {e : Break}

/-- `sys_sbrk`, which reads its argument as an `int`; the memory after `growproc` is
    `Memory.sbrk`. -/
def sysSbrk (n : Nat) (e : Break) : Option Nat × Break :=
  let r := e.memory.sbrk (if n < 2 ^ 31 then n else (n : Int) - 2 ^ 32)
  if r.1 < 0 then (none, { e with memory := r.2 })
  else (some e.memory.sz, ⟨r.2, ⟨e.memory.sz, n⟩ :: e.given⟩)

/-- The process has at least `z` bytes, `base` and all regions among them. -/
def processLedger (base z : Nat) : Ledger Break where
  regions e := e.given
  ok e := base + 8 ≤ e.memory.sz ∧ z ≤ e.memory.sz ∧ e.memory.sz < KERNBASE ∧
    ∀ r ∈ e.given, r.stop ≤ e.memory.sz

theorem sysSbrk_pos (hsz : 0 < e.memory.sz ∧ e.memory.sz < KERNBASE) (hn : 0 < n)
    (hmax : n < 2 ^ 31) :
    sysSbrk n e = (none, e) ∨
      e.memory.sz + n < KERNBASE ∧ sysSbrk n e =
        (some e.memory.sz, ⟨e.memory.grow (e.memory.sz + n), ⟨e.memory.sz, n⟩ :: e.given⟩) := by
  have hadd : addSigned e.memory.sz n = e.memory.sz + n := by
    have hlt := hsz.2
    simp only [KERNBASE] at hlt
    have hmod : ((e.memory.sz : Int) + n).emod (2 ^ 32) = e.memory.sz + n :=
      Int.emod_eq_of_lt (by omega) (by omega)
    rw [addSigned, hmod]
    omega
  have hint : (0 : Int) < n := by omega
  simp only [sysSbrk, if_pos hmax, Memory.sbrk, if_pos hint, hadd, Memory.alloc]
  by_cases hbig : KERNBASE ≤ e.memory.sz + n
  · rw [if_pos hbig]
    exact .inl rfl
  · grind

theorem grows_sysSbrk : Grows base sysSbrk (processLedger base z) where
  keeps n e hok hn hmax := by
    obtain ⟨hlow, hz, hhigh, hbelow⟩ := hok
    rcases sysSbrk_pos ⟨by omega, hhigh⟩ hn hmax with heq | ⟨hlt, heq⟩
    · rw [heq]
      exact ⟨hlow, hz, hhigh, hbelow⟩
    · rw [heq]
      refine ⟨Nat.le_trans hlow (Nat.le_add_right _ _), Nat.le_trans hz (Nat.le_add_right _ _), hlt,
        fun r hr => ?_⟩
      rcases List.mem_cons.1 hr with rfl | hr
      · exact Nat.le_refl _
      · exact Nat.le_trans (hbelow r hr) (Nat.le_add_right _ _)
  fails n e hok hn hmax hnone := by
    obtain ⟨hlow, -, hhigh, -⟩ := hok
    rcases sysSbrk_pos ⟨by omega, hhigh⟩ hn hmax with heq | ⟨-, heq⟩
    · rw [heq]
    · rw [heq] at hnone
      cases hnone
  gives n e a hok hn hmax hsome := by
    obtain ⟨hlow, -, hhigh, hbelow⟩ := hok
    rcases sysSbrk_pos ⟨by omega, hhigh⟩ hn hmax with heq | ⟨hlt, heq⟩
    · rw [heq] at hsome
      cases hsome
    · rw [heq] at hsome ⊢
      cases hsome
      simp only [KERNBASE] at hlt
      exact ⟨rfl, hlow, by omega, hbelow⟩

end

/-! ### The results -/

section

variable {ε : Type} {sbrk : Nat → ε → Option Nat × ε} {base : Nat} {L : Ledger ε}
  {σ : Session ε}

/-- Whatever a program allocates, frees and stores: before the first `malloc` there is
    nothing; then the ring through `base` holds the free blocks by increasing address with
    gaps between them, they and the live blocks are apart and are all of what `sbrk` gave, a
    live pointer has the bytes asked for, and the next call returns. -/
theorem malloc_keeps_blocks_apart (hbase : 0 < base) (hg : Grows base sbrk L)
    (h : Session.Reach sbrk base L (· < 2 ^ 30) σ) :
    ((σ.arena.freep = 0 ∧ σ.live = [] ∧ L.regions σ.arena.os = []) ∨
      ∃ frees, Sound base L σ.arena frees (σ.live.map blockOf)) ∧
    (∀ e ∈ σ.live, e.1 = (blockOf e).addr + 8 ∧ e.1 + e.2 ≤ (blockOf e).stop) ∧
    ∀ c, σ.Legal (· < 2 ^ 30) c → ∃ r σ', σ.Returns sbrk base c r σ' := by
  have hfits : ∀ n, n < 2 ^ 30 → n ≤ 2 ^ 31 - 16 := fun n hn => by omega
  have hsafe := h.safe hbase hg hfits
  refine ⟨hsafe.heap.imp (fun hn => ⟨hn.1, hn.2.1, hn.2.2.1⟩) id, hsafe.usable, fun c hc => ?_⟩
  obtain ⟨r, σ', hret, -⟩ := hsafe.call hbase hg hfits hc
  exact ⟨r, σ', hret⟩

/-- A program that starts with three pages. -/
def startup : Session Break where
  arena := ⟨fun _ => 0, fun _ => 0, 0, ⟨Memory.empty.grow (3 * PGSIZE), []⟩⟩
  live := []

theorem startup_reach (fits : Nat → Prop) :
    startup.Reach sysSbrk 8 (processLedger 8 0) fits :=
  .start rfl rfl ⟨by decide, by decide, by decide, List.forall_mem_nil _⟩

theorem startup_call {nbytes r sz : Nat}
    (h : (startup.call sysSbrk 8 4 (.malloc nbytes)).toOption.map
      (fun x => (x.1, x.2.live, x.2.arena.os.memory.sz)) = some (r, [(r, nbytes)], sz)) :
    ∃ σ, startup.Returns sysSbrk 8 (.malloc nbytes) r σ ∧ σ.live = [(r, nbytes)] ∧
      σ.arena.os.memory.sz = sz := by
  obtain ⟨⟨r', σ⟩, hx, heq⟩ := Option.map_eq_some_iff.1 h
  simp only [Prod.mk.injEq] at heq
  obtain ⟨rfl, hlive, hsz⟩ := heq
  have hcall : startup.call sysSbrk 8 4 (.malloc nbytes) = .ok (r', σ) := by
    cases hc : startup.call sysSbrk 8 4 (.malloc nbytes) with
    | error e =>
      rw [hc] at hx
      cases hx
    | ok y =>
      rw [hc] at hx
      exact congrArg _ (Option.some.inj hx)
  exact ⟨σ, Session.returns_of_call hcall, hlive, hsz⟩

theorem malloc_keeps_blocks_apart_sample :
    ∃ σ : Session Break, σ.Reach sysSbrk 8 (processLedger 8 0) (· < 2 ^ 30) ∧
      σ.live = [(44952, 100)] ∧
      (∃ frees, Sound 8 (processLedger 8 0) σ.arena frees (σ.live.map blockOf)) ∧
      ∃ r σ', σ.Returns sysSbrk 8 (.free 44952) r σ' := by
  obtain ⟨σ, hret, hlive, -⟩ :=
    startup_call (show _ = some (44952, [(44952, 100)], 45056) by decide +kernel)
  have hlegal : startup.Legal (· < 2 ^ 30) (.malloc 100) := by
    show 100 < 2 ^ 30
    decide
  have hreach : σ.Reach sysSbrk 8 (processLedger 8 0) (· < 2 ^ 30) :=
    .call (startup_reach _) hlegal hret
  obtain ⟨hheap, -, hnext⟩ := malloc_keeps_blocks_apart (by decide) grows_sysSbrk hreach
  refine ⟨σ, hreach, hlive, hheap.resolve_left fun hnone => ?_, hnext _ ⟨100, ?_⟩⟩
  · grind
  · rw [hlive]
    exact List.mem_cons_self

end

section

variable {base z nbytes r : Nat} {σ σ' : Session Break} {frees used : List Block} {b : Block}
  {s : Arena Break}

theorem Sound.in_memory (h : Sound base (processLedger base z) s frees used) (hb : b ∈ used) :
    b.stop ≤ s.os.memory.sz := by
  have hpos := h.pos b hb
  obtain ⟨r, hr, -, hlt⟩ := (h.cover (b.addr + b.len - 1)).1
    ⟨b, List.mem_append_right _ hb, by omega, by simp only [Block.stop]; omega⟩
  have hle := h.sys.2.2.2 r hr
  simp only [Block.stop] at hlt hle ⊢
  omega

theorem Session.Safe.rebase (h : σ.Safe base (processLedger base z)) :
    σ.Safe base (processLedger base σ.arena.os.memory.sz) := by
  refine ⟨h.heap.imp ?_ ?_, h.usable⟩
  · rintro ⟨hfreep, hlive, hreg, hok⟩
    exact ⟨hfreep, hlive, hreg, hok.1, Nat.le_refl _, hok.2.2⟩
  · rintro ⟨frees, hs⟩
    exact ⟨frees, hs.holds, hs.spaced, hs.size, hs.pos, hs.apart, hs.disjoint, hs.cover, hs.inside,
      hs.sys.1, Nat.le_refl _, hs.sys.2.2⟩

/-- In a run whose requests are at most `2 ^ 31 - 16` bytes: `malloc` does not shrink the
    process, and the bytes it returns are memory of the process and in no other block. -/
theorem malloc_in_memory (hbase : 0 < base)
    (h : σ.Reach sysSbrk base (processLedger base z) (· ≤ 2 ^ 31 - 16))
    (hmax : nbytes ≤ 2 ^ 31 - 16) (hret : σ.Returns sysSbrk base (.malloc nbytes) r σ') :
    σ.arena.os.memory.sz ≤ σ'.arena.os.memory.sz ∧
    (r ≠ 0 → r + nbytes ≤ σ'.arena.os.memory.sz ∧
      ∀ e ∈ σ.live, r + nbytes ≤ (blockOf e).addr ∨ (blockOf e).stop ≤ r) := by
  have hfits : ∀ n, n ≤ 2 ^ 31 - 16 → n ≤ 2 ^ 31 - 16 := fun _ hn => hn
  have hsafe := (h.safe hbase grows_sysSbrk hfits).rebase
  obtain ⟨r', σ₁, hret', hsafe'⟩ := hsafe.malloc hbase grows_sysSbrk hmax
  obtain ⟨rfl, rfl⟩ := hret.unique hret'
  have hlive := hret.live
  refine ⟨?_, fun hr => ?_⟩
  · rcases hsafe'.heap with ⟨-, -, -, hok⟩ | ⟨frees, hs⟩
    · exact hok.2.1
    · exact hs.sys.2.1
  · rw [if_neg hr] at hlive
    rcases hsafe'.heap with ⟨-, hnil, -⟩ | ⟨frees, hs⟩
    · rw [hnil] at hlive
      cases hlive
    · have husable := hsafe'.usable (r, nbytes) (hlive ▸ List.mem_cons_self)
      rw [hlive, List.map_cons] at hs
      refine ⟨Nat.le_trans husable.2 (hs.in_memory List.mem_cons_self), fun e he => ?_⟩
      rcases (List.pairwise_cons.1 hs.disjoint).1 (blockOf e) (List.mem_map_of_mem he) with hap | hap
      · exact .inl (Nat.le_trans husable.2 hap)
      · grind

theorem malloc_in_memory_sample :
    ∃ σ, startup.Returns sysSbrk 8 (.malloc 100) 44952 σ ∧ 44952 + 100 ≤ σ.arena.os.memory.sz := by
  obtain ⟨σ, hret, -, -⟩ :=
    startup_call (show _ = some (44952, [(44952, 100)], 45056) by decide +kernel)
  have hmem := malloc_in_memory (by decide) (startup_reach _) (by decide) hret
  exact ⟨σ, hret, (hmem.2 (by decide)).1⟩

/-- A request of `2 ^ 32 - 1` bytes is served with the header alone, at the end of the memory;
    one of `2 ^ 32 - 8200` bytes takes two pages from the process. -/
theorem malloc_size_wraps :
    (∃ σ, startup.Returns sysSbrk 8 (.malloc (2 ^ 32 - 1)) 45056 σ ∧
      σ.arena.os.memory.sz = 45056) ∧
    ∃ σ, startup.Returns sysSbrk 8 (.malloc (2 ^ 32 - 8200)) 12296 σ ∧
      startup.arena.os.memory.sz = 12288 ∧ σ.arena.os.memory.sz = 4096 := by
  constructor
  · obtain ⟨σ, hret, -, hsz⟩ :=
      startup_call (show _ = some (45056, [(45056, 2 ^ 32 - 1)], 45056) by decide +kernel)
    exact ⟨σ, hret, hsz⟩
  · obtain ⟨σ, hret, -, hsz⟩ :=
      startup_call (show _ = some (12296, [(12296, 2 ^ 32 - 8200)], 4096) by decide +kernel)
    exact ⟨σ, hret, rfl, hsz⟩

end

end CowPaging.Umalloc
