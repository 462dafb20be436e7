import CowPaging.Calls

/-!
# The arguments of a new program

`exec` pushes the argument strings onto a stack page, the last page of the new memory, and
below them the words that `main` finds: a return address, `argc`, `argv` and the array that
`argv` points to. The page before the stack is closed to user code. No test compares the stack
pointer with the start of the page: a string that does not fit runs into the closed page, or
wraps around into the devices at the top of the address space, and `copyout` fails there.

All of this is about the memory of the reference machine; the pages a process sees are the
pages of that memory.
-/

namespace CowPaging

open Bytes StateExcept SlotTable

/-- The byte at address `va`. -/
def Memory.byte (m : Memory) (va : Nat) : Byte := m.page (va / PGSIZE) (va % PGSIZE)

/-- The `uint` at address `a`, where `rd` reads bytes. -/
def wordAt (rd : Nat → Byte) (a : Nat) : Nat := (ldw (fun i => rd (a + i)) 0).toNat

/-- The string `str` and its zero are at address `a`. -/
def HasString (rd : Nat → Byte) (a : Nat) (str : List Byte) : Prop :=
  ∀ k b, (str ++ [0])[k]? = some b → rd (a + k) = b

/-- What a string takes on the stack: its bytes and a zero, in whole words. -/
def argSize (arg : List Byte) : Nat := (arg.length + 4) / 4 * 4

def argsSize (argv : List (List Byte)) : Nat := (argv.map argSize).sum

/-- The address of string `i`, below the stack top `sp`. -/
def argAddr (sp : Nat) (argv : List (List Byte)) (i : Nat) : Nat := sp - argsSize (argv.take (i + 1))

/-- Strings and words go into one page. -/
def ArgsFitPage (argv : List (List Byte)) : Prop :=
  argv.length ≤ MAXARG ∧ argsSize argv + 4 * (argv.length + 4) ≤ PGSIZE

instance (argv : List (List Byte)) : Decidable (ArgsFitPage argv) :=
  inferInstanceAs (Decidable (_ ∧ _))

/-- The arguments as `main` finds them, with the stack pointer `esp`, between `lo` and
    `hi`. -/
structure Passed (rd : Nat → Byte) (lo hi esp : Nat) (argv : List (List Byte)) : Prop where
  argc : wordAt rd (esp + 4) = argv.length
  argvp : wordAt rd (esp + 8) = esp + 12
  pointers : ∀ i, i < argv.length → wordAt rd (esp + 12 + 4 * i) = argAddr hi argv i
  last : wordAt rd (esp + 12 + 4 * argv.length) = 0
  strings : ∀ i arg, argv[i]? = some arg → HasString rd (argAddr hi argv i) arg
  aligned : esp % 4 = 0 ∧ ∀ i, i < argv.length → argAddr hi argv i % 4 = 0
  bottom : lo ≤ esp
  words : esp + 16 + 4 * argv.length ≤ hi
  above : ∀ i, i < argv.length → esp + 16 + 4 * argv.length ≤ argAddr hi argv i
  apart : ∀ i j arg, i < j → argv[j]? = some arg →
    argAddr hi argv j + (arg.length + 1) ≤ argAddr hi argv i
  top : ∀ i arg, argv[i]? = some arg → argAddr hi argv i + (arg.length + 1) ≤ hi

/-! ### Sizes -/

theorem argSize_mod (arg : List Byte) : argSize arg % 4 = 0 := by
  rw [argSize]
  omega

theorem lt_argSize (arg : List Byte) : arg.length < argSize arg := by
  rw [argSize]
  omega

theorem argsSize_cons (arg : List Byte) (argv : List (List Byte)) :
    argsSize (arg :: argv) = argSize arg + argsSize argv := by
  simp [argsSize]

theorem argsSize_mod (argv : List (List Byte)) : argsSize argv % 4 = 0 := by
  induction argv with
  | nil => rfl
  | cons arg argv ih =>
    have hone := argSize_mod arg
    rw [argsSize_cons]
    omega

theorem argsSize_take_succ {argv : List (List Byte)} {i : Nat} {arg : List Byte}
    (h : argv[i]? = some arg) :
    argsSize (argv.take (i + 1)) = argsSize (argv.take i) + argSize arg := by
  rw [List.take_add_one, h, argsSize, argsSize, List.map_append, List.sum_append]
  simp

theorem argsSize_take_le (argv : List (List Byte)) (i : Nat) :
    argsSize (argv.take i) ≤ argsSize argv := by
  induction argv generalizing i with
  | nil => simp
  | cons arg argv ih =>
    cases i with
    | zero => exact Nat.zero_le _
    | succ i => grind [argsSize_cons]

theorem argsSize_take_mono (argv : List (List Byte)) {i j : Nat} (h : i ≤ j) :
    argsSize (argv.take i) ≤ argsSize (argv.take j) := by
  have hle := argsSize_take_le (argv.take j) i
  rwa [List.take_take, Nat.min_eq_left h] at hle

theorem argAddr_cons_zero (sp : Nat) (arg : List Byte) (argv : List (List Byte)) :
    argAddr sp (arg :: argv) 0 = sp - argSize arg := by
  simp [argAddr, argsSize]

theorem argAddr_cons_succ (sp : Nat) (arg : List Byte) (argv : List (List Byte)) (i : Nat) :
    argAddr sp (arg :: argv) (i + 1) = argAddr (sp - argSize arg) argv i := by
  rw [argAddr, argAddr, List.take_succ_cons, argsSize_cons, Nat.sub_sub]

/-- The addresses of all strings. -/
def argAddrs (sp : Nat) (argv : List (List Byte)) : List Nat :=
  (List.range argv.length).map (argAddr sp argv)

theorem argAddrs_length (sp : Nat) (argv : List (List Byte)) : (argAddrs sp argv).length = argv.length := by
  rw [argAddrs, List.length_map, List.length_range]

theorem argAddrs_cons (sp : Nat) (arg : List Byte) (argv : List (List Byte)) :
    argAddrs sp (arg :: argv) = (sp - argSize arg) :: argAddrs (sp - argSize arg) argv := by
  rw [argAddrs, List.length_cons, List.range_succ_eq_map, List.map_cons, List.map_map,
    argAddr_cons_zero, argAddrs]
  congr 2
  funext i
  exact argAddr_cons_succ sp arg argv i

/-! ### Copies -/

variable {m m' : Memory}

theorem Memory.byte_copyIn {buf : List Byte} {a x : Nat} (hfit : a % PGSIZE + buf.length ≤ PGSIZE) :
    (m.copyIn (a / PGSIZE) (a % PGSIZE) buf).byte x =
      if a ≤ x then (buf[x - a]?).getD (m.byte x) else m.byte x := by
  simp only [PGSIZE] at hfit
  by_cases hpage : x / PGSIZE = a / PGSIZE
  · have hoff : (a % PGSIZE ≤ x % PGSIZE ↔ a ≤ x) ∧ x % PGSIZE - a % PGSIZE = x - a := by
      simp only [PGSIZE] at hpage ⊢
      omega
    simp only [Memory.byte, Memory.copyIn, ← hpage, Function.update_self, hoff.1, hoff.2]
  · simp only [Memory.byte, Memory.copyIn, Function.update_of_ne hpage]
    split
    · next hle =>
      have hout : buf.length ≤ x - a := by
        simp only [PGSIZE] at hpage
        omega
      rw [List.getElem?_eq_none hout, Option.getD_none]
    · rfl

theorem Memory.copyout_page {buf : List Byte} {turns va : Nat} (hne : buf ≠ [])
    (hopen : m.accessible (va / PGSIZE) = true) (hfit : va % PGSIZE + buf.length ≤ PGSIZE)
    (hturns : buf.length ≤ turns) :
    m.copyout turns va buf = some (m.copyIn (va / PGSIZE) (va % PGSIZE) buf) := by
  cases buf with
  | nil => exact absurd rfl hne
  | cons b buf =>
    cases turns with
    | zero => simp at hturns
    | succ turns =>
      have hall : min (PGSIZE - va % PGSIZE) (buf.length + 1) = (b :: buf).length := by
        rw [List.length_cons] at hfit ⊢
        omega
      rw [Memory.copyout, if_pos hopen]
      dsimp only
      rw [hall, List.drop_length, List.take_length]
      cases turns <;> rfl

theorem Memory.copyout_blocked {g : Nat} : ∀ {turns va : Nat} {buf : List Byte} {m : Memory},
    m.accessible g = false → buf ≠ [] → va / PGSIZE ≤ g → g * PGSIZE < va + buf.length →
    va + buf.length ≤ 2 ^ 32 → m.copyout turns va buf = none := by
  intro turns
  induction turns with
  | zero =>
    intro va buf m _ hne _ _ _
    cases buf with
    | nil => exact absurd rfl hne
    | cons b buf => rfl
  | succ turns ih =>
    intro va buf m hg hne hlo hhi htop
    cases buf with
    | nil => exact absurd rfl hne
    | cons b buf =>
      rw [Memory.copyout]
      by_cases hopen : m.accessible (va / PGSIZE) = true
      · -- The copy leaves the page, so it goes on at the start of the next one.
        have hpage : va / PGSIZE ≠ g := by grind
        simp only [List.length_cons, PGSIZE] at hlo hhi hpage htop
        rw [if_pos hopen]
        dsimp only
        apply ih
        · exact hg
        · apply List.ne_nil_of_length_pos
          simp only [List.length_drop, List.length_cons, PGSIZE]
          omega
        · simp only [PGSIZE]
          omega
        · simp only [List.length_drop, List.length_cons, PGSIZE]
          omega
        · simp only [List.length_drop, List.length_cons, PGSIZE]
          omega
      · rw [if_neg hopen]

/-! ### The stack page -/

/-- The last page, from `base` on, is open to user code, and the page before it is not. -/
structure Memory.Stacked (m : Memory) (base : Nat) : Prop where
  size : m.sz = base + PGSIZE
  aligned : base % PGSIZE = 0
  room : PGSIZE ≤ base
  bound : m.sz ≤ KERNBASE
  stack : m.user (base / PGSIZE) = true
  guard : m.user (base / PGSIZE - 1) = false

variable {base sp : Nat}

theorem Memory.Stacked.pages (h : m.Stacked base) : pagesOf m.sz = base / PGSIZE + 1 := by
  have hal := h.aligned
  rw [h.size]
  simp only [pagesOf, PGROUNDUP, PGSIZE] at hal ⊢
  omega

theorem Memory.Stacked.open_stack (h : m.Stacked base) : m.accessible (base / PGSIZE) = true := by
  rw [Memory.accessible, h.stack, h.pages]
  simp

theorem Memory.Stacked.closed_guard (h : m.Stacked base) :
    m.accessible (base / PGSIZE - 1) = false := by
  rw [Memory.accessible, h.guard, Bool.and_false]

theorem Memory.Stacked.closed_above (h : m.Stacked base) {v : Nat} (hv : base / PGSIZE < v) :
    m.accessible v = false := by
  rw [Memory.accessible, h.pages, decide_eq_false (by omega), Bool.false_and]

theorem Memory.Stacked.copyIn (h : m.Stacked base) (v o : Nat) (buf : List Byte) :
    (m.copyIn v o buf).Stacked base := ⟨h.size, h.aligned, h.room, h.bound, h.stack, h.guard⟩

theorem Memory.Stacked.copyout_in (h : m.Stacked base) {buf : List Byte} {va : Nat} (hne : buf ≠ [])
    (hlo : base ≤ va) (hhi : va + buf.length ≤ base + PGSIZE) :
    va / PGSIZE = base / PGSIZE ∧ va % PGSIZE + buf.length ≤ PGSIZE ∧
      m.copyout buf.length va buf = some (m.copyIn (va / PGSIZE) (va % PGSIZE) buf) := by
  have hpos := List.length_pos_iff.2 hne
  have hal := h.aligned
  simp only [PGSIZE] at hal hhi
  have hpage : va / PGSIZE = base / PGSIZE := by
    simp only [PGSIZE]
    omega
  have hfit : va % PGSIZE + buf.length ≤ PGSIZE := by
    simp only [PGSIZE]
    omega
  refine ⟨hpage, hfit, Memory.copyout_page hne ?_ hfit (Nat.le_refl _)⟩
  rw [hpage]
  exact h.open_stack

theorem Memory.Stacked.copyout_below (h : m.Stacked base) {buf : List Byte} {va : Nat}
    (hne : buf ≠ []) (hlo : va < base) (hhi : base < va + buf.length + PGSIZE)
    (htop : va + buf.length ≤ base + PGSIZE) :
    m.copyout buf.length va buf = none := by
  have hal := h.aligned
  have hroom := h.room
  have hbound := h.bound
  rw [h.size] at hbound
  simp only [PGSIZE, KERNBASE] at hal hroom hbound hhi htop
  apply Memory.copyout_blocked h.closed_guard hne
  · simp only [PGSIZE]
    omega
  · simp only [PGSIZE]
    omega
  · omega

theorem Memory.Stacked.copyout_device (h : m.Stacked base) {buf : List Byte} {va : Nat}
    (hne : buf ≠ []) (hlo : DEVSPACE ≤ va) :
    m.copyout buf.length va buf = none := by
  cases buf with
  | nil => exact absurd rfl hne
  | cons b buf =>
    rw [List.length_cons, Memory.copyout, h.closed_above, if_neg Bool.false_ne_true]
    have hbound := h.bound
    rw [h.size] at hbound
    simp only [DEVSPACE, KERNBASE, PGSIZE] at hlo hbound ⊢
    omega

/-! ### Pushing the strings -/

/-- Only bytes from `lo` up to `hi` differ. -/
def Memory.SameOutside (m m' : Memory) (lo hi : Nat) : Prop :=
  ∀ x, x < lo ∨ hi ≤ x → m'.byte x = m.byte x

theorem Memory.sameOutside_copyIn {buf : List Byte} {a hi : Nat}
    (hfit : a % PGSIZE + buf.length ≤ PGSIZE) (hhi : a + buf.length ≤ hi) :
    m.SameOutside (m.copyIn (a / PGSIZE) (a % PGSIZE) buf) a hi := by
  intro x hx
  rw [Memory.byte_copyIn hfit]
  split
  · next hle =>
    have hout : buf.length ≤ x - a := by omega
    rw [List.getElem?_eq_none hout, Option.getD_none]
  · rfl

theorem Memory.byte_copied {buf : List Byte} {a k : Nat} {b : Byte}
    (hfit : a % PGSIZE + buf.length ≤ PGSIZE) (hb : buf[k]? = some b) :
    (m.copyIn (a / PGSIZE) (a % PGSIZE) buf).byte (a + k) = b := by
  rw [Memory.byte_copyIn hfit, if_pos (Nat.le_add_right a k), Nat.add_sub_cancel_left, hb,
    Option.getD_some]

theorem below_arg {arg : List Byte} (hsp : sp % 4 = 0) (hlen : arg.length < 2 ^ 24)
    (htop : sp ≤ KERNBASE) (hroom : PGSIZE ≤ sp) :
    (sp + 2 ^ 32 - (arg.length + 1) % 2 ^ 32) % 2 ^ 32 / 4 * 4 =
      if argSize arg ≤ sp then sp - argSize arg else sp + 2 ^ 32 - argSize arg := by
  simp only [KERNBASE, PGSIZE] at htop hroom
  rw [argSize]
  by_cases hle : (arg.length + 4) / 4 * 4 ≤ sp
  · rw [if_pos hle]
    omega
  · rw [if_neg hle]
    omega

theorem Memory.Stacked.push (h : m.Stacked base) {arg : List Byte} (hsp : sp % 4 = 0)
    (hlo : base ≤ sp) (hhi : sp ≤ base + PGSIZE) (hlen : arg.length < 2 ^ 24) :
    let sp' := (sp + 2 ^ 32 - (arg.length + 1) % 2 ^ 32) % 2 ^ 32 / 4 * 4
    if base + argSize arg ≤ sp then
      sp' = sp - argSize arg ∧ ∃ m', m.copyout (arg.length + 1) sp' (arg ++ [0]) = some m' ∧
        m'.Stacked base ∧ HasString m'.byte (sp - argSize arg) arg ∧
        m.SameOutside m' (sp - argSize arg) sp
    else m.copyout (arg.length + 1) sp' (arg ++ [0]) = none := by
  have hbound := h.bound
  have hroom := h.room
  have hal := h.aligned
  have hlt := lt_argSize arg
  have hle : argSize arg ≤ arg.length + 4 := by
    rw [argSize]
    omega
  have hne : arg ++ [0] ≠ [] := by simp
  have hlength : (arg ++ [0]).length = arg.length + 1 := by simp
  rw [h.size] at hbound
  simp only
  rw [below_arg hsp hlen (by omega) (by omega)]
  by_cases hfits : base + argSize arg ≤ sp
  · rw [if_pos hfits, if_pos (by omega)]
    obtain ⟨-, hfit, hcopy⟩ := h.copyout_in hne (show base ≤ sp - argSize arg by omega)
      (by omega)
    rw [hlength] at hcopy
    refine ⟨rfl, _, hcopy, h.copyIn .., fun k b hb => Memory.byte_copied hfit hb, ?_⟩
    exact Memory.sameOutside_copyIn hfit (by omega)
  · rw [if_neg hfits, ← hlength]
    split
    · next hwrap =>
      apply h.copyout_below hne
      · omega
      · simp only [PGSIZE]
        omega
      · omega
    · next hwrap =>
      apply h.copyout_device hne
      simp only [DEVSPACE]
      omega

/-- What pushing strings onto the stack leaves. -/
structure PushedArgs (m m' : Memory) (base sp : Nat) (argv : List (List Byte)) : Prop where
  stacked : m'.Stacked base
  strings : ∀ i arg, argv[i]? = some arg → HasString m'.byte (argAddr sp argv i) arg
  same : m.SameOutside m' (sp - argsSize argv) sp

theorem Memory.Stacked.pushArgs : ∀ {argv : List (List Byte)} {sp : Nat} {us : List Nat} {m : Memory},
    m.Stacked base → sp % 4 = 0 → base ≤ sp → sp ≤ base + PGSIZE → us.length ≤ MAXARG →
    (∀ arg ∈ argv, arg.length < 2 ^ 24) →
    if us.length + argv.length ≤ MAXARG ∧ base + argsSize argv ≤ sp then
      ∃ m', m.pushArgs argv sp us =
          some (sp - argsSize argv, us ++ argAddrs sp argv, m') ∧
        PushedArgs m m' base sp argv
    else m.pushArgs argv sp us = none := by
  intro argv
  induction argv with
  | nil =>
    intro sp us m h _ hlo _ hus _
    rw [if_pos ⟨hus, by simpa [argsSize] using hlo⟩]
    refine ⟨m, by simp [Memory.pushArgs, argsSize, argAddrs], h, ?_, fun _ _ => rfl⟩
    intro i arg harg
    simp at harg
  | cons arg argv ih =>
    intro sp us m h hsp hlo hhi hus hlen
    have hpush := h.push hsp hlo hhi (hlen arg List.mem_cons_self)
    have hcons := argsSize_cons arg argv
    have hmod := argSize_mod arg
    rw [Memory.pushArgs]
    by_cases hmax : MAXARG ≤ us.length
    · rw [if_pos hmax, if_neg]
      rintro ⟨hcount, -⟩
      rw [List.length_cons] at hcount
      omega
    rw [if_neg hmax]
    dsimp only at hpush ⊢
    by_cases hfits : base + argSize arg ≤ sp
    · rw [if_pos hfits] at hpush
      obtain ⟨hsp', m1, hcopy, h1, hstr, hsame⟩ := hpush
      rw [hcopy, hsp']
      dsimp only
      have hus' : (us ++ [sp - argSize arg]).length = us.length + 1 := by simp
      have hrest := ih h1 (by omega) (show base ≤ sp - argSize arg by omega) (by omega)
        (show (us ++ [sp - argSize arg]).length ≤ MAXARG by omega)
        (fun a ha => hlen a (List.mem_cons_of_mem _ ha))
      rw [hus'] at hrest
      by_cases hall : us.length + (arg :: argv).length ≤ MAXARG ∧ base + argsSize (arg :: argv) ≤ sp
      · rw [if_pos hall]
        rw [List.length_cons] at hall
        rw [if_pos ⟨by omega, by omega⟩] at hrest
        obtain ⟨m2, hpushed, hp⟩ := hrest
        refine ⟨m2, ?_, hp.stacked, ?_, ?_⟩
        · rw [hpushed, hcons, argAddrs_cons, Nat.sub_sub, List.append_assoc, List.singleton_append]
        · -- The later strings go below this one.
          intro i a ha
          cases i with
          | zero =>
            obtain rfl : arg = a := by simpa using ha
            intro k b hb
            rw [argAddr_cons_zero, hp.same _ (.inr (Nat.le_add_right _ _))]
            exact hstr k b hb
          | succ i =>
            rw [argAddr_cons_succ]
            exact hp.strings i a (by simpa using ha)
        · intro x hx
          rw [hcons] at hx
          rw [hp.same x (by omega), hsame x (by omega)]
      · rw [if_neg hall]
        rw [List.length_cons] at hall
        rwa [if_neg (by omega)] at hrest
    · rw [if_neg hfits] at hpush
      rw [hpush, if_neg]
      rintro ⟨-, hroom⟩
      omega

/-! ### The words below the strings -/

theorem wordAt_bytes {rd : Nat → Byte} {a x : Nat}
    (h : ∀ j b, (wordBytes x)[j]? = some b → rd (a + j) = b) : wordAt rd a = x % 2 ^ 32 := by
  have h0 := h 0 _ rfl
  have h1 := h 1 _ rfl
  have h2 := h 2 _ rfl
  have h3 := h 3 _ rfl
  have hword : ldw (fun i => rd (a + i)) 0 = ldw (stw (fun _ => 0) 0 (BitVec.ofNat 32 x)) 0 := by
    simp only [ldw, stw, h0, h1, h2, h3]
    rfl
  rw [wordAt, hword, ldw_stw_self, BitVec.toNat_ofNat]

theorem wordAt_words {rd : Nat → Byte} : ∀ {ws : List Nat} {a : Nat},
    (∀ j b, (ws.flatMap wordBytes)[j]? = some b → rd (a + j) = b) →
    ∀ k x, ws[k]? = some x → wordAt rd (a + 4 * k) = x % 2 ^ 32 := by
  intro ws
  induction ws with
  | nil =>
    intro a _ k x hx
    simp at hx
  | cons w ws ih =>
    intro a h k x hx
    rw [List.flatMap_cons] at h
    cases k with
    | zero =>
      obtain rfl : w = x := by simpa using hx
      apply wordAt_bytes
      intro j b hb
      refine h j b ?_
      rwa [List.getElem?_append_left]
      exact (List.getElem?_eq_some_iff.1 hb).1
    | succ k =>
      have hrest := ih (a := a + 4) ?_ k x (by simpa using hx)
      · rwa [show a + 4 * (k + 1) = a + 4 + 4 * k by omega]
      · intro j b hb
        rw [show a + 4 + j = a + (4 + j) by omega]
        refine h (4 + j) b ?_
        rwa [List.getElem?_append_right (by rw [wordBytes_length]; omega), wordBytes_length,
          Nat.add_sub_cancel_left]

theorem argAddr_top {argv : List (List Byte)} {hi i : Nat} {arg : List Byte} (h : argv[i]? = some arg)
    (hfit : argsSize argv ≤ hi) :
    argAddr hi argv i + argSize arg = hi - argsSize (argv.take i) := by
  have hle := argsSize_take_le argv (i + 1)
  rw [argAddr]
  rw [argsSize_take_succ h] at hle ⊢
  omega

theorem argAddr_layout {argv : List (List Byte)} {hi : Nat} (hhi : hi % 4 = 0)
    (hfit : argsSize argv ≤ hi) :
    (∀ i, argAddr hi argv i % 4 = 0 ∧ hi - argsSize argv ≤ argAddr hi argv i) ∧
      (∀ i j arg, i < j → argv[j]? = some arg →
        argAddr hi argv j + (arg.length + 1) ≤ argAddr hi argv i) ∧
      ∀ i arg, argv[i]? = some arg → argAddr hi argv i + (arg.length + 1) ≤ hi := by
  refine ⟨fun i => ?_, fun i j arg hij harg => ?_, fun i arg harg => ?_⟩
  · have hmod := argsSize_mod (argv.take (i + 1))
    have hle := argsSize_take_le argv (i + 1)
    rw [argAddr]
    omega
  · have htop := argAddr_top harg hfit
    have hmono := argsSize_take_mono argv (show i + 1 ≤ j from hij)
    have hlt := lt_argSize arg
    have haddr : argAddr hi argv i = hi - argsSize (argv.take (i + 1)) := rfl
    omega
  · have htop := argAddr_top harg hfit
    have hlt := lt_argSize arg
    omega

/-- `ustack`, as `exec` fills it below the strings at `sp`. -/
def ustackWords (sp : Nat) (args : List Nat) : List Nat :=
  [0xffffffff, args.length, sp - (args.length + 1) * 4] ++ args ++ [0]

theorem Memory.Stacked.pushWords (h : m.Stacked base) {args : List Nat} (hlo : base ≤ sp)
    (hhi : sp ≤ base + PGSIZE) (hargs : args.length ≤ MAXARG) :
    let words := (ustackWords sp args).flatMap wordBytes
    let esp := sp - 4 * (args.length + 4)
    if base + 4 * (args.length + 4) ≤ sp then
      ∃ m', m.copyout words.length esp words = some m' ∧ m'.Stacked base ∧
        (∀ k x, (ustackWords sp args)[k]? = some x → wordAt m'.byte (esp + 4 * k) = x % 2 ^ 32) ∧
        m.SameOutside m' esp sp
    else m.copyout words.length esp words = none := by
  have hlength : ((ustackWords sp args).flatMap wordBytes).length = (3 + args.length + 1) * 4 :=
    ustack_length args _ _ _ _
  have hroom := h.room
  simp only [PGSIZE] at hroom hhi
  simp only [MAXARG] at hargs
  have hne : (ustackWords sp args).flatMap wordBytes ≠ [] := by grind
  dsimp only
  by_cases hfits : base + 4 * (args.length + 4) ≤ sp
  · rw [if_pos hfits]
    obtain ⟨-, hfit, hcopy⟩ := h.copyout_in hne
      (show base ≤ sp - 4 * (args.length + 4) by omega) (by simp only [PGSIZE]; omega)
    refine ⟨_, hcopy, h.copyIn .., ?_, Memory.sameOutside_copyIn hfit (by omega)⟩
    exact wordAt_words fun j b hb => Memory.byte_copied hfit hb
  · rw [if_neg hfits]
    apply h.copyout_below hne
    · omega
    · simp only [PGSIZE]
      omega
    · simp only [PGSIZE]
      omega

theorem ustackWords_arg {args : List Nat} {i x : Nat} (h : args[i]? = some x) :
    (ustackWords sp args)[3 + i]? = some x := by
  have hi := (List.getElem?_eq_some_iff.1 h).1
  rw [ustackWords, List.append_assoc, List.getElem?_append_right (by simp)]
  rw [List.getElem?_append_left (by simpa using hi)]
  simpa using h

theorem ustackWords_last (args : List Nat) : (ustackWords sp args)[3 + args.length]? = some 0 := by
  have hlength : ([0xffffffff, args.length, sp - (args.length + 1) * 4] ++ args).length =
      3 + args.length := List.length_append
  rw [ustackWords, List.getElem?_append_right (by rw [hlength]), hlength, Nat.sub_self]
  rfl

theorem argAddrs_get {argv : List (List Byte)} {hi i : Nat} (h : i < argv.length) :
    (argAddrs hi argv)[i]? = some (argAddr hi argv i) := by
  rw [argAddrs, List.getElem?_map, List.getElem?_range h, Option.map_some]

theorem passed_of {rd : Nat → Byte} {lo hi esp : Nat} {argv : List (List Byte)} (hhi : hi % 4 = 0)
    (hbound : hi < 2 ^ 32) (hesp : esp + 4 * (argv.length + 4) + argsSize argv = hi) (hlo : lo ≤ esp)
    (hword : ∀ k x, (ustackWords (hi - argsSize argv) (argAddrs hi argv))[k]? = some x →
      wordAt rd (esp + 4 * k) = x % 2 ^ 32)
    (hstr : ∀ i arg, argv[i]? = some arg → HasString rd (argAddr hi argv i) arg) :
    Passed rd lo hi esp argv := by
  have hargs := argAddrs_length hi argv
  have hmod := argsSize_mod argv
  obtain ⟨hplace, hapart, htop⟩ := argAddr_layout hhi (show argsSize argv ≤ hi by omega)
  have hlt : ∀ i, argAddr hi argv i < 2 ^ 32 := fun i => (Nat.sub_le _ _).trans_lt hbound
  constructor
  · have hone := hword 1 _ rfl
    rwa [hargs, Nat.mod_eq_of_lt (by omega)] at hone
  · have htwo : wordAt rd (esp + 8) = _ := hword 2 _ rfl
    rw [hargs, Nat.mod_eq_of_lt (by omega)] at htwo
    omega
  · intro i hi'
    have hptr := hword (3 + i) _ (ustackWords_arg (argAddrs_get hi'))
    rwa [Nat.mod_eq_of_lt (hlt i), Nat.mul_add, ← Nat.add_assoc] at hptr
  · have hzero := hword _ _ (ustackWords_last (argAddrs hi argv))
    rwa [hargs, Nat.mul_add, ← Nat.add_assoc] at hzero
  · exact hstr
  · exact ⟨by omega, fun i _ => (hplace i).1⟩
  · exact hlo
  · omega
  · intro i _
    have habove := (hplace i).2
    omega
  · exact hapart
  · exact htop

theorem wordAt_congr {rd rd' : Nat → Byte} {a : Nat} (h : ∀ j, j < 4 → rd' (a + j) = rd (a + j)) :
    wordAt rd' a = wordAt rd a := by
  simp only [wordAt, ldw]
  rw [h 3 (by omega), h 2 (by omega), h 1 (by omega), h 0 (by omega)]

/-- The arguments are where the bytes between `lo` and `hi` say they are. -/
theorem Passed.congr {rd rd' : Nat → Byte} {lo hi esp : Nat} {argv : List (List Byte)}
    (h : Passed rd lo hi esp argv) (hsame : ∀ x, lo ≤ x → x < hi → rd' x = rd x) :
    Passed rd' lo hi esp argv := by
  have hlo := h.bottom
  have hhi := h.words
  have hword : ∀ a, esp ≤ a → a + 4 ≤ esp + 16 + 4 * argv.length → wordAt rd' a = wordAt rd a :=
    fun a ha ha' => wordAt_congr fun j hj => hsame _ (by omega) (by omega)
  constructor
  · rw [hword _ (by omega) (by omega)]
    exact h.argc
  · rw [hword _ (by omega) (by omega)]
    exact h.argvp
  · grind [h.pointers]
  · rw [hword _ (by omega) (by omega)]
    exact h.last
  · intro i arg harg k b hb
    have hlen := (List.getElem?_eq_some_iff.1 harg).1
    have hk := (List.getElem?_eq_some_iff.1 hb).1
    have habove := h.above i hlen
    have htop := h.top i arg harg
    rw [List.length_append, List.length_singleton] at hk
    rw [hsame _ (by omega) (by omega)]
    exact h.strings i arg harg k b hb
  · exact h.aligned
  · exact hlo
  · exact hhi
  · exact h.above
  · exact h.apart
  · exact h.top

theorem Memory.Stacked.pass {argv : List (List Byte)} (h : m.Stacked base)
    (hlen : ∀ arg ∈ argv, arg.length < 2 ^ 24) :
    if ArgsFitPage argv then
      ∃ esp m', m.stack argv = some (esp, m') ∧ m'.Stacked base ∧
        Passed m'.byte base (base + PGSIZE) esp argv ∧ m.SameOutside m' base (base + PGSIZE)
    else m.stack argv = none := by
  have hal := h.aligned
  have hroom := h.room
  have hbound := h.bound
  have hmod := argsSize_mod argv
  have hsz := h.size
  have hfour : m.sz % 4 = 0 := by
    simp only [PGSIZE] at hal hsz
    omega
  have hnil : ([] : List Nat).length ≤ MAXARG := Nat.zero_le _
  have hpush := h.pushArgs hfour (by omega) (by omega) hnil hlen
  rw [List.length_nil, Nat.zero_add, List.nil_append] at hpush
  rw [Memory.stack, ← hsz]
  by_cases hstrings : argv.length ≤ MAXARG ∧ base + argsSize argv ≤ m.sz
  · rw [if_pos hstrings] at hpush
    obtain ⟨m1, hpushed, hp⟩ := hpush
    have hargs := argAddrs_length m.sz argv
    have hmax := hstrings.1
    rw [hpushed]
    dsimp only
    generalize hsp : m.sz - argsSize argv = sp at hp
    have hwords := hp.stacked.pushWords (show base ≤ sp by omega) (by omega) (hargs.trans_le hmax)
    -- Neither the pointer to the array nor the stack pointer wraps around.
    simp only [KERNBASE] at hbound
    simp only [PGSIZE] at hroom
    simp only [MAXARG] at hmax
    have hptr : (sp + 2 ^ 32 - ((argAddrs m.sz argv).length + 1) * 4) % 2 ^ 32 =
        sp - ((argAddrs m.sz argv).length + 1) * 4 := by omega
    have hesp : (sp + 2 ^ 32 - (3 + (argAddrs m.sz argv).length + 1) * 4) % 2 ^ 32 =
        sp - 4 * ((argAddrs m.sz argv).length + 4) := by omega
    rw [hptr, hesp]
    dsimp only at hwords
    rw [ustackWords] at hwords
    by_cases hfits : base + 4 * ((argAddrs m.sz argv).length + 4) ≤ sp
    · rw [if_pos (show ArgsFitPage argv from ⟨hstrings.1, by omega⟩)]
      rw [if_pos hfits] at hwords
      obtain ⟨m2, hcopy, h2, hword, hsame⟩ := hwords
      rw [hcopy, Option.map_some]
      refine ⟨_, m2, rfl, h2, ?_, ?_⟩
      · apply passed_of hfour (by omega) (by omega) (by omega)
        · rwa [hsp]
        · intro i arg harg k b hb
          have hat := hp.strings i arg harg k b hb
          rwa [← hsame _ (.inr ?_)] at hat
          have habove := argsSize_take_le argv (i + 1)
          rw [argAddr]
          omega
      · intro x hx
        rw [hsame x (by omega), hp.same x (by omega)]
    · rw [if_neg (fun hfit : ArgsFitPage argv => hfits (by have := hfit.2; omega))]
      rw [if_neg hfits] at hwords
      rw [hwords, Option.map_none]
  · rw [if_neg hstrings] at hpush
    rw [hpush, if_neg]
    rintro ⟨hmax, hroom⟩
    exact hstrings ⟨hmax, by omega⟩

/-! ### The pages for the stack -/

theorem Memory.addStack_stacked {img : Memory} (h : img.addStack = some m) :
    m.Stacked (PGROUNDUP img.sz + PGSIZE) ∧
      ∀ va, va < PGROUNDUP img.sz → m.byte va = img.byte va := by
  rw [Memory.addStack] at h
  obtain ⟨m1, halloc, rfl⟩ := Option.map_eq_some_iff.1 h
  have hround : PGROUNDUP img.sz % PGSIZE = 0 := by
    simp only [PGROUNDUP, PGSIZE]
    omega
  generalize PGROUNDUP img.sz = z at halloc hround
  have hbound : z + 2 * PGSIZE < KERNBASE := by
    rw [Memory.alloc] at halloc
    by_contra hlt
    rw [if_pos (by omega)] at halloc
    cases halloc
  have hgrow : ({ img with sz := z } : Memory).grow (z + 2 * PGSIZE) = m1 := by
    grind [Memory.alloc, PGSIZE]
  have hpages : pagesOf z = z / PGSIZE := by
    simp only [pagesOf, PGROUNDUP, PGSIZE] at hround ⊢
    omega
  have hguard : (z + 2 * PGSIZE - 2 * PGSIZE) / PGSIZE = z / PGSIZE := by rw [Nat.add_sub_cancel]
  have hstack : (z + PGSIZE) / PGSIZE = z / PGSIZE + 1 := Nat.add_div_right z (by decide)
  subst hgrow
  refine ⟨⟨?_, ?_, Nat.le_add_left _ _, hbound.le, ?_, ?_⟩, ?_⟩
  · dsimp only [Memory.grow]
    omega
  · rw [Nat.add_mod_right, hround]
  · dsimp only [Memory.grow]
    rw [hguard, hstack, Function.update_of_ne (by omega), if_neg (by omega)]
  · dsimp only [Memory.grow]
    rw [hguard, hstack, Nat.add_sub_cancel, Function.update_self]
  · intro va hva
    have hlt : va / PGSIZE < z / PGSIZE := by
      simp only [PGSIZE] at hround ⊢
      omega
    simp only [Memory.byte, Memory.grow]
    rw [hpages, if_pos hlt]

end CowPaging
