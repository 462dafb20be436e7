import CowPaging.Log
import CowPaging.Lib.Ring
import Mathlib.Data.List.Perm.Basic
import Mathlib.Data.List.Count

/-!
# The buffer cache

`bio.c` as a transition system: `bget` under `bcache.lock`, the acquisition of a
buffer's sleep lock, the completion of a disk read or write by `ideintr`, `log_write`
and `brelse` are the steps, and a process may sleep between any two of them. A process
waits for the lock of the buffer that `bget` chose; the one that holds it is loading it,
has it, or is writing it. `write_pag_to_disk` takes buffers by `bget` without reading
them and writes them, `read_page_from_disk` reads them by `bread`, eight blocks each.

`latest` records, for each block, the last completed write or logged modification. The
cache is coherent: what `bread` returns is `latest` of the block it was asked for.
-/

namespace CowPaging

open Bytes Ring
open Function (update_of_ne update_self update_apply update_eq_self update)

def NBUF : Nat := MAXOPBLOCKS * 3
def ROOTDEV : Nat := 1

/-! ### The state -/

/-- `struct buf` without its links and its lock. -/
structure Buf where
  dev : Nat
  blockno : Nat
  refcnt : Nat
  /-- `B_VALID`. -/
  valid : Bool
  /-- `B_DIRTY`. -/
  dirty : Bool
  data : Page

/-- What the holder of a buffer's lock is doing. -/
inductive BufStage where
  /-- In `bread`, waiting for the disk. -/
  | loading
  /-- In `write_pag_to_disk`, about to overwrite the contents. -/
  | blind
  /-- `bread` or `bwrite` has returned. -/
  | ready
  /-- In `bwrite`, waiting for the disk. -/
  | writing
deriving DecidableEq, Repr

/-- A process holds the lock of the buffer it got for `block`. -/
structure BufHold where
  proc : Nat
  block : Nat
  stage : BufStage
deriving DecidableEq, Repr

/-- A process waits for the lock of the buffer that `bget` chose for `block`; `read`
    when it is in `bread`. -/
structure BufWait where
  proc : Nat
  buf : Nat
  block : Nat
  read : Bool
deriving DecidableEq, Repr

/-- The node of `bcache.head`. -/
def BHEAD : Nat := NBUF

structure BufCache where
  buf : Nat → Buf
  next : Nat → Nat
  prev : Nat → Nat
  lock : Nat → Option BufHold
  waiting : List BufWait
  disk : Nat → Page
  /-- The last completed write or logged modification of each block. -/
  latest : Nat → Page
  /-- "bget: no buffers". -/
  panicked : Bool

def BufCache.setBuf (s : BufCache) (b : Nat) (f : Buf → Buf) : BufCache :=
  { s with buf := update s.buf b (f (s.buf b)) }

def BufCache.setLock (s : BufCache) (b : Nat) (h : Option BufHold) : BufCache :=
  { s with lock := update s.lock b h }

/-- Put `b` in behind the head: the four assignments of `binit` and `brelse`. -/
def BufCache.insertFront (s : BufCache) (b : Nat) : BufCache :=
  { s with
    next := update (update s.next b (s.next BHEAD)) BHEAD b
    prev := update (update s.prev b BHEAD) (s.next BHEAD) b }

/-- `b->next->prev = b->prev; b->prev->next = b->next`. -/
def BufCache.unlink (s : BufCache) (b : Nat) : BufCache :=
  { s with
    next := update s.next (s.prev b) (s.next b)
    prev := update s.prev (s.next b) (s.prev b) }

/-- `binit`, on the zeroed buffers. -/
def binit (disk : Nat → Page) : BufCache :=
  (List.range NBUF).foldl BufCache.insertFront
    { buf := fun _ => ⟨0, 0, 0, false, false, fun _ => 0⟩
      next := fun _ => BHEAD
      prev := fun _ => BHEAD
      lock := fun _ => none
      waiting := []
      disk := disk
      latest := disk
      panicked := false }

/-! ### Steps -/

/-- `bget` under `bcache.lock`. -/
def BufCache.bget (p block : Nat) (read : Bool) (s : BufCache) : BufCache :=
  match walk s.next BHEAD
      (fun b => (s.buf b).dev == ROOTDEV && (s.buf b).blockno == block) NBUF (s.next BHEAD) with
  | some b =>
    { s.setBuf b fun buf => { buf with refcnt := buf.refcnt + 1 } with
      waiting := s.waiting ++ [⟨p, b, block, read⟩] }
  | none =>
    match walk s.prev BHEAD
        (fun b => (s.buf b).refcnt == 0 && !(s.buf b).dirty) NBUF (s.prev BHEAD) with
    | some b =>
      { s.setBuf b fun buf =>
          { buf with
            dev := ROOTDEV, blockno := block, valid := false, dirty := false, refcnt := 1 } with
        waiting := s.waiting ++ [⟨p, b, block, read⟩] }
    | none => { s with panicked := true }

/-- `acquiresleep`; `bread` then looks at `B_VALID`. -/
def BufCache.acquire (w : BufWait) (s : BufCache) : BufCache :=
  let stage : BufStage :=
    if w.read then if (s.buf w.buf).valid then .ready else .loading else .blind
  { s.setLock w.buf (some ⟨w.proc, w.block, stage⟩) with waiting := s.waiting.erase w }

/-- The disk read of `bread` completes. -/
def BufCache.readDone (b : Nat) (h : BufHold) (s : BufCache) : BufCache :=
  (s.setBuf b fun buf =>
    { buf with data := s.disk buf.blockno, valid := true, dirty := false }).setLock b
      (some { h with stage := .ready })

/-- The holder changes the contents and calls `log_write`. -/
def BufCache.logWrite (b : Nat) (data : Page) (s : BufCache) : BufCache :=
  { s.setBuf b fun buf => { buf with data := data, dirty := true } with
    latest := update s.latest (s.buf b).blockno data }

/-- The holder changes the contents and calls `bwrite`. -/
def BufCache.bwrite (b : Nat) (h : BufHold) (data : Page) (s : BufCache) : BufCache :=
  (s.setBuf b fun buf => { buf with data := data, dirty := true }).setLock b
    (some { h with stage := .writing })

/-- The disk write of `bwrite` completes. -/
def BufCache.writeDone (b : Nat) (h : BufHold) (s : BufCache) : BufCache :=
  { (s.setBuf b fun buf => { buf with valid := true, dirty := false }).setLock b
      (some { h with stage := .ready }) with
    disk := update s.disk (s.buf b).blockno (s.buf b).data
    latest := update s.latest (s.buf b).blockno (s.buf b).data }

def BufCache.brelse (b : Nat) (s : BufCache) : BufCache :=
  let s := (s.setLock b none).setBuf b fun buf => { buf with refcnt := buf.refcnt - 1 }
  if (s.buf b).refcnt = 0 then (s.unlink b).insertFront b else s

inductive BufEvent where
  | bget (p block : Nat) (read : Bool)
  | acquire (w : BufWait)
  | readDone (b : Nat)
  | logWrite (b : Nat) (data : Page)
  | bwrite (b : Nat) (data : Page)
  | writeDone (b : Nat)
  | brelse (b : Nat)

/-- One event; one that is not possible in the state, or comes after a panic, changes
    nothing. -/
def BufCache.step (s : BufCache) (e : BufEvent) : BufCache :=
  if s.panicked then s
  else match e with
  | .bget p block read => s.bget p block read
  | .acquire w => if w ∈ s.waiting ∧ s.lock w.buf = none then s.acquire w else s
  | .readDone b =>
    match s.lock b with
    | some h => if h.stage = .loading then s.readDone b h else s
    | none => s
  | .logWrite b data =>
    match s.lock b with
    | some h => if h.stage = .ready then s.logWrite b data else s
    | none => s
  | .bwrite b data =>
    match s.lock b with
    | some h => if h.stage = .ready ∨ h.stage = .blind then s.bwrite b h data else s
    | none => s
  | .writeDone b =>
    match s.lock b with
    | some h => if h.stage = .writing then s.writeDone b h else s
    | none => s
  | .brelse b =>
    match s.lock b with
    | some h => if h.stage = .ready then s.brelse b else s
    | none => s

/-- What one event can do. -/
inductive BufStep (s : BufCache) : BufCache → Prop
  | stay : BufStep s s
  | hit {b : Nat} (p block : Nat) (read : Bool) :
      walk s.next BHEAD (fun b => (s.buf b).dev == ROOTDEV && (s.buf b).blockno == block) NBUF
        (s.next BHEAD) = some b →
      BufStep s { s.setBuf b fun buf => { buf with refcnt := buf.refcnt + 1 } with
        waiting := s.waiting ++ [⟨p, b, block, read⟩] }
  | recycle {b : Nat} (p block : Nat) (read : Bool) :
      walk s.next BHEAD (fun b => (s.buf b).dev == ROOTDEV && (s.buf b).blockno == block) NBUF
        (s.next BHEAD) = none →
      walk s.prev BHEAD (fun b => (s.buf b).refcnt == 0 && !(s.buf b).dirty) NBUF
        (s.prev BHEAD) = some b →
      BufStep s { s.setBuf b fun buf =>
          { buf with
            dev := ROOTDEV, blockno := block, valid := false, dirty := false, refcnt := 1 } with
        waiting := s.waiting ++ [⟨p, b, block, read⟩] }
  | panic : BufStep s { s with panicked := true }
  | acquire {w : BufWait} : w ∈ s.waiting → s.lock w.buf = none → BufStep s (s.acquire w)
  | readDone {b : Nat} {h : BufHold} : s.lock b = some h → h.stage = .loading →
      BufStep s (s.readDone b h)
  | logWrite {b : Nat} {h : BufHold} (data : Page) : s.lock b = some h → h.stage = .ready →
      BufStep s (s.logWrite b data)
  | bwrite {b : Nat} {h : BufHold} (data : Page) : s.lock b = some h →
      h.stage = .ready ∨ h.stage = .blind → BufStep s (s.bwrite b h data)
  | writeDone {b : Nat} {h : BufHold} : s.lock b = some h → h.stage = .writing →
      BufStep s (s.writeDone b h)
  | brelse {b : Nat} {h : BufHold} : s.lock b = some h → h.stage = .ready → BufStep s (s.brelse b)

theorem BufCache.step_spec (s : BufCache) (e : BufEvent) : BufStep s (s.step e) := by
  unfold BufCache.step
  split
  · exact .stay
  cases e with
  | bget p block read =>
    simp only [BufCache.bget]
    split
    · next hwalk => exact .hit p block read hwalk
    · next hnone =>
        split
        · next hwalk => exact .recycle p block read hnone hwalk
        · exact .panic
  | acquire w =>
    dsimp only
    split
    · next hw => exact .acquire hw.1 hw.2
    · exact .stay
  | readDone b =>
    dsimp only
    split
    · next hlock =>
        split
        · next hstage => exact .readDone hlock hstage
        · exact .stay
    · exact .stay
  | logWrite b data =>
    dsimp only
    split
    · next hlock =>
        split
        · next hstage => exact .logWrite data hlock hstage
        · exact .stay
    · exact .stay
  | bwrite b data =>
    dsimp only
    split
    · next hlock =>
        split
        · next hstage => exact .bwrite data hlock hstage
        · exact .stay
    · exact .stay
  | writeDone b =>
    dsimp only
    split
    · next hlock =>
        split
        · next hstage => exact .writeDone hlock hstage
        · exact .stay
    · exact .stay
  | brelse b =>
    dsimp only
    split
    · next hlock =>
        split
        · next hstage => exact .brelse hlock hstage
        · exact .stay
    · exact .stay

/-! ### The invariant -/

/-- Processes that wait for buffer `b`. -/
def waiters (waiting : List BufWait) (b : Nat) : Nat := waiting.countP fun w => w.buf == b

/-- The reference of the holder of the lock. -/
def holders : Option BufHold → Nat
  | none => 0
  | some _ => 1

/-- `b` holds a block that was asked for. -/
def Buf.holds (buf : Buf) (block : Nat) : Prop := buf.dev = ROOTDEV ∧ buf.blockno = block

structure CacheInv (s : BufCache) : Prop where
  ring : ∃ l, IsRing s.next s.prev BHEAD l ∧ l.Perm (List.range NBUF)
  refs : ∀ b, b < NBUF →
    (s.buf b).refcnt = waiters s.waiting b + holders (s.lock b)
  waits : ∀ w ∈ s.waiting, w.buf < NBUF ∧ (s.buf w.buf).holds w.block
  locks : ∀ b h, s.lock b = some h → b < NBUF ∧ (s.buf b).holds h.block
  unique : ∀ b c block, b < NBUF → c < NBUF → (s.buf b).holds block → (s.buf c).holds block →
    b = c
  loading : ∀ b h, s.lock b = some h → h.stage = .loading → (s.buf b).dirty = false
  dirty : ∀ b, b < NBUF → (s.buf b).dirty = true →
    (∀ h, s.lock b = some h → h.stage ≠ .writing) → (s.buf b).valid = true
  ready : ∀ b h, s.lock b = some h → h.stage = .ready → (s.buf b).valid = true
  fresh : ∀ b block, b < NBUF → (s.buf b).holds block → (s.buf b).valid = true →
    (∀ h, s.lock b = some h → h.stage ≠ .writing) → (s.buf b).data = s.latest block
  disk : ∀ block, (∀ b, b < NBUF → (s.buf b).holds block → (s.buf b).dirty = false) →
    s.disk block = s.latest block

variable {s s' : BufCache}

/-- The buffers and their links after `n` turns of the loop in `binit`. -/
theorem binit_loop (s : BufCache) (h : IsRing s.next s.prev BHEAD []) :
    ∀ n, n ≤ NBUF → ∃ next prev, IsRing next prev BHEAD (List.range n).reverse ∧
      (List.range n).foldl BufCache.insertFront s = { s with next := next, prev := prev } := by
  intro n
  induction n with
  | zero => exact fun _ => ⟨s.next, s.prev, h, rfl⟩
  | succ n ih =>
    intro hn
    obtain ⟨next, prev, hring, heq⟩ := ih (by omega)
    have hnot : n ∉ BHEAD :: (List.range n).reverse := by
      simp only [List.mem_cons, List.mem_reverse, List.mem_range, BHEAD]
      omega
    have hlist : (List.range (n + 1)).reverse = n :: (List.range n).reverse := by
      rw [List.range_succ, List.reverse_append]
      rfl
    rw [hlist]
    refine ⟨_, _, hring.insert hnot, ?_⟩
    rw [List.range_succ, List.foldl_append, heq]
    rfl

theorem cacheInv_binit (disk : Nat → Page) : CacheInv (binit disk) := by
  obtain ⟨next, prev, hring, heq⟩ := binit_loop
    { buf := fun _ => ⟨0, 0, 0, false, false, fun _ => 0⟩
      next := fun _ => BHEAD
      prev := fun _ => BHEAD
      lock := fun _ => none
      waiting := []
      disk := disk
      latest := disk
      panicked := false } ⟨⟨rfl, rfl⟩, by simp⟩ NBUF (Nat.le_refl _)
  rw [binit, heq]
  have hdev : ¬ (0 : Nat) = ROOTDEV := by decide
  exact
    { ring := ⟨_, hring, List.reverse_perm _⟩
      refs := fun _ _ => rfl
      waits := fun w hw => absurd hw List.not_mem_nil
      locks := fun _ _ hlock => (Option.some_ne_none _ hlock.symm).elim
      unique := fun _ _ _ _ _ hb _ => absurd hb.1 hdev
      loading := fun _ _ hlock => (Option.some_ne_none _ hlock.symm).elim
      dirty := fun _ _ hdirty => Bool.noConfusion hdirty
      ready := fun _ _ hlock => (Option.some_ne_none _ hlock.symm).elim
      fresh := fun _ _ _ hb _ _ => absurd hb.1 hdev
      disk := fun _ _ => rfl }

/-! ### Lookups -/

theorem CacheInv.walk_next (h : CacheInv s) (test : Nat → Bool) :
    (∀ b, walk s.next BHEAD test NBUF (s.next BHEAD) = some b → b < NBUF ∧ test b = true) ∧
      (walk s.next BHEAD test NBUF (s.next BHEAD) = none → ∀ b, b < NBUF → test b = false) := by
  obtain ⟨l, hring, hperm⟩ := h.ring
  have hlen : l.length ≤ NBUF := by rw [hperm.length_eq, List.length_range]
  rw [hring.walk_next hlen]
  refine ⟨fun b hb => ⟨?_, List.find?_some hb⟩, fun hnone b hb => ?_⟩
  · exact List.mem_range.1 (hperm.mem_iff.1 (List.mem_of_find?_eq_some hb))
  · grind

theorem CacheInv.walk_prev (h : CacheInv s) {test : Nat → Bool} {b : Nat}
    (hb : walk s.prev BHEAD test NBUF (s.prev BHEAD) = some b) : b < NBUF ∧ test b = true := by
  obtain ⟨l, hring, hperm⟩ := h.ring
  have hlen : l.length ≤ NBUF := by rw [hperm.length_eq, List.length_range]
  rw [hring.walk_prev hlen] at hb
  refine ⟨List.mem_range.1 (hperm.mem_iff.1 ?_), List.find?_some hb⟩
  exact List.mem_reverse.1 (List.mem_of_find?_eq_some hb)

theorem waiters_append (waiting : List BufWait) (w : BufWait) (b : Nat) :
    waiters (waiting ++ [w]) b = waiters waiting b + if w.buf = b then 1 else 0 := by
  rw [waiters, List.countP_append]
  by_cases h : w.buf = b <;> simp [waiters, h]

theorem waiters_erase {waiting : List BufWait} {w : BufWait} (hw : w ∈ waiting) (b : Nat) :
    waiters waiting b = waiters (waiting.erase w) b + if w.buf = b then 1 else 0 := by
  have hperm := (List.perm_cons_erase hw).countP_eq fun x => x.buf == b
  rw [waiters, hperm, List.countP_cons]
  by_cases h : w.buf = b <;> simp [waiters, h]

theorem CacheInv.unused (h : CacheInv s) {b : Nat} (hb : b < NBUF)
    (href : (s.buf b).refcnt = 0) : s.lock b = none ∧ ∀ w ∈ s.waiting, w.buf ≠ b := by
  have hrefs := h.refs b hb
  rw [href] at hrefs
  have hzero : waiters s.waiting b = 0 := by omega
  refine ⟨?_, fun w hw heq => ?_⟩
  · cases hlock : s.lock b with
    | none => rfl
    | some h =>
      rw [hlock, holders] at hrefs
      omega
  · have := List.countP_eq_zero.1 hzero w hw
    simp [heq] at this

/-! ### `bget` -/

section

variable {b p block : Nat} {read : Bool}

theorem setBuf_self {f : Buf → Buf} : (s.setBuf b f).buf b = f (s.buf b) :=
  update_self _ _ _

theorem setBuf_ne {f : Buf → Buf} {c : Nat} (h : c ≠ b) : (s.setBuf b f).buf c = s.buf c :=
  update_of_ne h _ _

theorem CacheInv.hit (h : CacheInv s) (hb : b < NBUF) (hblock : (s.buf b).holds block) :
    CacheInv { s.setBuf b fun buf => { buf with refcnt := buf.refcnt + 1 } with
      waiting := s.waiting ++ [⟨p, b, block, read⟩] } := by
  -- only a counter changes
  have hsame : ∀ c, ((s.setBuf b fun buf => { buf with refcnt := buf.refcnt + 1 }).buf c) =
      { s.buf c with refcnt := (s.buf c).refcnt + if b = c then 1 else 0 } := by
    intro c
    by_cases hc : c = b
    · subst hc
      rw [setBuf_self, if_pos rfl]
    · rw [setBuf_ne hc, if_neg (Ne.symm hc)]
      rfl
  refine ⟨h.ring, fun c hc => ?_, fun w hw => ?_, fun c hd hlock => ?_, ?_, ?_, ?_, ?_, ?_, ?_⟩ <;>
    simp only [hsame]
  · rw [h.refs c hc, waiters_append]
    simp only [BufCache.setBuf]
    omega
  · rcases List.mem_append.1 hw with hw | hw
    · exact h.waits w hw
    · rw [List.mem_singleton.1 hw]
      exact ⟨hb, hblock⟩
  · exact h.locks c hd hlock
  · exact h.unique
  · exact h.loading
  · exact h.dirty
  · exact h.ready
  · exact h.fresh
  · exact h.disk

theorem CacheInv.recycle (h : CacheInv s) (hb : b < NBUF)
    (hnone : ∀ c, c < NBUF → ¬ (s.buf c).holds block) (href : (s.buf b).refcnt = 0)
    (hdirty : (s.buf b).dirty = false) :
    CacheInv { s.setBuf b fun buf =>
        { buf with
          dev := ROOTDEV, blockno := block, valid := false, dirty := false, refcnt := 1 } with
      waiting := s.waiting ++ [⟨p, b, block, read⟩] } := by
  obtain ⟨hlock, hwait⟩ := h.unused hb href
  have hzero : waiters s.waiting b = 0 := by
    have := h.refs b hb
    omega
  have hlocked : ∀ c hd, s.lock c = some hd → c ≠ b := by
    rintro c hd hc rfl
    exact Option.some_ne_none _ (hc.symm.trans hlock)
  -- what another buffer holds is not what `b` now holds
  have hother : ∀ c blk, c < NBUF → c ≠ b → (s.buf c).holds blk → blk ≠ block := by
    rintro c blk hc - hholds rfl
    exact hnone c hc hholds
  refine ⟨h.ring, fun c hc => ?_, fun w hw => ?_, fun c hd hlk => ?_, fun c e blk hc he hcb heb => ?_,
    fun c hd hlk => ?_, fun c hc hdt hst => ?_, fun c hd hlk => ?_,
    fun c blk hc hcb hval hst => ?_, fun blk hall => ?_⟩ <;>
    dsimp only at *
  · rw [waiters_append]
    by_cases hcb : c = b
    · subst hcb
      rw [setBuf_self, if_pos rfl, hzero]
      simp only [BufCache.setBuf, hlock, holders]
    · rw [setBuf_ne hcb, if_neg (Ne.symm hcb), h.refs c hc]
      rfl
  · rcases List.mem_append.1 hw with hw | hw
    · rw [setBuf_ne (hwait w hw)]
      exact h.waits w hw
    · rw [List.mem_singleton.1 hw, setBuf_self]
      exact ⟨hb, rfl, rfl⟩
  · rw [setBuf_ne (hlocked c hd hlk)]
    exact h.locks c hd hlk
  · by_cases hcq : c = b <;> by_cases heq : e = b
    · rw [hcq, heq]
    · subst hcq
      rw [setBuf_self] at hcb
      rw [setBuf_ne heq] at heb
      exact (hother e blk he heq heb hcb.2.symm).elim
    · subst heq
      rw [setBuf_self] at heb
      rw [setBuf_ne hcq] at hcb
      exact (hother c blk hc hcq hcb heb.2.symm).elim
    · rw [setBuf_ne hcq] at hcb
      rw [setBuf_ne heq] at heb
      exact h.unique c e blk hc he hcb heb
  · rw [setBuf_ne (hlocked c hd hlk)]
    exact h.loading c hd hlk
  · by_cases hcq : c = b
    · subst hcq
      rw [setBuf_self] at hdt
      exact Bool.noConfusion hdt
    · rw [setBuf_ne hcq] at hdt ⊢
      exact h.dirty c hc hdt hst
  · rw [setBuf_ne (hlocked c hd hlk)]
    exact h.ready c hd hlk
  · by_cases hcq : c = b
    · subst hcq
      rw [setBuf_self] at hval
      exact Bool.noConfusion hval
    · rw [setBuf_ne hcq] at hcb hval ⊢
      exact h.fresh c blk hc hcb hval hst
  · refine h.disk blk fun c hc hcb => ?_
    by_cases hcq : c = b
    · rw [hcq]
      exact hdirty
    · have := hall c hc
      rw [setBuf_ne hcq] at this
      exact this hcb

end

/-! ### Locks -/

theorem CacheInv.acquire {w : BufWait} (h : CacheInv s) (hw : w ∈ s.waiting)
    (hnone : s.lock w.buf = none) : CacheInv (s.acquire w) := by
  obtain ⟨hlt, hholds⟩ := h.waits w hw
  have hlock : ∀ c hd, (s.acquire w).lock c = some hd →
      (c = w.buf ∧ hd = ⟨w.proc, w.block,
        if w.read then if (s.buf w.buf).valid then .ready else .loading else .blind⟩) ∨
      (c ≠ w.buf ∧ s.lock c = some hd) := by
    intro c hd hc
    simp only [BufCache.acquire, BufCache.setLock] at hc
    by_cases hcw : c = w.buf
    · grind
    · grind
  -- who was not writing is not writing
  have hquiet : ∀ c, (∀ hd, (s.acquire w).lock c = some hd → hd.stage ≠ .writing) →
      ∀ hd, s.lock c = some hd → hd.stage ≠ .writing := by
    intro c hst hd hc
    have hcw : c ≠ w.buf := by grind
    refine hst hd ?_
    simp only [BufCache.acquire, BufCache.setLock]
    rw [update_of_ne hcw]
    exact hc
  refine ⟨h.ring, fun c hc => ?_, fun x hx => h.waits x (List.mem_of_mem_erase hx),
    fun c hd hc => ?_, h.unique, fun c hd hc hst => ?_,
    fun c hc hdt hst => h.dirty c hc hdt (hquiet c hst), fun c hd hc hst => ?_,
    fun c blk hc hcb hval hst => h.fresh c blk hc hcb hval (hquiet c hst), h.disk⟩
  · have hrefs := h.refs c hc
    rw [waiters_erase hw c] at hrefs
    simp only [BufCache.acquire, BufCache.setLock]
    by_cases hcw : c = w.buf
    · subst hcw
      rw [hnone, holders, if_pos rfl] at hrefs
      rw [update_self, holders]
      exact hrefs
    · grind
  · rcases hlock c hd hc with ⟨rfl, rfl⟩ | ⟨-, hc⟩
    · exact ⟨hlt, hholds⟩
    · exact h.locks c hd hc
  · rcases hlock c hd hc with ⟨rfl, rfl⟩ | ⟨-, hc⟩
    · -- a buffer that is not valid and not being written is not dirty
      dsimp only at hst
      rw [← Bool.not_eq_true]
      intro hdirty
      have hval := h.dirty _ hlt hdirty fun hd hc => (Option.some_ne_none _
        (hc.symm.trans hnone)).elim
      rw [hval] at hst
      split at hst <;> cases hst
    · exact h.loading c hd hc hst
  · rcases hlock c hd hc with ⟨rfl, rfl⟩ | ⟨-, hc⟩
    · dsimp only at hst
      split at hst
      · split at hst
        · assumption
        · cases hst
      · cases hst
    · exact h.ready c hd hc hst

/-- A step of the process that holds the lock of `b`: it may change the contents and
    the flags of the buffer, and what is known about its block. -/
theorem CacheInv.held {b : Nat} {hd : BufHold} (h : CacheInv s) (f : Buf → Buf)
    (stage : BufStage) (latest disk : Nat → Page) (hlock : s.lock b = some hd)
    (hbuf : (f (s.buf b)).dev = (s.buf b).dev ∧ (f (s.buf b)).blockno = (s.buf b).blockno ∧
      (f (s.buf b)).refcnt = (s.buf b).refcnt)
    (hother : ∀ blk, blk ≠ hd.block → latest blk = s.latest blk ∧ disk blk = s.disk blk)
    (hload : stage = .loading → (f (s.buf b)).dirty = false)
    (hdirty : stage ≠ .writing → (f (s.buf b)).dirty = true → (f (s.buf b)).valid = true)
    (hready : stage = .ready → (f (s.buf b)).valid = true)
    (hfresh : (f (s.buf b)).valid = true → stage ≠ .writing →
      (f (s.buf b)).data = latest hd.block)
    (hdisk : (f (s.buf b)).dirty = false → disk hd.block = latest hd.block) :
    CacheInv { (s.setBuf b f).setLock b (some { hd with stage := stage }) with
      disk := disk, latest := latest } := by
  obtain ⟨hlt, hholds⟩ := h.locks b hd hlock
  have hsame : ∀ c blk, ((s.setBuf b f).buf c).holds blk ↔ (s.buf c).holds blk := by
    intro c blk
    by_cases hcb : c = b
    · subst hcb
      simp only [Buf.holds, setBuf_self, hbuf.1, hbuf.2.1]
    · rw [setBuf_ne hcb]
  have hlk : ∀ c, c ≠ b →
      ((s.setBuf b f).setLock b (some { hd with stage := stage })).lock c = s.lock c :=
    fun c hc => update_of_ne hc _ _
  have hself : ((s.setBuf b f).setLock b (some { hd with stage := stage })).lock b =
      some { hd with stage := stage } := update_self _ _ _
  -- the block of another buffer is another block
  have hne : ∀ c blk, c < NBUF → c ≠ b → (s.buf c).holds blk → blk ≠ hd.block := by
    rintro c blk hc hcb hcblk rfl
    exact hcb (h.unique c b _ hc hlt hcblk hholds)
  refine ⟨h.ring, fun c hc => ?_, fun w hw => ?_, fun c hd' hc => ?_,
    fun c e blk hc he hcb heb => ?_, fun c hd' hc hst => ?_, fun c hc hdt hst => ?_,
    fun c hd' hc hst => ?_, fun c blk hc hcb hval hst => ?_, fun blk hall => ?_⟩ <;>
    dsimp only [BufCache.setLock] at *
  · by_cases hcb : c = b
    · subst hcb
      have hrefs := h.refs c hc
      rw [hlock] at hrefs
      rw [setBuf_self, hbuf.2.2, hrefs, hself]
      rfl
    · rw [setBuf_ne hcb, hlk c hcb, h.refs c hc]
      rfl
  · rw [hsame]
    exact h.waits w hw
  · rw [hsame]
    by_cases hcb : c = b
    · subst hcb
      rw [hself] at hc
      rw [← Option.some.inj hc]
      exact ⟨hlt, hholds⟩
    · rw [hlk c hcb] at hc
      exact h.locks c hd' hc
  · exact h.unique c e blk hc he ((hsame c blk).1 hcb) ((hsame e blk).1 heb)
  · by_cases hcb : c = b
    · subst hcb
      rw [hself] at hc
      rw [← Option.some.inj hc] at hst
      rw [setBuf_self]
      exact hload hst
    · rw [hlk c hcb] at hc
      rw [setBuf_ne hcb]
      exact h.loading c hd' hc hst
  · by_cases hcb : c = b
    · subst hcb
      rw [setBuf_self] at hdt ⊢
      exact hdirty (hst _ hself) hdt
    · rw [setBuf_ne hcb] at hdt ⊢
      exact h.dirty c hc hdt fun hd' hd'' => hst hd' ((hlk c hcb).trans hd'')
  · by_cases hcb : c = b
    · subst hcb
      rw [hself] at hc
      rw [← Option.some.inj hc] at hst
      rw [setBuf_self]
      exact hready hst
    · rw [hlk c hcb] at hc
      rw [setBuf_ne hcb]
      exact h.ready c hd' hc hst
  · rw [hsame] at hcb
    by_cases hcq : c = b
    · subst hcq
      rw [setBuf_self] at hval ⊢
      rw [hcb.2.symm.trans hholds.2]
      exact hfresh hval (hst _ hself)
    · rw [setBuf_ne hcq] at hval ⊢
      rw [(hother blk (hne c blk hc hcq hcb)).1]
      exact h.fresh c blk hc hcb hval fun hd' hd'' => hst hd' ((hlk c hcq).trans hd'')
  · by_cases hblk : blk = hd.block
    · rw [hblk] at hall ⊢
      have hb := hall b hlt ((hsame b _).2 hholds)
      rw [setBuf_self] at hb
      exact hdisk hb
    · rw [(hother blk hblk).1, (hother blk hblk).2]
      refine h.disk blk fun c hc hcb => ?_
      have hcq : c ≠ b := by
        rintro rfl
        exact hblk (hcb.2.symm.trans hholds.2)
      have := hall c hc ((hsame c blk).2 hcb)
      rwa [setBuf_ne hcq] at this

theorem CacheInv.on_disk {b block : Nat} (h : CacheInv s) (hb : b < NBUF)
    (hholds : (s.buf b).holds block) (hdirty : (s.buf b).dirty = false) :
    s.disk block = s.latest block := by grind [h.disk, h.unique]

theorem CacheInv.readDone {b : Nat} {hd : BufHold} (h : CacheInv s) (hlock : s.lock b = some hd)
    (hst : hd.stage = .loading) : CacheInv (s.readDone b hd) := by
  obtain ⟨hlt, hholds⟩ := h.locks b hd hlock
  have hdisk := h.on_disk hlt hholds (h.loading b hd hlock hst)
  refine h.held (fun buf =>
      { buf with data := s.disk buf.blockno, valid := true, dirty := false })
    .ready s.latest s.disk hlock ⟨rfl, rfl, rfl⟩ (fun _ _ => ⟨rfl, rfl⟩) (fun _ => rfl)
    (fun _ _ => rfl) (fun _ => rfl) (fun _ _ => ?_) fun _ => hdisk
  rw [← hdisk, ← hholds.2]

theorem CacheInv.logWrite {b : Nat} {hd : BufHold} (h : CacheInv s) (hlock : s.lock b = some hd)
    (hst : hd.stage = .ready) (data : Page) : CacheInv (s.logWrite b data) := by
  obtain ⟨-, hholds⟩ := h.locks b hd hlock
  have hval := h.ready b hd hlock hst
  have hother : ∀ blk, blk ≠ hd.block →
      update s.latest (s.buf b).blockno data blk = s.latest blk :=
    fun blk hne => update_of_ne (by rw [hholds.2]; exact hne) _ _
  have hheld := h.held (fun buf => { buf with data := data, dirty := true }) .ready
    (update s.latest (s.buf b).blockno data) s.disk hlock ⟨rfl, rfl, rfl⟩
    (fun blk hne => ⟨hother blk hne, rfl⟩) (fun hst => BufStage.noConfusion hst) (fun _ _ => hval)
    (fun _ => hval) (fun _ _ => by rw [← hholds.2, update_self])
    fun hdirty => Bool.noConfusion hdirty
  have hsame : update s.lock b (some { hd with stage := .ready }) = s.lock := by
    rw [← hst, ← hlock, update_eq_self]
  simp only [BufCache.setLock, BufCache.setBuf, hsame] at hheld
  exact hheld

theorem CacheInv.bwrite {b : Nat} {hd : BufHold} (h : CacheInv s) (hlock : s.lock b = some hd)
    (data : Page) : CacheInv (s.bwrite b hd data) :=
  h.held (fun buf => { buf with data := data, dirty := true }) .writing s.latest s.disk hlock
    ⟨rfl, rfl, rfl⟩ (fun _ _ => ⟨rfl, rfl⟩) (fun hst => BufStage.noConfusion hst)
    (fun hst => absurd rfl hst) (fun hst => BufStage.noConfusion hst) (fun _ hst => absurd rfl hst)
    fun hdirty => Bool.noConfusion hdirty

theorem CacheInv.writeDone {b : Nat} {hd : BufHold} (h : CacheInv s)
    (hlock : s.lock b = some hd) : CacheInv (s.writeDone b hd) := by
  obtain ⟨-, hholds⟩ := h.locks b hd hlock
  have hne : ∀ {blk : Nat}, blk ≠ hd.block → blk ≠ (s.buf b).blockno := fun hne => by
    rw [hholds.2]
    exact hne
  refine h.held (fun buf => { buf with valid := true, dirty := false }) .ready _ _ hlock
    ⟨rfl, rfl, rfl⟩ (fun blk hblk => ⟨update_of_ne (hne hblk) _ _,
      update_of_ne (hne hblk) _ _⟩) (fun _ => rfl) (fun _ _ => rfl) (fun _ => rfl)
    (fun _ _ => ?_) fun _ => ?_
  · rw [← hholds.2, update_self]
  · rw [← hholds.2, update_self, update_self]

theorem CacheInv.moveFront {b : Nat} (h : CacheInv s) (hb : b < NBUF) :
    CacheInv ((s.unlink b).insertFront b) := by
  obtain ⟨l, hring, hperm⟩ := h.ring
  obtain ⟨l1, l2, rfl⟩ := List.append_of_mem (hperm.mem_iff.2 (List.mem_range.2 hb))
  have hmoved : (b :: (l1 ++ l2)).Perm (l1 ++ b :: l2) := List.perm_middle.symm
  have hnot : b ∉ BHEAD :: (l1 ++ l2) := by
    have hnodup := (hmoved.cons BHEAD).nodup_iff.2 hring.nodup
    rw [List.nodup_cons, List.nodup_cons] at hnodup
    rw [List.mem_cons, not_or]
    exact ⟨fun heq => hnodup.1 (heq ▸ List.mem_cons_self), hnodup.2.1⟩
  exact ⟨⟨_, hring.unlink.insert hnot, hmoved.trans hperm⟩, h.refs, h.waits, h.locks, h.unique,
    h.loading, h.dirty, h.ready, h.fresh, h.disk⟩

theorem CacheInv.release {b : Nat} {hd : BufHold} (h : CacheInv s) (hlock : s.lock b = some hd)
    (hst : hd.stage = .ready) :
    CacheInv ((s.setLock b none).setBuf b fun buf => { buf with refcnt := buf.refcnt - 1 }) := by
  obtain ⟨hlt, hholds⟩ := h.locks b hd hlock
  obtain ⟨t, ht⟩ : ∃ t, t = (s.setLock b none).setBuf b fun buf =>
    { buf with refcnt := buf.refcnt - 1 } := ⟨_, rfl⟩
  -- the fields of the buffers other than the counter
  have hbuf : ∀ c, t.buf c = { s.buf c with refcnt := (t.buf c).refcnt } := by
    intro c
    rw [ht]
    by_cases hcb : c = b
    · subst hcb
      rw [setBuf_self]
      rfl
    · rw [setBuf_ne hcb]
      rfl
  have hlk : ∀ c hd', t.lock c = some hd' → s.lock c = some hd' := by
    intro c hd' hc
    rw [ht] at hc
    by_cases hcb : c = b
    · subst hcb
      exact (Option.some_ne_none _ (hc.symm.trans (update_self _ _ _))).elim
    · exact (update_of_ne hcb _ _).symm.trans hc
  have hquiet : ∀ c, (∀ hd', t.lock c = some hd' → hd'.stage ≠ .writing) →
      ∀ hd', s.lock c = some hd' → hd'.stage ≠ .writing := by
    intro c hnow hd' hc
    by_cases hcb : c = b
    · grind
    · refine hnow hd' ?_
      rw [ht]
      exact (update_of_ne hcb _ _).trans hc
  have hholds' : ∀ c blk, (t.buf c).holds blk ↔ (s.buf c).holds blk := by
    intro c blk
    rw [hbuf c]
    rfl
  have hrefs : ∀ c, c < NBUF → (t.buf c).refcnt = waiters s.waiting c + holders (t.lock c) := by
    intro c hc
    have hold := h.refs c hc
    rw [ht]
    by_cases hcb : c = b
    · subst hcb
      rw [hlock, holders] at hold
      have hnone : ((s.setLock c none).setBuf c fun buf =>
          { buf with refcnt := buf.refcnt - 1 }).lock c = none := update_self _ _ _
      rw [hnone, holders, setBuf_self]
      simp only [BufCache.setLock]
      omega
    · rw [setBuf_ne hcb]
      refine hold.trans (congrArg (waiters s.waiting c + holders ·) ?_)
      exact (update_of_ne hcb _ _).symm
  rw [← ht]
  have hwaiting : t.waiting = s.waiting := by rw [ht]; rfl
  have hlatest : t.latest = s.latest := by rw [ht]; rfl
  have hdisk : t.disk = s.disk := by rw [ht]; rfl
  have hring : t.next = s.next ∧ t.prev = s.prev := by rw [ht]; exact ⟨rfl, rfl⟩
  refine ⟨by rw [hring.1, hring.2]; exact h.ring, by rw [hwaiting]; exact hrefs, ?_, ?_, ?_, ?_, ?_,
    ?_, ?_, ?_⟩
  · intro w hw
    rw [hwaiting] at hw
    rw [hholds']
    exact h.waits w hw
  · intro c hd' hc
    rw [hholds']
    exact h.locks c hd' (hlk c hd' hc)
  · intro c e blk hc he hcb heb
    exact h.unique c e blk hc he ((hholds' c blk).1 hcb) ((hholds' e blk).1 heb)
  · intro c hd' hc hload
    rw [hbuf c]
    exact h.loading c hd' (hlk c hd' hc) hload
  · intro c hc hdt hnow
    rw [hbuf c] at hdt ⊢
    exact h.dirty c hc hdt (hquiet c hnow)
  · intro c hd' hc hready
    rw [hbuf c]
    exact h.ready c hd' (hlk c hd' hc) hready
  · intro c blk hc hcb hval hnow
    rw [hholds'] at hcb
    rw [hbuf c] at hval ⊢
    rw [hlatest]
    exact h.fresh c blk hc hcb hval (hquiet c hnow)
  · intro blk hall
    rw [hdisk, hlatest]
    refine h.disk blk fun c hc hcb => ?_
    have := hall c hc ((hholds' c blk).2 hcb)
    rwa [hbuf c] at this

theorem CacheInv.brelse {b : Nat} {hd : BufHold} (h : CacheInv s) (hlock : s.lock b = some hd)
    (hst : hd.stage = .ready) : CacheInv (s.brelse b) := by
  have hrel := h.release hlock hst
  unfold BufCache.brelse
  dsimp only
  split
  · exact hrel.moveFront (h.locks b hd hlock).1
  · exact hrel

/-! ### Runs -/

/-- The states that the cache reaches from `binit`. -/
inductive CacheReach (disk : Nat → Page) : BufCache → Prop
  | init : CacheReach disk (binit disk)
  | step {s : BufCache} (e : BufEvent) : CacheReach disk s → CacheReach disk (s.step e)

theorem CacheInv.step (h : CacheInv s) (hstep : BufStep s s') : CacheInv s' := by
  cases hstep with
  | stay => exact h
  | hit p block read hwalk =>
    obtain ⟨hb, htest⟩ := (h.walk_next _).1 _ hwalk
    simp only [Bool.and_eq_true, beq_iff_eq] at htest
    exact h.hit hb htest
  | recycle p block read hnone hwalk =>
    obtain ⟨hb, htest⟩ := h.walk_prev hwalk
    simp only [Bool.and_eq_true, beq_iff_eq, Bool.not_eq_true'] at htest
    refine h.recycle hb (fun c hc hholds => ?_) htest.1 htest.2
    have hmiss := (h.walk_next _).2 hnone c hc
    simp only [hholds.1, hholds.2, beq_self_eq_true, Bool.and_self] at hmiss
    cases hmiss
  | panic => exact ⟨h.ring, h.refs, h.waits, h.locks, h.unique, h.loading, h.dirty, h.ready,
      h.fresh, h.disk⟩
  | acquire hw hlock => exact h.acquire hw hlock
  | readDone hlock hst => exact h.readDone hlock hst
  | logWrite data hlock hst => exact h.logWrite hlock hst data
  | bwrite data hlock hst => exact h.bwrite hlock data
  | writeDone hlock hst => exact h.writeDone hlock
  | brelse hlock hst => exact h.brelse hlock hst

theorem CacheReach.inv {disk : Nat → Page} (h : CacheReach disk s) : CacheInv s := by
  induction h with
  | init => exact cacheInv_binit disk
  | step e _ ih => exact ih.step (BufCache.step_spec _ e)

theorem CacheReach.run {disk : Nat → Page} (h : CacheReach disk s) (es : List BufEvent) :
    CacheReach disk (es.foldl BufCache.step s) := by
  induction es generalizing s with
  | nil => exact h
  | cons e es ih => exact ih (.step e h)

theorem BufStep.keeps_block (h : CacheInv s) (hstep : BufStep s s') {b : Nat}
    (hused : (s.buf b).refcnt > 0 ∨ (s.buf b).dirty = true) :
    (s'.buf b).dev = (s.buf b).dev ∧ (s'.buf b).blockno = (s.buf b).blockno := by
  cases hstep with
  | stay => exact ⟨rfl, rfl⟩
  | hit =>
    simp only [BufCache.setBuf, update_apply]
    split <;> simp_all
  | @recycle c p block read _ hwalk =>
    obtain ⟨-, htest⟩ := h.walk_prev hwalk
    simp only [Bool.and_eq_true, beq_iff_eq, Bool.not_eq_true'] at htest
    have hbc : b ≠ c := by grind
    dsimp only
    rw [setBuf_ne hbc]
    exact ⟨rfl, rfl⟩
  | panic => exact ⟨rfl, rfl⟩
  | acquire => exact ⟨rfl, rfl⟩
  | readDone =>
    simp only [BufCache.readDone, BufCache.setLock, BufCache.setBuf, update_apply]
    split <;> simp_all
  | logWrite =>
    simp only [BufCache.logWrite, BufCache.setBuf, update_apply]
    split <;> simp_all
  | bwrite =>
    simp only [BufCache.bwrite, BufCache.setLock, BufCache.setBuf, update_apply]
    split <;> simp_all
  | writeDone =>
    simp only [BufCache.writeDone, BufCache.setLock, BufCache.setBuf, update_apply]
    split <;> simp_all
  | @brelse c =>
    have hrel : ∀ next prev, ((BufCache.setBuf
        { s.setLock c none with next := next, prev := prev } c
          fun buf => { buf with refcnt := buf.refcnt - 1 }).buf b).dev = (s.buf b).dev ∧
        ((BufCache.setBuf { s.setLock c none with next := next, prev := prev } c
          fun buf => { buf with refcnt := buf.refcnt - 1 }).buf b).blockno =
            (s.buf b).blockno := by
      intro next prev
      simp only [BufCache.setLock, BufCache.setBuf, update_apply]
      split <;> simp_all
    unfold BufCache.brelse
    dsimp only
    split <;> exact hrel s.next s.prev

/-- In every state that any interleaving of the calls reaches: the list is a permutation of
    the buffers, no block has two buffers, a buffer in use or modified keeps its block, and
    what `bread` returned is the last completed write or logged modification of the block
    that was asked for. -/
theorem buffer_cache_coherent (disk : Nat → Page) (s : BufCache) (h : CacheReach disk s) :
    (∃ l, IsRing s.next s.prev BHEAD l ∧ l.Perm (List.range NBUF)) ∧
      (∀ b c block, b < NBUF → c < NBUF → (s.buf b).holds block → (s.buf c).holds block → b = c) ∧
      (∀ e b, (s.buf b).refcnt > 0 ∨ (s.buf b).dirty = true →
        ((s.step e).buf b).dev = (s.buf b).dev ∧
          ((s.step e).buf b).blockno = (s.buf b).blockno) ∧
      ∀ b hd, s.lock b = some hd → hd.stage = .ready →
        (s.buf b).holds hd.block ∧ (s.buf b).data = s.latest hd.block := by
  have hinv := h.inv
  refine ⟨hinv.ring, hinv.unique, fun e b => (BufCache.step_spec s e).keeps_block hinv,
    fun b hd hlock hst => ?_⟩
  obtain ⟨hb, hholds⟩ := hinv.locks b hd hlock
  refine ⟨hholds, hinv.fresh b hd.block hb hholds (hinv.ready b hd hlock hst) fun hd' hd'' => ?_⟩
  rw [← Option.some.inj (hlock.symm.trans hd''), hst]
  exact fun heq => BufStage.noConfusion heq

/-- Block 7 is read and modified by process 1; process 2 then reads it. -/
def readBack : List BufEvent :=
  [.bget 1 7 true, .acquire ⟨1, 0, 7, true⟩, .readDone 0, .logWrite 0 fun _ => 5, .brelse 0,
    .bget 2 7 true, .acquire ⟨2, 0, 7, true⟩]

theorem buffer_cache_coherent_read_back :
    (readBack.foldl BufCache.step (binit fun _ _ => 0)).lock 0 = some ⟨2, 7, .ready⟩ ∧
      ((readBack.foldl BufCache.step (binit fun _ _ => 0)).buf 0).data =
        (readBack.foldl BufCache.step (binit fun _ _ => 0)).latest 7 := by
  have hlock : (readBack.foldl BufCache.step (binit fun _ _ => 0)).lock 0 =
      some ⟨2, 7, .ready⟩ := by decide +kernel
  have hreach : CacheReach (fun _ _ => 0) (readBack.foldl BufCache.step (binit fun _ _ => 0)) :=
    CacheReach.init.run readBack
  obtain ⟨s, hs⟩ : ∃ s, s = readBack.foldl BufCache.step (binit fun _ _ => 0) := ⟨_, rfl⟩
  rw [← hs] at hlock hreach ⊢
  exact ⟨hlock, ((buffer_cache_coherent _ s hreach).2.2.2 0 ⟨2, 7, .ready⟩ hlock rfl).2⟩

end CowPaging
